import OperatingSystems.UThread.Scheduler

/-!
# The walk of the scheduler round the ring

* `Linked` — the threads are linked in one ring, which holds the main thread and every
  thread that has not finished.
* `schedulerLoop_linked` — the loop of `u_thread_scheduler` takes finished threads off
  the ring and changes nothing else; it ends at the current thread, or at one that is due.
* `schedulerLoop_choice` — which thread it ends at, for a caller that has not finished.
-/

namespace OperatingSystems
namespace UThread

namespace State

variable (s : State) (j a v : Nat)

theorem next_modify (f : Thread → Thread) :
    (s.modify j f).next = Function.update s.next j (f (s.thread j)).next := by
  funext i
  by_cases hij : i = j
  · subst i
    simp [next, modify]
  · simp [next, modify, hij]

theorem prev_modify (f : Thread → Thread) :
    (s.modify j f).prev = Function.update s.prev j (f (s.thread j)).prev := by
  funext i
  by_cases hij : i = j
  · subst i
    simp [prev, modify]
  · simp [prev, modify, hij]

/-- A write that leaves the links alone. -/
theorem next_modify_of_eq {f : Thread → Thread} (h : (f (s.thread j)).next = (s.thread j).next) :
    (s.modify j f).next = s.next := by
  rw [next_modify, h]
  exact Function.update_eq_self j s.next

theorem prev_modify_of_eq {f : Thread → Thread} (h : (f (s.thread j)).prev = (s.thread j).prev) :
    (s.modify j f).prev = s.prev := by
  rw [prev_modify, h]
  exact Function.update_eq_self j s.prev

end State

/-- `s'` is `s` with other links, other stacks and another count. -/
structure Relinked (s s' : State) : Prop where
  thread : ∀ j, s'.thread j =
    { s.thread j with
      next := (s'.thread j).next, prev := (s'.thread j).prev, mapped := (s'.thread j).mapped }
  rest : s' = { s with thread := s'.thread, count := s'.count }

namespace Relinked

variable {s s' s'' : State}

theorem refl (s : State) : Relinked s s :=
  ⟨fun _ => rfl, rfl⟩

theorem trans (h : Relinked s s') (h' : Relinked s' s'') : Relinked s s'' := by
  refine ⟨fun j => ?_, ?_⟩
  · rw [h'.thread j, h.thread j]
  · rw [h'.rest, h.rest]

theorem modify (s : State) (j : Nat) {f : Thread → Thread}
    (hf : ∀ t : Thread,
      f t = { t with next := (f t).next, prev := (f t).prev, mapped := (f t).mapped }) :
    Relinked s (s.modify j f) := by
  refine ⟨fun i => ?_, rfl⟩
  by_cases hij : i = j
  · subst i
    simpa [State.modify] using hf _
  · simp [State.modify, hij]

theorem finished (h : Relinked s s') (j : Nat) :
    (s'.thread j).finished = (s.thread j).finished := by
  rw [h.thread j]

theorem sleepUntil (h : Relinked s s') (j : Nat) :
    (s'.thread j).sleepUntil = (s.thread j).sleepUntil := by
  rw [h.thread j]

theorem ctx (h : Relinked s s') (j : Nat) : (s'.thread j).ctx = (s.thread j).ctx := by
  rw [h.thread j]

theorem link (h : Relinked s s') (j : Nat) : (s'.thread j).link = (s.thread j).link := by
  rw [h.thread j]

theorem uThreadId (h : Relinked s s') (j : Nat) :
    (s'.thread j).uThreadId = (s.thread j).uThreadId := by
  rw [h.thread j]

end Relinked

/-- The main thread and every unfinished thread are on one ring; `l` is what follows `p`. -/
structure Linked (s : State) (p : Nat) (l : List Nat) : Prop where
  ring : Ring s.next s.prev p l
  head_eq : s.head = 0
  head_mem : 0 ∈ l
  unfinished_mem : ∀ j < s.created, (s.thread j).finished = false → j ∈ l
  lt_created : ∀ j ∈ l, j < s.created
  count_eq : s.count = l.length

namespace Linked

variable {s : State} {p y : Nat} {l : List Nat}

theorem next_eq (h : Linked s p (y :: l)) : s.next p = y :=
  h.ring.next_eq

/-- The ring seen from the next thread. -/
theorem rotate (h : Linked s p (y :: l)) : Linked s y (l ++ [y]) := by
  have hperm : (l ++ [y]).Perm (y :: l) := List.perm_append_singleton y l
  refine ⟨h.ring.rotate, h.head_eq, hperm.mem_iff.mpr h.head_mem, ?_, ?_, ?_⟩
  · exact fun j hj hfinished => hperm.mem_iff.mpr (h.unfinished_mem j hj hfinished)
  · exact fun j hj => h.lt_created j (hperm.mem_iff.mp hj)
  · rw [h.count_eq, hperm.length_eq]

/-- A finished thread other than the main thread is taken off. -/
theorem unlink {z : Nat} (h : Linked s p (y :: z :: l)) (hfinished : (s.thread y).finished = true)
    (hhead : y ≠ s.head) : Relinked s (s.unlink y) ∧ Linked (s.unlink y) p (z :: l) := by
  have hprev : s.prev y = p := h.ring.prev_eq
  have hnext : s.next y = z := h.ring.rotate.next_eq
  have hnodup := List.nodup_cons.mp h.ring.nodup
  have hyp : y ≠ p := by
    rintro rfl
    exact hnodup.1 (List.mem_of_getLast? (by simpa using h.ring.closed))
  -- The two writes, one after the other.
  let s₁ := s.modify p ({ · with next := z })
  let s₂ := s₁.modify z ({ · with prev := p })
  let s₃ := s₂.modify y ({ · with mapped := false })
  have hnext₁ : s₁.next y = z := by
    rw [State.next_modify, Function.update_of_ne hyp, hnext]
  have hprev₁ : s₁.prev = s.prev := s.prev_modify_of_eq p rfl
  have hnext₂ : s₂.next = s₁.next := s₁.next_modify_of_eq z rfl
  have hnext₃ : s₃.next = s₂.next := s₂.next_modify_of_eq y rfl
  have hprev₃ : s₃.prev = s₂.prev := s₂.prev_modify_of_eq y rfl
  have hunlink : s.unlink y = { s₃ with count := s.count - 1 } := by
    have hhead' : ¬ s₂.head = y := fun heq => hhead heq.symm
    simp only [State.unlink, hprev, hnext]
    rw [show s.modify p ({ · with next := z }) = s₁ from rfl, hnext₁, hprev₁, hprev,
      show s₁.modify z ({ · with prev := p }) = s₂ from rfl, if_neg hhead']
    rfl
  have hnext' : (s.unlink y).next = Function.update s.next p z := by
    rw [hunlink]
    exact hnext₃.trans (hnext₂.trans (s.next_modify p _))
  have hprev' : (s.unlink y).prev = Function.update s.prev z p := by
    rw [hunlink, ← hprev₁]
    exact hprev₃.trans (s₁.prev_modify z _)
  have hsame : Relinked s (s.unlink y) := by
    rw [hunlink]
    have h₃ : Relinked s s₃ :=
      ((Relinked.modify s p fun _ => rfl).trans (Relinked.modify s₁ z fun _ => rfl)).trans
        (Relinked.modify s₂ y fun _ => rfl)
    exact ⟨h₃.thread, rfl⟩
  have hhead₀ : 0 ≠ y := fun heq => hhead (heq ▸ h.head_eq.symm)
  refine ⟨hsame, h.ring.unlink hnext' hprev', ?_, ?_, fun j hj hunfinished => ?_, fun j hj => ?_, ?_⟩
  · rw [hsame.rest]
    exact h.head_eq
  · simpa [hhead₀] using h.head_mem
  · rw [hsame.finished] at hunfinished
    have hmem := h.unfinished_mem j (by rw [hsame.rest] at hj; exact hj) hunfinished
    have hjy : j ≠ y := by
      rintro rfl
      simp [hfinished] at hunfinished
    simpa [hjy] using hmem
  · rw [hsame.rest]
    exact h.lt_created j (List.mem_cons_of_mem y hj)
  · rw [hunlink]
    simp [h.count_eq]

end Linked

/-- The thread can be switched to. -/
def State.Due (s : State) (t : Int) (j : Nat) : Prop :=
  (s.thread j).finished = false ∧ (s.thread j).sleepUntil ≤ t

instance (s : State) (t : Int) (j : Nat) : Decidable (s.Due t j) :=
  inferInstanceAs (Decidable (_ ∧ _))

theorem Relinked.due_iff {s s' : State} (h : Relinked s s') (t : Int) (j : Nat) :
    s'.Due t j ↔ s.Due t j := by
  rw [State.Due, State.Due, h.finished, h.sleepUntil]

/-- What one turn of the loop does at the thread `y` that follows `p`. -/
theorem schedulerLoop_succ {s : State} {p y : Nat} {l : List Nat} (h : Linked s p (y :: l))
    (t : Int) (fuel : Nat) :
    ((s.thread y).finished = true ∧ y ≠ s.head ∧ ∃ z l', l = z :: l' ∧
      Relinked s (s.unlink y) ∧ Linked (s.unlink y) z (l' ++ [z]) ∧
      s.schedulerLoop t (fuel + 1) p =
        if z = s.cur then some (s.unlink y, z) else (s.unlink y).schedulerLoop t fuel z) ∨
    (¬ ((s.thread y).finished = true ∧ y ≠ s.head) ∧ Linked s y (l ++ [y]) ∧
      s.schedulerLoop t (fuel + 1) p =
        if s.Due t y ∨ y = s.cur then some (s, y) else s.schedulerLoop t fuel y) := by
  by_cases hfinished : (s.thread y).finished = true ∧ y ≠ s.head
  · left
    cases l with
    | nil =>
        -- A ring of one thread is the main thread.
        have : y = 0 := by simpa [eq_comm] using h.head_mem
        exact absurd (this.trans h.head_eq.symm) hfinished.2
    | cons z l =>
        obtain ⟨hsame, hlinked⟩ := h.unlink hfinished.1 hfinished.2
        have hnext : s.next y = z := h.rotate.next_eq
        have hcount : (s.unlink y).count ≠ 0 := by
          rw [hlinked.count_eq, List.length_cons]
          omega
        have hcur : (s.unlink y).cur = s.cur := by rw [hsame.rest]
        refine ⟨hfinished.1, hfinished.2, z, l, rfl, hsame, hlinked.rotate, ?_⟩
        simp only [State.schedulerLoop, h.next_eq, hnext]
        rw [if_pos hfinished, if_neg hcount, hcur, ite_not]
  · right
    refine ⟨hfinished, h.rotate, ?_⟩
    simp only [State.schedulerLoop, h.next_eq]
    rw [if_neg hfinished]
    change (if s.Due t y then _ else _) = _
    by_cases hdue : s.Due t y
    · rw [if_pos hdue, if_pos (Or.inl hdue)]
    · rw [if_neg hdue, ite_not]
      simp only [hdue, false_or]

/-- The loop keeps the threads linked, and ends at the current thread or at one that is
due. -/
theorem schedulerLoop_linked {s s' : State} {p c : Nat} {l : List Nat} {t : Int} {fuel : Nat}
    (h : Linked s p l) (hloop : s.schedulerLoop t fuel p = some (s', c)) :
    Relinked s s' ∧ (∃ l', Linked s' c l') ∧ (c = s.cur ∨ s.Due t c) := by
  induction fuel generalizing s p l with
  | zero => simp [State.schedulerLoop] at hloop
  | succ fuel ih =>
      cases l with
      | nil => simpa using h.head_mem
      | cons y l =>
          obtain ⟨-, -, z, l', -, hsame, hlinked, hturn⟩ | ⟨-, hlinked, hturn⟩ :=
            schedulerLoop_succ h t fuel
          · rw [hturn] at hloop
            split at hloop
            · next hcur =>
              obtain ⟨rfl, rfl⟩ := Prod.mk.inj (Option.some.inj hloop)
              exact ⟨hsame, ⟨_, hlinked⟩, Or.inl hcur⟩
            · obtain ⟨hsame', hlinked', hc⟩ := ih hlinked hloop
              refine ⟨hsame.trans hsame', hlinked', ?_⟩
              rwa [hsame.due_iff, hsame.rest] at hc
          · rw [hturn] at hloop
            split at hloop
            · next hend =>
              obtain ⟨rfl, rfl⟩ := Prod.mk.inj (Option.some.inj hloop)
              exact ⟨.refl s, ⟨_, hlinked⟩, hend.symm⟩
            · exact ih hlinked hloop

/-- A finished thread, which the loop takes off the ring. -/
def State.Gone (s : State) (y : Nat) : Prop :=
  (s.thread y).finished = true ∧ y ≠ s.head

instance (s : State) (y : Nat) : Decidable (s.Gone y) :=
  inferInstanceAs (Decidable (_ ∧ _))

/-- The threads that the loop looks at among those that follow the current one: the
successor of a thread that it takes off the ring is passed over. -/
def State.examined (s : State) : List Nat → List Nat
  | [] => []
  | [y] => if s.Gone y then [] else [y]
  | y :: z :: l => if s.Gone y then s.examined l else y :: s.examined (z :: l)

theorem State.examined_of_gone {s : State} {y z : Nat} {l : List Nat} (h : s.Gone y) :
    s.examined (y :: z :: l) = s.examined l := by
  rw [examined, if_pos h]

theorem State.examined_of_not_gone {s : State} {y : Nat} {l : List Nat} (h : ¬ s.Gone y) :
    s.examined (y :: l) = y :: s.examined l := by
  cases l with
  | nil => simp [examined, h]
  | cons z l => rw [examined, if_neg h]

theorem State.examined_congr {s s' : State}
    (hfinished : ∀ j, (s'.thread j).finished = (s.thread j).finished) (hhead : s'.head = s.head)
    (l : List Nat) : s'.examined l = s.examined l := by
  have hgone : ∀ y, s'.Gone y ↔ s.Gone y := by
    intro y
    rw [State.Gone, State.Gone, hfinished, hhead]
  fun_induction State.examined s l with
  | case1 => rfl
  | case2 y hy => rw [State.examined, if_pos ((hgone y).mpr hy)]
  | case3 y hy => rw [State.examined, if_neg (mt (hgone y).mp hy)]
  | case4 y z l hy ih => rw [State.examined, if_pos ((hgone y).mpr hy), ih]
  | case5 y z l hy ih => rw [State.examined, if_neg (mt (hgone y).mp hy), ih]

/-- Called by an unfinished thread, the loop ends at the first thread that it looks at and
that is due, or at the caller. -/
theorem schedulerLoop_choice {s s' : State} {p c : Nat} {l l' : List Nat} {t : Int} {fuel : Nat}
    (h : Linked s p (l ++ l')) (hlast : l.getLast? = some s.cur)
    (hcur : (s.thread s.cur).finished = false)
    (hloop : s.schedulerLoop t fuel p = some (s', c)) :
    c = ((s.examined l).find? (fun j => s.Due t j)).getD s.cur := by
  induction fuel generalizing s p l l' with
  | zero => simp [State.schedulerLoop] at hloop
  | succ fuel ih =>
      cases l with
      | nil => simp at hlast
      | cons y l =>
          have hnodup : (y :: l).Nodup := (List.nodup_append.mp h.ring.nodup).1
          obtain ⟨hfinished, hhead, z, k, hl, hsame, hlinked, hturn⟩ | ⟨hgone, hlinked, hturn⟩ :=
            schedulerLoop_succ h t fuel
          -- `y` is gone and comes off the ring: the caller is unfinished, so it is further on.
          · have hne : l ≠ [] := by
              rintro rfl
              obtain rfl : y = s.cur := by simpa using hlast
              simp [hcur] at hfinished
            obtain ⟨w, l, rfl⟩ := List.exists_cons_of_ne_nil hne
            obtain ⟨rfl, rfl⟩ := List.cons.inj hl
            rw [State.examined_of_gone ⟨hfinished, hhead⟩]
            rw [List.getLast?_cons_cons] at hlast
            rw [hturn] at hloop
            split at hloop
            · next hback =>
              subst hback
              obtain rfl := Ring.eq_nil_of_getLast hlast (List.nodup_cons.mp hnodup).2
              simpa [State.examined] using (Prod.mk.inj (Option.some.inj hloop)).2.symm
            · next hother =>
              have hne' : l ≠ [] := by
                rintro rfl
                exact hother (by simpa using hlast)
              obtain ⟨v, l, rfl⟩ := List.exists_cons_of_ne_nil hne'
              have hcur' : (s.unlink y).cur = s.cur := by rw [hsame.rest]
              rw [List.getLast?_cons_cons] at hlast
              rw [← State.examined_congr hsame.finished (by rw [hsame.rest]), ← hcur']
              simp only [← hsame.due_iff]
              have hlinked' : Linked (s.unlink y) w (v :: l ++ (l' ++ [w])) := by simpa using hlinked
              refine ih hlinked' ?_ ?_ hloop
              · rw [hcur', hlast]
              · rw [hcur', hsame.finished, hcur]
          -- `y` is looked at: the loop ends at it, or goes on behind it.
          · rw [State.examined_of_not_gone hgone]
            rw [hturn] at hloop
            split at hloop
            · next hend =>
              obtain rfl := (Prod.mk.inj (Option.some.inj hloop)).2
              by_cases hdue : s.Due t y
              · simp [hdue]
              · obtain rfl := hend.resolve_left hdue
                obtain rfl := Ring.eq_nil_of_getLast hlast hnodup
                simp [hdue, State.examined]
            · next hgo =>
              obtain ⟨hdue, hother⟩ := not_or.mp hgo
              have hne : l ≠ [] := by
                rintro rfl
                exact hother (by simpa using hlast)
              obtain ⟨v, l, rfl⟩ := List.exists_cons_of_ne_nil hne
              rw [List.getLast?_cons_cons] at hlast
              rw [List.find?_cons_of_neg (by simpa using hdue)]
              have hlinked' : Linked s y (v :: l ++ (l' ++ [y])) := by simpa using hlinked
              exact ih hlinked' hlast hcur hloop

/-- The structure that `u_thread_create` fills in. -/
def State.newThread (s : State) : Thread :=
  { uThreadId := s.uThreadId + 1, finished := false, sleepUntil := 0, ctx := ⟨s.created, 0⟩,
    link := s.head, mapped := true, next := s.next s.cur, prev := s.cur }

/-- `s` with the new structure, before it is linked in. -/
def State.withNew (s : State) : State :=
  { s with thread := Function.update s.thread s.created s.newThread }

/-- The two writes that link it in. -/
theorem State.create_thread (s : State) :
    (s.uThreadCreate true).thread =
      ((s.withNew.modify s.cur ({ · with next := s.created })).modify (s.next s.cur)
        ({ · with prev := s.created })).thread := rfl

theorem create_relinked (s : State) :
    Relinked s.withNew ((s.withNew.modify s.cur ({ · with next := s.created })).modify
      (s.next s.cur) ({ · with prev := s.created })) :=
  (Relinked.modify _ _ fun _ => rfl).trans (Relinked.modify _ _ fun _ => rfl)

namespace Linked

variable {s s' : State} {p : Nat} {l : List Nat}

/-- Steps that do not touch the links. -/
theorem of_eq (h : Linked s p l) (hnext : s'.next = s.next) (hprev : s'.prev = s.prev)
    (hhead : s'.head = s.head) (hcreated : s'.created = s.created) (hcount : s'.count = s.count)
    (hfinished : ∀ j, (s'.thread j).finished = false → (s.thread j).finished = false) :
    Linked s' p l := by
  refine ⟨?_, by rw [hhead, h.head_eq], h.head_mem, fun j hj hunfinished => ?_, ?_, ?_⟩
  · rw [hnext, hprev]
    exact h.ring
  · exact h.unfinished_mem j (hcreated ▸ hj) (hfinished j hunfinished)
  · rw [hcreated]
    exact h.lt_created
  · rw [hcount, h.count_eq]

/-- Reading the clock. -/
theorem clock (h : Linked s p l) (t : Int) : Linked { s with clock := t } p l :=
  h.of_eq rfl rfl rfl rfl rfl fun _ => id

theorem init (sleepUntil clock : Int) : Linked (initThread sleepUntil clock) 0 [0] := by
  refine ⟨.singleton rfl rfl, rfl, by simp, fun j hj _ => ?_, fun j hj => ?_, rfl⟩
  · simpa [initThread] using hj
  · simpa [initThread] using hj

/-- A new thread is linked in after the current one. -/
theorem create (h : Linked s s.cur l) :
    Linked (s.uThreadCreate true) s.cur (s.created :: l) := by
  cases l with
  | nil => simpa using h.head_mem
  | cons after l =>
      have hnew : s.created ∉ after :: l := fun hmem => Nat.lt_irrefl _ (h.lt_created _ hmem)
      let s₁ := s.withNew.modify s.cur ({ · with next := s.created })
      let s₂ := s₁.modify (s.next s.cur) ({ · with prev := s.created })
      have hthread : (s.uThreadCreate true).thread = s₂.thread := s.create_thread
      have hnext₀ : s.withNew.next = Function.update s.next s.created after := by
        funext j
        by_cases hj : j = s.created <;>
          simp [State.next, State.withNew, State.newThread, hj, ← h.next_eq]
      have hprev₀ : s.withNew.prev = Function.update s.prev s.created s.cur := by
        funext j
        by_cases hj : j = s.created <;> simp [State.prev, State.withNew, State.newThread, hj]
      have hnext : (s.uThreadCreate true).next = s₁.next := by
        rw [← s₁.next_modify_of_eq (s.next s.cur) (f := ({ · with prev := s.created })) rfl]
        exact congrArg (fun thread j => (thread j : Thread).next) hthread
      have hprev : (s.uThreadCreate true).prev = s₂.prev :=
        congrArg (fun thread j => (thread j : Thread).prev) hthread
      refine ⟨h.ring.insert hnew ?_ ?_, h.head_eq, ?_, ?_, ?_, ?_⟩
      · rw [hnext, State.next_modify, hnext₀]
      · rw [hprev, State.prev_modify, ← hprev₀, h.next_eq]
        congr 1
        exact s.withNew.prev_modify_of_eq s.cur rfl
      · exact List.mem_cons_of_mem _ h.head_mem
      · intro j hj hunfinished
        by_cases hjnew : j = s.created
        · simp [hjnew]
        · have hlt : j < s.created + 1 := hj
          rw [hthread, (create_relinked s).finished] at hunfinished
          refine List.mem_cons_of_mem _ (h.unfinished_mem j (by omega) ?_)
          simpa [State.withNew, hjnew] using hunfinished
      · intro j hj
        change j < s.created + 1
        obtain rfl | hj := List.mem_cons.mp hj
        · exact Nat.lt_succ_self _
        · exact Nat.lt_succ_of_lt (h.lt_created j hj)
      · simp [State.uThreadCreate, State.modify, h.count_eq]

end Linked

/-- What a call of the scheduler does: it stays, or switches to a thread that is due. -/
theorem uThreadScheduler_spec {s s' : State} {l : List Nat} {fuel : Nat} {t : Int}
    (h : Linked s s.cur l) (hexited : s.exited = false)
    (hrun : s.uThreadScheduler fuel t = some s') :
    ∃ s₁ c, Relinked { s with clock := t } s₁ ∧ (∃ l', Linked s₁ c l') ∧
      State.schedulerLoop t fuel { s with clock := t } s.cur = some (s₁, c) ∧
      (c = s.cur ∧ s' = s₁ ∨ c ≠ s.cur ∧ s.Due t c ∧ s' = s₁.switch c) := by
  unfold State.uThreadScheduler at hrun
  cases hloop : State.schedulerLoop t fuel { s with clock := t } s.cur with
  | none => simp [hloop] at hrun
  | some end_ =>
      obtain ⟨s₁, c⟩ := end_
      obtain ⟨hsame, hlinked₁, hend⟩ := schedulerLoop_linked (h.clock t) hloop
      have hexited₁ : ¬ s₁.exited = true := by
        rw [hsame.rest]
        simp [hexited]
      have hcur₁ : s₁.cur = s.cur := by rw [hsame.rest]
      simp only [hloop, hexited₁, hcur₁, Bool.false_eq_true, if_false] at hrun
      refine ⟨s₁, c, hsame, hlinked₁, rfl, ?_⟩
      split at hrun
      · next hne => exact Or.inr ⟨hne, hend.resolve_left hne, (Option.some.inj hrun).symm⟩
      · next heq => exact Or.inl ⟨not_not.mp heq, (Option.some.inj hrun).symm⟩

/-- The state in which a call reaches the scheduler, and the time that it reads there. -/
def State.prepared (s : State) : Call → Option (State × Int)
  | .usleep usec now t =>
      some (if (s.thread s.cur).uThreadId = 0 then s.call true
        else (s.call true).modify s.cur ({ · with sleepUntil := now + usec }), t)
  | .scheduler t => some (s.call false, t)
  | .create _ | .finish => none

/-- What the scheduler leaves as it is, up to the choice of the next thread. -/
structure Kept (s s' : State) : Prop where
  finished : ∀ j, (s'.thread j).finished = (s.thread j).finished
  ctx : ∀ j, (s'.thread j).ctx = (s.thread j).ctx
  link : ∀ j, (s'.thread j).link = (s.thread j).link
  id : ∀ j, (s'.thread j).uThreadId = (s.thread j).uThreadId
  cur : s'.cur = s.cur
  created : s'.created = s.created
  counter : s'.uThreadId = s.uThreadId
  exited : s'.exited = s.exited
  running : s'.running = s.running
  suspended : s'.suspended = s.suspended
  swaps : s'.swaps = s.swaps

theorem Kept.trans {s s' s'' : State} (h : Kept s s') (h' : Kept s' s'') : Kept s s'' where
  finished j := (h'.finished j).trans (h.finished j)
  ctx j := (h'.ctx j).trans (h.ctx j)
  link j := (h'.link j).trans (h.link j)
  id j := (h'.id j).trans (h.id j)
  cur := h'.cur.trans h.cur
  created := h'.created.trans h.created
  counter := h'.counter.trans h.counter
  exited := h'.exited.trans h.exited
  running := h'.running.trans h.running
  suspended := h'.suspended.trans h.suspended
  swaps := h'.swaps.trans h.swaps

theorem Relinked.kept {s s' : State} (h : Relinked s s') : Kept s s' := by
  refine ⟨h.finished, h.ctx, h.link, h.uThreadId, ?_, ?_, ?_, ?_, ?_, ?_, ?_⟩ <;> rw [h.rest]

/-- A write to one thread that only makes it sleep longer. -/
theorem State.modify_kept (s : State) (j : Nat) (v : Int) :
    Kept s (s.modify j ({ · with sleepUntil := v })) ∧
      ∀ {p l}, Linked s p l → Linked (s.modify j ({ · with sleepUntil := v })) p l := by
  have hthread : ∀ i, (s.modify j ({ · with sleepUntil := v })).thread i =
      { s.thread i with
        sleepUntil := ((s.modify j ({ · with sleepUntil := v })).thread i).sleepUntil } := by
    intro i
    by_cases hij : i = j
    · subst i
      simp [modify]
    · simp [modify, hij]
  refine ⟨⟨?_, ?_, ?_, ?_, rfl, rfl, rfl, rfl, rfl, rfl, rfl⟩, fun h => h.of_eq ?_ ?_ rfl rfl rfl ?_⟩
  · exact fun i => by rw [hthread i]
  · exact fun i => by rw [hthread i]
  · exact fun i => by rw [hthread i]
  · exact fun i => by rw [hthread i]
  · exact s.next_modify_of_eq j rfl
  · exact s.prev_modify_of_eq j rfl
  · exact fun i hi => by rwa [hthread i] at hi

/-- On the way to the scheduler, a call makes at most the current thread sleep longer. -/
theorem State.prepared_kept {s s₀ : State} {c : Call} {t : Int}
    (h : s.prepared c = some (s₀, t)) :
    Kept s s₀ ∧ ∀ {p l}, Linked s p l → Linked s₀ p l := by
  have hcall : ∀ usleep, Kept s (s.call usleep) ∧
      ∀ {p l}, Linked s p l → Linked (s.call usleep) p l := fun usleep =>
    ⟨⟨fun _ => rfl, fun _ => rfl, fun _ => rfl, fun _ => rfl, rfl, rfl, rfl, rfl, rfl, rfl, rfl⟩,
      fun h => h.of_eq rfl rfl rfl rfl rfl fun _ => id⟩
  cases c with
  | create ok => simp [prepared] at h
  | finish => simp [prepared] at h
  | scheduler t' =>
      obtain ⟨rfl, rfl⟩ := Prod.mk.inj (Option.some.inj h)
      exact hcall false
  | usleep usec now t' =>
      obtain ⟨rfl, rfl⟩ := Prod.mk.inj (Option.some.inj h)
      split
      · exact hcall true
      · obtain ⟨hkept, hlinked⟩ := (s.call true).modify_kept s.cur (now + usec)
        exact ⟨(hcall true).1.trans hkept, fun h => hlinked ((hcall true).2 h)⟩

/-- Everything a call does, whatever the clock says. -/
theorem perform_cases {s s' : State} {c : Call} {l : List Nat} {fuel : Nat}
    (h : Linked s s.cur l) (hexited : s.exited = false) (hrun : s.perform fuel c = some s') :
    (∃ ok, c = .create ok ∧ s' = (s.call false).uThreadCreate ok) ∨
    (c = .finish ∧ s.running.owner ≠ 0 ∧ s' = s.uThreadReturn) ∨
    ∃ s₀ t s₁ d, s.prepared c = some (s₀, t) ∧
      State.schedulerLoop t fuel { s₀ with clock := t } s.cur = some (s₁, d) ∧
      Kept s s₁ ∧ Relinked { s₀ with clock := t } s₁ ∧ (∃ l', Linked s₁ d l') ∧
      (d = s.cur ∧ s' = s₁ ∨ d ≠ s.cur ∧ s₁.Due t d ∧ s' = s₁.switch d) := by
  have hscheduler : ∀ s₀ t, s.prepared c = some (s₀, t) →
      s₀.uThreadScheduler fuel t = some s' → ∃ s₁ d,
        State.schedulerLoop t fuel { s₀ with clock := t } s.cur = some (s₁, d) ∧
        Kept s s₁ ∧ Relinked { s₀ with clock := t } s₁ ∧ (∃ l', Linked s₁ d l') ∧
        (d = s.cur ∧ s' = s₁ ∨ d ≠ s.cur ∧ s₁.Due t d ∧ s' = s₁.switch d) := by
    intro s₀ t hprepared hrun
    obtain ⟨hkept, hlinked⟩ := State.prepared_kept hprepared
    rw [← hkept.cur] at h ⊢
    obtain ⟨s₁, d, hsame, hlinked₁, hloop, hend⟩ :=
      uThreadScheduler_spec (hlinked h) (hkept.exited.trans hexited) hrun
    have hclock : Kept s₀ { s₀ with clock := t } :=
      ⟨fun _ => rfl, fun _ => rfl, fun _ => rfl, fun _ => rfl, rfl, rfl, rfl, rfl, rfl, rfl, rfl⟩
    refine ⟨s₁, d, hloop, (hkept.trans hclock).trans hsame.kept, hsame, hlinked₁, ?_⟩
    obtain hstay | ⟨hne, hdue, hswitch⟩ := hend
    · exact Or.inl hstay
    · exact Or.inr ⟨hne, (hsame.due_iff t d).mpr hdue, hswitch⟩
  cases c with
  | create ok => exact Or.inl ⟨ok, rfl, (Option.some.inj hrun).symm⟩
  | finish =>
      simp only [State.perform, Option.ite_none_right_eq_some, Option.some.injEq] at hrun
      exact Or.inr (Or.inl ⟨rfl, hrun.1, hrun.2.symm⟩)
  | scheduler t =>
      obtain ⟨s₁, d, hloop, hrest⟩ := hscheduler _ t rfl hrun
      exact Or.inr (Or.inr ⟨_, t, s₁, d, rfl, hloop, hrest⟩)
  | usleep usec now t =>
      have hrun' : (if (s.thread s.cur).uThreadId = 0 then s.call true
          else (s.call true).modify s.cur ({ · with sleepUntil := now + usec })).uThreadScheduler
          fuel t = some s' := by
        simp only [State.perform, State.uThreadUsleep] at hrun
        split
        · next hid => exact (if_pos hid).symm.trans hrun
        · next hid => exact (if_neg hid).symm.trans hrun
      obtain ⟨s₁, d, hloop, hrest⟩ := hscheduler _ t rfl hrun'
      exact Or.inr (Or.inr ⟨_, t, s₁, d, rfl, hloop, hrest⟩)

/-- A call under a clock that does not go backwards is a call. -/
theorem State.perform_of_run {s s' : State} {c : Call} {fuel : Nat}
    (hrun : s.run fuel c = some s') :
    s.perform fuel c = some s' ∧ ∀ s₀ t, s.prepared c = some (s₀, t) → s.clock ≤ t := by
  cases c with
  | create ok => exact ⟨hrun, fun _ _ h => by simp [prepared] at h⟩
  | finish => exact ⟨hrun, fun _ _ h => by simp [prepared] at h⟩
  | scheduler t =>
      simp only [run, Option.ite_none_right_eq_some] at hrun
      refine ⟨hrun.2, fun s₀ t' h => ?_⟩
      obtain ⟨-, rfl⟩ := Prod.mk.inj (Option.some.inj h)
      exact hrun.1
  | usleep usec now t =>
      simp only [run, Option.ite_none_right_eq_some] at hrun
      refine ⟨hrun.2, fun s₀ t' h => ?_⟩
      obtain ⟨-, rfl⟩ := Prod.mk.inj (Option.some.inj h)
      omega

/-- Everything a call does. -/
theorem step_cases {s s' : State} {c : Call} {l : List Nat} (h : Linked s s.cur l)
    (hstep : s.Step c s') :
    (∃ ok, c = .create ok ∧ s' = (s.call false).uThreadCreate ok) ∨
    (c = .finish ∧ s.running.owner ≠ 0 ∧ s' = s.uThreadReturn) ∨
    ∃ s₀ t fuel s₁ d, s.prepared c = some (s₀, t) ∧ s.clock ≤ t ∧
      State.schedulerLoop t fuel { s₀ with clock := t } s.cur = some (s₁, d) ∧
      Kept s s₁ ∧ Relinked { s₀ with clock := t } s₁ ∧ (∃ l', Linked s₁ d l') ∧
      (d = s.cur ∧ s' = s₁ ∨ d ≠ s.cur ∧ s₁.Due t d ∧ s' = s₁.switch d) := by
  obtain ⟨hexited, fuel, hrun⟩ := hstep
  obtain ⟨hperform, hclock⟩ := State.perform_of_run hrun
  obtain hcreate | hfinish | ⟨s₀, t, s₁, d, hprepared, hrest⟩ := perform_cases h hexited hperform
  · exact Or.inl hcreate
  · exact Or.inr (Or.inl hfinish)
  · exact Or.inr (Or.inr ⟨s₀, t, fuel, s₁, d, hprepared, hclock s₀ t hprepared, hrest⟩)

theorem Linked.switch {s : State} {d : Nat} {l : List Nat} (h : Linked s d l) :
    Linked (s.switch d) d l := by
  have hthread : ∀ j, (s.switch d).thread j =
      { s.thread j with ctx := ((s.switch d).thread j).ctx } := by
    intro j
    by_cases hj : j = s.cur
    · subst j
      simp [State.switch, State.modify]
    · simp [State.switch, State.modify, hj]
  refine h.of_eq ?_ ?_ rfl rfl rfl fun j hj => ?_
  · exact funext fun j => by rw [State.next, hthread j]; rfl
  · exact funext fun j => by rw [State.prev, hthread j]; rfl
  · rwa [hthread j] at hj

/-- A return hands control to the context that `uc_link` points to. -/
theorem State.running_uThreadReturn (s : State) :
    s.uThreadReturn.running = (s.thread (s.thread s.running.owner).link).ctx := by
  have hctx : ∀ j, ((s.modify s.running.owner ({ · with finished := true })).thread j).ctx =
      (s.thread j).ctx := by
    intro j
    by_cases hj : j = s.running.owner <;> simp [modify, hj]
  have hlink : ((s.modify s.running.owner ({ · with finished := true })).thread
      s.running.owner).link = (s.thread s.running.owner).link := by
    simp [modify]
  rw [← hctx, ← hlink]
  rfl

theorem Linked.finish {s : State} {p : Nat} {l : List Nat} (h : Linked s p l) :
    Linked s.uThreadReturn p l := by
  refine h.of_eq ?_ ?_ rfl rfl rfl fun j hj => ?_
  · exact s.next_modify_of_eq s.running.owner (f := ({ · with finished := true })) rfl
  · exact s.prev_modify_of_eq s.running.owner (f := ({ · with finished := true })) rfl
  · by_cases hj' : j = s.running.owner
    · subst j
      simp [State.uThreadReturn, State.modify] at hj
    · simpa [State.uThreadReturn, State.modify, hj'] using hj

/-- The threads are linked in every reachable state. -/
theorem linked {ok : State → Call → Prop} {s : State} (hs : Reaches ok s) :
    ∃ l, Linked s s.cur l := by
  refine hs.induction (I := fun s => ∃ l, Linked s s.cur l)
    (fun sleepUntil clock => ⟨[0], .init sleepUntil clock⟩) ?_
  rintro s c s' ⟨l, h⟩ - hstep
  obtain ⟨ok, -, rfl⟩ | ⟨-, -, rfl⟩ | ⟨s₀, t, fuel, s₁, d, -, -, -, hkept, -, ⟨l', h₁⟩, hend⟩ :=
    step_cases h hstep
  · have hcall : Linked (s.call false) s.cur l := h.of_eq rfl rfl rfl rfl rfl fun _ => id
    cases ok with
    | false => exact ⟨l, hcall.of_eq rfl rfl rfl rfl rfl fun _ => id⟩
    | true => exact ⟨_, hcall.create⟩
  · exact ⟨l, h.finish⟩
  · obtain ⟨rfl, rfl⟩ | ⟨-, -, rfl⟩ := hend
    · exact ⟨l', hkept.cur ▸ h₁⟩
    · exact ⟨l', h₁.switch⟩

end UThread
end OperatingSystems
