import OperatingSystems.UThread.Sleep

/-!
# The ring of green threads and their stacks

`u_thread_scheduler` unmaps the stack of every finished thread that its walk takes off the ring.
The calls of `munmap` are recorded here beside the loop, also those of a call that has not
returned; no assumption is made on the clock.

* `State.unmaps` — the threads whose stacks a call unmaps.
* `Performs` — the states of all runs, with the stacks that were unmapped so far.
* `ringIntegrity` — the ring is in order in all of them, and a stack is unmapped at most once,
  when its thread has finished, by code that runs on another stack.
-/

namespace OperatingSystems
namespace UThread

namespace State

/-- The threads that the loop of `u_thread_scheduler` hands to `munmap`, up to where the fuel
runs out. -/
def schedulerUnmaps (t : Int) : Nat → State → Nat → List Nat
  | 0, _, _ => []
  | fuel + 1, s, cur =>
      let cur := s.next cur
      if (s.thread cur).finished = true ∧ cur ≠ s.head then
        let toDelete := cur
        let cur := s.next cur
        let s := s.unlink toDelete
        toDelete ::
          if s.count = 0 then []
          else if cur ≠ s.cur then schedulerUnmaps t fuel s cur
          else []
      else if (s.thread cur).finished = false ∧ (s.thread cur).sleepUntil ≤ t then []
      else if cur ≠ s.cur then schedulerUnmaps t fuel s cur
      else []

/-- The threads that a call hands to `munmap`. -/
def unmaps (fuel : Nat) (s : State) (c : Call) : List Nat :=
  match s.prepared c with
  | none => []
  | some (s₀, t) => schedulerUnmaps t fuel { s₀ with clock := t } s.cur

end State

/-- One call of `munmap`: the thread whose stack it is, and the code that makes the call. -/
structure Unmap where
  thread : Nat
  caller : Cont

/-- The calls of `munmap` that a call makes. -/
def State.unmapCalls (fuel : Nat) (s : State) (c : Call) : List Unmap :=
  (s.unmaps fuel c).map fun y => ⟨y, s.running⟩

/-- The states of all runs, with the calls of `munmap` so far. -/
inductive Performs : State → List Unmap → Prop
  | start (sleepUntil clock : Int) : Performs (initThread sleepUntil clock) []
  | step {s s' : State} {done : List Unmap} {fuel : Nat} {c : Call} : Performs s done →
      s.exited = false → s.perform fuel c = some s' → Performs s' (done ++ s.unmapCalls fuel c)

/-! ### One walk -/

/-- A write that leaves the stack alone. -/
theorem State.mapped_modify (s : State) (i j : Nat) {f : Thread → Thread}
    (hf : ∀ t : Thread, (f t).mapped = t.mapped) :
    ((s.modify i f).thread j).mapped = (s.thread j).mapped := by
  by_cases hji : j = i
  · subst hji
    simp [modify, hf]
  · simp [modify, hji]

theorem State.mapped_unlink (s : State) (y j : Nat) :
    ((s.unlink y).thread j).mapped = if j = y then false else (s.thread j).mapped := by
  let s₁ := s.modify (s.prev y) ({ · with next := s.next y })
  let s₂ := s₁.modify (s₁.next y) ({ · with prev := s₁.prev y })
  have hthread : (s.unlink y).thread = (s₂.modify y ({ · with mapped := false })).thread := by
    unfold unlink
    simp only
    split <;> rfl
  rw [hthread]
  by_cases hj : j = y
  · simp [modify, hj]
  · rw [if_neg hj, show ((s₂.modify y ({ · with mapped := false })).thread j) = s₂.thread j from
      Function.update_of_ne hj ..]
    exact (s₁.mapped_modify _ j (f := ({ · with prev := s₁.prev y })) fun _ => rfl).trans
      (s.mapped_modify _ j (f := ({ · with next := s.next y })) fun _ => rfl)

/-- What one turn of the loop hands to `munmap`. -/
theorem schedulerUnmaps_succ {s : State} {p y : Nat} {l : List Nat} (h : Linked s p (y :: l))
    (t : Int) (fuel : Nat) :
    ((s.thread y).finished = true ∧ y ≠ s.head ∧ ∃ z l', l = z :: l' ∧
      Relinked s (s.unlink y) ∧ Linked (s.unlink y) z (l' ++ [z]) ∧
      s.schedulerLoop t (fuel + 1) p =
        (if z = s.cur then some (s.unlink y, z) else (s.unlink y).schedulerLoop t fuel z) ∧
      s.schedulerUnmaps t (fuel + 1) p =
        y :: if z = s.cur then [] else (s.unlink y).schedulerUnmaps t fuel z) ∨
    (Linked s y (l ++ [y]) ∧
      s.schedulerLoop t (fuel + 1) p =
        (if s.Due t y ∨ y = s.cur then some (s, y) else s.schedulerLoop t fuel y) ∧
      s.schedulerUnmaps t (fuel + 1) p =
        if s.Due t y ∨ y = s.cur then [] else s.schedulerUnmaps t fuel y) := by
  obtain ⟨hfinished, hhead, z, l', rfl, hsame, hlinked, hturn⟩ | ⟨hstays, hlinked, hturn⟩ :=
    schedulerLoop_succ h t fuel
  · left
    refine ⟨hfinished, hhead, z, l', rfl, hsame, hlinked, hturn, ?_⟩
    have hnext : s.next y = z := h.rotate.next_eq
    have hcount : (s.unlink y).count ≠ 0 := by
      rw [hlinked.count_eq, List.length_append, List.length_singleton]
      omega
    have hcur : (s.unlink y).cur = s.cur := by rw [hsame.rest]
    simp only [State.schedulerUnmaps, h.next_eq, hnext]
    rw [if_pos ⟨hfinished, hhead⟩, if_neg hcount, hcur, ite_not]
  · right
    refine ⟨hlinked, hturn, ?_⟩
    simp only [State.schedulerUnmaps, h.next_eq]
    rw [if_neg hstays]
    change (if s.Due t y then _ else _) = _
    by_cases hdue : s.Due t y
    · rw [if_pos hdue, if_pos (Or.inl hdue)]
    · rw [if_neg hdue, ite_not]
      simp only [hdue, false_or]

/-- The walk unmaps the stacks of finished threads of the ring, each once, and leaves none of
them on the ring. -/
structure Walked (s : State) (l : List Nat) (done : List Nat) : Prop where
  nodup : done.Nodup
  mem : ∀ y ∈ done, y ∈ l ∧ (s.thread y).finished = true

/-- The state behind the walk. -/
structure WalkedTo (s : State) (l : List Nat) (done : List Nat) (s' : State) (c : Nat) : Prop where
  linked : ∃ l', Linked s' c l' ∧ ∀ j ∈ l', j ∈ l ∧ j ∉ done
  mapped : ∀ j, (s'.thread j).mapped = if j ∈ done then false else (s.thread j).mapped

theorem schedulerUnmaps_spec {s : State} {p : Nat} {l : List Nat} (t : Int) (fuel : Nat)
    (h : Linked s p l) :
    Walked s l (s.schedulerUnmaps t fuel p) ∧
      ∀ s' c, s.schedulerLoop t fuel p = some (s', c) →
        WalkedTo s l (s.schedulerUnmaps t fuel p) s' c := by
  -- By the turns of the loop: each either takes `y` off the ring or walks on over it.
  induction fuel generalizing s p l with
  | zero =>
      refine ⟨⟨List.nodup_nil, fun y hy => absurd hy List.not_mem_nil⟩, fun s' c hloop => ?_⟩
      simp [State.schedulerLoop] at hloop
  | succ fuel ih =>
      cases l with
      | nil => exact absurd h.head_mem List.not_mem_nil
      | cons y l =>
          have hnodup := List.nodup_cons.mp h.ring.nodup
          obtain ⟨hfinished, -, z, l', rfl, hsame, hlinked, hloop, hunmaps⟩ |
            ⟨hlinked, hloop, hunmaps⟩ := schedulerUnmaps_succ h t fuel
          · -- `y` is off the ring for the rest of the walk
            have hperm : (l' ++ [z]).Perm (z :: l') := List.perm_append_singleton z l'
            have hmem : ∀ j ∈ l' ++ [z], j ∈ y :: z :: l' ∧ j ≠ y := by
              intro j hj
              have hj' := hperm.mem_iff.mp hj
              refine ⟨List.mem_cons_of_mem y hj', ?_⟩
              rintro rfl
              exact hnodup.1 hj'
            rw [hunmaps, hloop]
            by_cases hback : z = s.cur
            · rw [if_pos hback, if_pos hback]
              refine ⟨⟨List.nodup_singleton y, ?_⟩, ?_⟩
              · intro i hi
                obtain rfl := List.mem_singleton.mp hi
                exact ⟨List.mem_cons_self, hfinished⟩
              · intro s' c heq
                obtain ⟨rfl, rfl⟩ := Prod.mk.inj (Option.some.inj heq)
                refine ⟨⟨_, hlinked, fun j hj => ⟨(hmem j hj).1, by simp [(hmem j hj).2]⟩⟩, ?_⟩
                intro j
                rw [s.mapped_unlink y j]
                simp
            · rw [if_neg hback, if_neg hback]
              obtain ⟨hwalk, hto⟩ := ih hlinked
              refine ⟨⟨List.nodup_cons.mpr ⟨?_, hwalk.nodup⟩, ?_⟩, ?_⟩
              · exact fun hy => (hmem y (hwalk.mem y hy).1).2 rfl
              · intro i hi
                rcases List.mem_cons.mp hi with rfl | hi
                · exact ⟨List.mem_cons_self, hfinished⟩
                · obtain ⟨hring, hdone⟩ := hwalk.mem i hi
                  exact ⟨(hmem i hring).1, hsame.finished i ▸ hdone⟩
              · intro s' c heq
                obtain ⟨⟨l'', hlinked', hrest⟩, hmapped⟩ := hto s' c heq
                refine ⟨⟨l'', hlinked', fun j hj => ?_⟩, fun j => ?_⟩
                · obtain ⟨hring, hdone⟩ := hrest j hj
                  exact ⟨(hmem j hring).1, by simp [(hmem j hring).2, hdone]⟩
                · rw [hmapped j, s.mapped_unlink y j]
                  by_cases hjy : j = y <;> simp [hjy]
          -- `y` stays, and the same ring is read from the next place on
          · have hperm : (l ++ [y]).Perm (y :: l) := List.perm_append_singleton y l
            rw [hunmaps, hloop]
            split
            · refine ⟨⟨List.nodup_nil, fun y hy => absurd hy List.not_mem_nil⟩, fun s' c heq => ?_⟩
              obtain ⟨rfl, rfl⟩ := Prod.mk.inj (Option.some.inj heq)
              exact ⟨⟨_, hlinked, fun j hj => ⟨hperm.mem_iff.mp hj, List.not_mem_nil⟩⟩, by simp⟩
            · obtain ⟨hwalk, hto⟩ := ih hlinked
              refine ⟨⟨hwalk.nodup, fun i hi => ?_⟩, fun s' c heq => ?_⟩
              · exact ⟨hperm.mem_iff.mp (hwalk.mem i hi).1, (hwalk.mem i hi).2⟩
              · obtain ⟨⟨l', hlinked', hrest⟩, hmapped⟩ := hto s' c heq
                refine ⟨⟨l', hlinked', fun j hj => ?_⟩, hmapped⟩
                exact ⟨hperm.mem_iff.mp (hrest j hj).1, (hrest j hj).2⟩

/-! ### All runs -/

/-- The running code is the code of a thread that has not finished. -/
theorem Runs.running_unfinished {s : State} (h : Runs s) :
    (s.thread s.running.owner).finished = false := by
  by_cases hmain : s.running.owner = 0
  · rw [hmain, h.unfinished]
  · obtain ⟨hcur, hunfinished⟩ := h.current hmain
    rw [← hcur, hunfinished]

/-- The stacks that were unmapped belong to finished threads which are off the ring. -/
structure Unmapped (s : State) (l : List Nat) (done : List Unmap) : Prop where
  nodup : (done.map Unmap.thread).Nodup
  off : ∀ u ∈ done, u.thread ∉ l
  created : ∀ u ∈ done, u.thread < s.created
  finished : ∀ u ∈ done, (s.thread u.thread).finished = true
  caller : ∀ u ∈ done, u.thread ≠ u.caller.owner
  mapped : ∀ j < s.created, (s.thread j).mapped = false ↔ j ∈ done.map Unmap.thread

/-- What a call unmaps, whether it has returned or not. -/
theorem unmaps_spec {s : State} {l : List Nat} (h : Linked s s.cur l) (fuel : Nat) (c : Call) :
    Walked s l (s.unmaps fuel c) := by
  unfold State.unmaps
  cases hprepared : s.prepared c with
  | none => exact ⟨List.nodup_nil, fun y hy => absurd hy List.not_mem_nil⟩
  | some ready =>
      obtain ⟨s₀, t⟩ := ready
      obtain ⟨hkept, hlinked⟩ := State.prepared_kept hprepared
      obtain ⟨hnodup, hmem⟩ := (schedulerUnmaps_spec t fuel ((hlinked h).clock t)).1
      exact ⟨hnodup, fun y hy => ⟨(hmem y hy).1, hkept.finished y ▸ (hmem y hy).2⟩⟩

theorem map_thread_append (done : List Unmap) (more : List Nat) (caller : Cont) :
    (done ++ more.map (Unmap.mk · caller)).map Unmap.thread = done.map Unmap.thread ++ more := by
  rw [List.map_append, List.map_map]
  exact congrArg (_ ++ ·) (List.map_id more)

/-- The calls of `munmap` with those of a call that is under way. -/
theorem Unmapped.append {s : State} {l : List Nat} {done : List Unmap} {more : List Nat}
    (h : Unmapped s l done) (hmore : Walked s l more) (hruns : Runs s) :
    ((done ++ more.map (Unmap.mk · s.running)).map Unmap.thread).Nodup ∧
      ∀ u ∈ done ++ more.map (Unmap.mk · s.running),
        (s.thread u.thread).finished = true ∧ u.thread ≠ u.caller.owner := by
  constructor
  · rw [map_thread_append, List.nodup_append]
    refine ⟨h.nodup, hmore.nodup, fun i hi j hj heq => ?_⟩
    obtain ⟨u, hu, rfl⟩ := List.mem_map.mp hi
    exact h.off u hu (heq ▸ (hmore.mem j hj).1)
  · intro u hu
    rcases List.mem_append.mp hu with hu | hu
    · exact ⟨h.finished u hu, h.caller u hu⟩
    · obtain ⟨y, hy, rfl⟩ := List.mem_map.mp hu
      refine ⟨(hmore.mem y hy).2, fun heq => ?_⟩
      have hunfinished := hruns.running_unfinished
      rw [← show y = s.running.owner from heq, (hmore.mem y hy).2] at hunfinished
      cases hunfinished

section Steps

variable {s : State} {l : List Nat} {done : List Unmap}

theorem Unmapped.create (h : Unmapped s l done) :
    Unmapped (s.uThreadCreate true) (s.created :: l) done := by
  have hold : ∀ j < s.created, s.withNew.thread j = s.thread j := fun j hj =>
    Function.update_of_ne hj.ne ..
  have hmapped : ∀ j, ((s.uThreadCreate true).thread j).mapped = (s.withNew.thread j).mapped := by
    intro j
    rw [s.create_thread]
    exact (State.mapped_modify _ _ j (f := ({ · with prev := s.created })) fun _ => rfl).trans
      (s.withNew.mapped_modify _ j (f := ({ · with next := s.created })) fun _ => rfl)
  refine ⟨h.nodup, fun u hu hmem => ?_, fun u hu => ?_, fun u hu => ?_, h.caller, fun j hj => ?_⟩
  · rcases List.mem_cons.mp hmem with heq | hmem
    · exact absurd (h.created u hu) (heq ▸ Nat.lt_irrefl _)
    · exact h.off u hu hmem
  · exact Nat.lt_succ_of_lt (h.created u hu)
  · rw [s.create_thread, (create_relinked s).finished, hold _ (h.created u hu)]
    exact h.finished u hu
  · rw [hmapped j]
    obtain hlt | rfl := Nat.lt_succ_iff_lt_or_eq.mp (show j < s.created + 1 from hj)
    · rw [hold j hlt]
      exact h.mapped j hlt
    · rw [show s.withNew.thread s.created = s.newThread from Function.update_self ..]
      refine ⟨fun hfalse => absurd hfalse (by simp [State.newThread]), fun hmem => ?_⟩
      obtain ⟨u, hu, heq⟩ := List.mem_map.mp hmem
      exact absurd (h.created u hu) (heq ▸ Nat.lt_irrefl _)

/-- Steps that leave the stacks and the finished threads as they are. -/
theorem Unmapped.of_eq {s' : State} (h : Unmapped s l done) (hcreated : s'.created = s.created)
    (hfinished : ∀ j, (s.thread j).finished = true → (s'.thread j).finished = true)
    (hmapped : ∀ j, (s'.thread j).mapped = (s.thread j).mapped) : Unmapped s' l done := by
  refine ⟨h.nodup, h.off, fun u hu => ?_, fun u hu => ?_, h.caller, fun j hj => ?_⟩
  · rw [hcreated]
    exact h.created u hu
  · exact hfinished _ (h.finished u hu)
  · rw [hmapped j]
    exact h.mapped j (hcreated ▸ hj)

theorem Unmapped.finish (h : Unmapped s l done) : Unmapped s.uThreadReturn l done := by
  refine h.of_eq rfl (fun j hj => ?_) fun j => ?_
  · by_cases hown : j = s.running.owner
    · simp [State.uThreadReturn, State.modify, hown]
    · simpa [State.uThreadReturn, State.modify, hown] using hj
  · exact s.mapped_modify s.running.owner j (f := ({ · with finished := true })) fun _ => rfl

theorem Unmapped.switch {d : Nat} (h : Unmapped s l done) : Unmapped (s.switch d) l done := by
  refine h.of_eq rfl (fun j hj => ?_) fun j => ?_
  · by_cases hcur : j = s.cur
    · simpa [State.switch, State.modify, hcur] using hcur ▸ hj
    · simpa [State.switch, State.modify, hcur] using hj
  · exact s.mapped_modify s.cur j (f := ({ · with ctx := ⟨s.running.owner, s.swaps + 1⟩ }))
      fun _ => rfl

/-- On its way to the scheduler a call leaves the stacks alone. -/
theorem State.mapped_prepared {s₀ : State} {c : Call} {t : Int}
    (h : s.prepared c = some (s₀, t)) (j : Nat) :
    (s₀.thread j).mapped = (s.thread j).mapped := by
  cases c with
  | create ok => simp [prepared] at h
  | finish => simp [prepared] at h
  | scheduler t' =>
      obtain ⟨rfl, -⟩ := Prod.mk.inj (Option.some.inj h)
      rfl
  | usleep usec now t' =>
      obtain ⟨rfl, -⟩ := Prod.mk.inj (Option.some.inj h)
      split
      · rfl
      · exact (s.call true).mapped_modify s.cur j (f := ({ · with sleepUntil := now + usec }))
          fun _ => rfl

/-- The walk of the scheduler, with the calls of `munmap` that it makes. -/
theorem Unmapped.walk {s' : State} {l' : List Nat} {more : List Nat} (h : Unmapped s l done)
    (hlinked : Linked s s.cur l) (hruns : Runs s) (hmore : Walked s l more) (hkept : Kept s s')
    (hrest : ∀ j ∈ l', j ∈ l ∧ j ∉ more)
    (hmapped : ∀ j, (s'.thread j).mapped = if j ∈ more then false else (s.thread j).mapped) :
    Unmapped s' l' (done ++ more.map (Unmap.mk · s.running)) := by
  obtain ⟨hnodup, hall⟩ := h.append hmore hruns
  refine ⟨hnodup, fun u hu hmem => ?_, fun u hu => ?_, fun u hu => ?_, fun u hu => (hall u hu).2,
    fun j hj => ?_⟩
  · rcases List.mem_append.mp hu with hu | hu
    · exact h.off u hu (hrest _ hmem).1
    · obtain ⟨y, hy, rfl⟩ := List.mem_map.mp hu
      exact (hrest _ hmem).2 hy
  · rw [hkept.created]
    rcases List.mem_append.mp hu with hu | hu
    · exact h.created u hu
    · obtain ⟨y, hy, rfl⟩ := List.mem_map.mp hu
      exact hlinked.lt_created y (hmore.mem y hy).1
  · rw [hkept.finished]
    exact (hall u hu).1
  · rw [hkept.created] at hj
    rw [hmapped j, map_thread_append, List.mem_append, ← h.mapped j hj]
    by_cases hj' : j ∈ more <;> simp [hj']

end Steps

/-- What is kept along a run. -/
structure Tidy (s : State) (done : List Unmap) : Prop where
  runs : Runs s
  unmapped : ∃ l, Linked s s.cur l ∧ Unmapped s l done

theorem Tidy.init (sleepUntil clock : Int) : Tidy (initThread sleepUntil clock) [] := by
  refine ⟨.init sleepUntil clock, [0], .init sleepUntil clock, List.nodup_nil, ?_, ?_, ?_, ?_, ?_⟩
  · exact fun u hu => absurd hu List.not_mem_nil
  · exact fun u hu => absurd hu List.not_mem_nil
  · exact fun u hu => absurd hu List.not_mem_nil
  · exact fun u hu => absurd hu List.not_mem_nil
  · intro j _
    simp [initThread]

theorem Tidy.step {s s' : State} {done : List Unmap} {fuel : Nat} {c : Call} (h : Tidy s done)
    (hexited : s.exited = false) (hrun : s.perform fuel c = some s') :
    Tidy s' (done ++ s.unmapCalls fuel c) := by
  obtain ⟨l, hlinked, hunmapped⟩ := h.unmapped
  refine ⟨h.runs.perform hlinked hexited hrun, ?_⟩
  obtain ⟨ok, rfl, rfl⟩ | ⟨rfl, -, rfl⟩ |
    ⟨s₀, t, s₁, d, hprepared, hloop, hkept, -, -, hend⟩ := perform_cases hlinked hexited hrun
  · have hnone : s.unmapCalls fuel (.create ok) = [] := rfl
    rw [hnone, List.append_nil]
    have hcall : Linked (s.call false) s.cur l := hlinked.of_eq rfl rfl rfl rfl rfl fun _ => id
    have hcall' : Unmapped (s.call false) l done :=
      hunmapped.of_eq rfl (fun _ => id) fun _ => rfl
    cases ok with
    | false =>
        exact ⟨l, hcall.of_eq rfl rfl rfl rfl rfl fun _ => id,
          hcall'.of_eq rfl (fun _ => id) fun _ => rfl⟩
    | true => exact ⟨_, hcall.create, hcall'.create⟩
  · have hnone : s.unmapCalls fuel .finish = [] := rfl
    rw [hnone, List.append_nil]
    exact ⟨l, hlinked.finish, hunmapped.finish⟩
  · obtain ⟨hkept₀, hlinked₀⟩ := State.prepared_kept hprepared
    have hmore := unmaps_spec hlinked fuel c
    obtain ⟨⟨l', hlinked', hrest⟩, hmapped⟩ :=
      (schedulerUnmaps_spec t fuel ((hlinked₀ hlinked).clock t)).2 s₁ d hloop
    have hunmaps : State.schedulerUnmaps t fuel { s₀ with clock := t } s.cur = s.unmaps fuel c := by
      simp only [State.unmaps, hprepared]
    rw [hunmaps] at hrest hmapped
    have hwalk : Unmapped s₁ l' (done ++ s.unmapCalls fuel c) := by
      refine hunmapped.walk hlinked h.runs hmore hkept hrest fun j => ?_
      rw [hmapped j, State.mapped_prepared hprepared]
    obtain ⟨rfl, rfl⟩ | ⟨-, -, rfl⟩ := hend
    · exact ⟨l', hkept.cur ▸ hlinked', hwalk⟩
    · exact ⟨l', hlinked'.switch, hwalk.switch⟩

theorem tidy {s : State} {done : List Unmap} (h : Performs s done) : Tidy s done := by
  induction h with
  | start sleepUntil clock => exact .init sleepUntil clock
  | step _ hexited hrun ih => exact ih.step hexited hrun

/-- The threads that are linked from `mgr->head` form one ring that starts at the main thread
and holds every unfinished thread, `count` is its length, and the threads whose stacks were
unmapped are off it. -/
structure OneRing (s : State) (done : List Unmap) : Prop where
  head : s.head = 0
  ring : ∃ l, Ring s.next s.prev s.head l ∧ s.count = l.length ∧
    (∀ j ∈ l, s.prev (s.next j) = j ∧ s.next (s.prev j) = j) ∧
    (∀ j < s.created, (s.thread j).finished = false → j ∈ l) ∧
    ∀ u ∈ done, u.thread ∉ l
  mapped : ∀ j < s.created, (s.thread j).mapped = false ↔ j ∈ done.map Unmap.thread

/-- In every state of every run of `u_thread_create`, `u_thread_usleep`, `u_thread_scheduler` and
returning thread functions, whatever the clock says: the ring is in order; no stack was unmapped
twice, also by a call that is still under way; and every stack that was unmapped belongs to a
finished thread and was unmapped by code that does not run on it. -/
theorem ringIntegrity {s : State} {done : List Unmap} (h : Performs s done) :
    OneRing s done ∧
      ∀ fuel c, ((done ++ s.unmapCalls fuel c).map Unmap.thread).Nodup ∧
        (∀ u ∈ done ++ s.unmapCalls fuel c,
          (s.thread u.thread).finished = true ∧ u.thread ≠ u.caller.owner) ∧
        ∀ u ∈ done ++ s.unmapCalls fuel c, u.thread ≠ s.running.owner := by
  obtain ⟨hruns, l, hlinked, hunmapped⟩ := tidy h
  refine ⟨⟨hlinked.head_eq, ?_, hunmapped.mapped⟩, fun fuel c => ?_⟩
  · obtain ⟨l', hring, hperm⟩ := hlinked.ring.exists_rotate hlinked.head_mem
    refine ⟨l', hlinked.head_eq ▸ hring, ?_, fun j hj => hring.inverse hj, fun j hj hfinished => ?_,
      fun u hu hmem => ?_⟩
    · rw [hlinked.count_eq, hperm.length_eq]
    · exact hperm.mem_iff.mpr (hlinked.unfinished_mem j hj hfinished)
    · exact hunmapped.off u hu (hperm.mem_iff.mp hmem)
  · obtain ⟨hnodup, hall⟩ := hunmapped.append (unmaps_spec hlinked fuel c) hruns
    refine ⟨hnodup, hall, fun u hu heq => ?_⟩
    have hfinished := (hall u hu).1
    rw [heq, hruns.running_unfinished] at hfinished
    cases hfinished

/-- A list of calls, with the calls of `munmap` that they make. -/
def performCalls (fuel : Nat) (s : State) (done : List Unmap) :
    List Call → Option (State × List Unmap)
  | [] => some (s, done)
  | c :: calls =>
      if s.exited then none
      else
        match s.perform fuel c with
        | none => none
        | some s' => performCalls fuel s' (done ++ s.unmapCalls fuel c) calls

theorem Performs.performCalls {fuel : Nat} {s : State} {done : List Unmap} {calls : List Call}
    {end_ : State × List Unmap} (hs : Performs s done)
    (hrun : performCalls fuel s done calls = some end_) : Performs end_.1 end_.2 := by
  induction calls generalizing s done with
  | nil =>
      obtain rfl := Option.some.inj hrun
      exact hs
  | cons c calls ih =>
      simp only [UThread.performCalls] at hrun
      split at hrun
      · cases hrun
      · next hexited =>
        cases hperform : s.perform fuel c with
        | none => simp [hperform] at hrun
        | some next =>
            rw [hperform] at hrun
            exact ih (.step hs (Bool.not_eq_true _ ▸ hexited) hperform) hrun

/-- Two threads, the first of which to run returns at once; a later walk of the scheduler takes
it off the ring. -/
theorem ringIntegrity_returned :
    ∃ s u, Performs s [u] ∧ u.thread = 2 ∧ u.caller.owner = 0 ∧ s.running.owner = 0 ∧
      OneRing s [u] := by
  have hcalls : (performCalls 10 (initThread 0 0) [] [.create true, .create true, .scheduler 1,
      .finish, .scheduler 2, .scheduler 3, .scheduler 4]).any (fun r =>
        r.2.map Unmap.thread = [2] ∧ r.2.map (·.caller.owner) = [0] ∧ r.1.running.owner = 0) =
      true := by
    decide +kernel
  obtain ⟨⟨s, done⟩, hrun, hgoal⟩ := (Option.any_eq_true _ _).mp hcalls
  obtain ⟨hthread, hcaller, hrunning⟩ := of_decide_eq_true hgoal
  have hperforms := (Performs.start 0 0).performCalls hrun
  obtain ⟨u, rfl⟩ : ∃ u, done = [u] := by
    have hlength := congrArg List.length hthread
    rw [List.length_map] at hlength
    exact List.length_eq_one_iff.mp hlength
  exact ⟨s, u, hperforms, by simpa using hthread, by simpa using hcaller, hrunning,
    (ringIntegrity hperforms).1⟩

end UThread
end OperatingSystems
