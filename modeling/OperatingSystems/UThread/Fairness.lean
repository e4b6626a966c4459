import Mathlib.Data.Finset.Card
import OperatingSystems.UThread.RoundRobin

/-!
# No starvation

The walk of the scheduler may pass over a thread that is due, behind a finished one; but then the
finished thread is off the ring.

* `State.rank` — how far a thread is from its turn.
* `schedulerLoop_rank` — the walk brings every thread nearer that it does not end at.
* `noStarvation` — how often the scheduler can pass over a thread that is due.
-/

namespace OperatingSystems
namespace UThread

open Sweep

variable {s s' : State} {d m p : Nat} {l : List Nat}

/-- The place of `d` on the ring, and `m` for each finished thread that is still on it. -/
def State.rank (s : State) (d m : Nat) (l : List Nat) : Nat :=
  l.idxOf d + m * l.countP fun y => s.Gone y

/-- The threads that have finished. -/
def State.done (s : State) : Finset Nat :=
  (Finset.range s.created).filter fun j => (s.thread j).finished = true

/-- The call reaches the scheduler. -/
def Call.schedules : Call → Bool
  | .usleep .. | .scheduler _ => true
  | _ => false

/-- The calls of a run in which every call of the scheduler finds thread `d` due and does not go on
with it. -/
inductive PassesOver (d : Nat) (s : State) : List Call → State → Prop
  | start : PassesOver d s [] s
  | step {s' s'' : State} {calls : List Call} {fuel : Nat} {c : Call} : PassesOver d s calls s' →
      s'.perform fuel c = some s'' →
      (∀ s₀ t, s'.prepared c = some (s₀, t) → s₀.Due t d ∧ s''.cur ≠ d) →
      PassesOver d s (calls ++ [c]) s''

/-! ### One walk -/

theorem rank_congr (hfinished : ∀ j, (s'.thread j).finished = (s.thread j).finished)
    (hhead : s'.head = s.head) (d m : Nat) (l : List Nat) : s'.rank d m l = s.rank d m l := by
  have hgone : ∀ y, s'.Gone y ↔ s.Gone y := by
    intro y
    rw [State.Gone, State.Gone, hfinished, hhead]
  simp only [State.rank, hgone]

theorem Relinked.rank_eq (h : Relinked s s') (d m : Nat) (l : List Nat) :
    s'.rank d m l = s.rank d m l :=
  rank_congr h.finished (by rw [h.rest]) d m l

/-- A finished thread is taken off: `d` may be passed over. -/
theorem rank_of_gone {y z : Nat} (hy : s.Gone y) (hd : d ∈ z :: l)
    (hm : (y :: z :: l).length ≤ m) : s.rank d m (l ++ [z]) < s.rank d m (y :: z :: l) := by
  have hperm : (l ++ [z]).Perm (z :: l) := List.perm_append_singleton z l
  have hidx : (l ++ [z]).idxOf d < m := by
    have hlt := List.idxOf_lt_length_of_mem (hperm.mem_iff.mpr hd)
    simp only [List.length_append, List.length_cons, List.length_nil] at hlt hm
    omega
  have hcount : ((y :: z :: l).countP fun y => s.Gone y) =
      ((l ++ [z]).countP fun y => s.Gone y) + 1 := by
    rw [List.countP_cons_of_pos (by simpa using hy), hperm.countP_eq]
  rw [State.rank, State.rank, hcount, Nat.mul_add_one]
  omega

theorem rank_of_stays {y : Nat} (hyd : y ≠ d) (hd : d ∈ l) :
    s.rank d m (l ++ [y]) < s.rank d m (y :: l) := by
  have hcount : ((y :: l).countP fun y => s.Gone y) = (l ++ [y]).countP fun y => s.Gone y :=
    (List.perm_append_singleton y l).symm.countP_eq _
  rw [State.rank, State.rank, hcount, idxOf_of_stays hyd hd]
  omega

/-- The walk brings `d` nearer to its turn, if it does not end there. -/
theorem schedulerLoop_rank {c fuel : Nat} {t : Int} (h : Linked s p l) (hm : l.length ≤ m)
    (hd : d < s.created) (hdue : s.Due t d) (hloop : s.schedulerLoop t fuel p = some (s', c))
    (hc : c ≠ d) : ∃ l', Linked s' c l' ∧ s'.rank d m l' < s.rank d m l := by
  induction fuel generalizing s p l with
  | zero => simp [State.schedulerLoop] at hloop
  | succ fuel ih =>
      have hmem := h.unfinished_mem d hd hdue.1
      cases l with
      | nil => simp at hmem
      | cons y l =>
          obtain ⟨hfinished, hhead, z, k, rfl, hsame, hlinked, hturn⟩ | ⟨-, hlinked, hturn⟩ :=
            schedulerLoop_succ h t fuel
          -- Whether or not the walk passes over `d`, one finished thread less is on the ring.
          · have hyd : y ≠ d := by
              rintro rfl
              rw [hdue.1] at hfinished
              cases hfinished
            have hmem' : d ∈ z :: k := (List.mem_cons.mp hmem).resolve_left hyd.symm
            have hlt := rank_of_gone (s := s) ⟨hfinished, hhead⟩ hmem' hm
            rw [← hsame.rank_eq] at hlt
            rw [hturn] at hloop
            split at hloop
            · obtain ⟨rfl, rfl⟩ := Prod.mk.inj (Option.some.inj hloop)
              exact ⟨_, hlinked, hlt⟩
            · have hlength : (k ++ [z]).length ≤ m := by
                simp only [List.length_append, List.length_cons, List.length_nil] at hm ⊢
                omega
              have hd' : d < (s.unlink y).created := by
                rw [hsame.rest]
                exact hd
              obtain ⟨l', hlinked', hlt'⟩ :=
                ih hlinked hlength hd' ((hsame.due_iff t d).mpr hdue) hloop
              exact ⟨l', hlinked', hlt'.trans hlt⟩
          · rw [hturn] at hloop
            split at hloop
            · next hend =>
              obtain ⟨rfl, rfl⟩ := Prod.mk.inj (Option.some.inj hloop)
              exact ⟨_, hlinked,
                rank_of_stays hc ((List.mem_cons.mp hmem).resolve_left hc.symm)⟩
            · next hgoes =>
              have hyd : y ≠ d := by
                rintro rfl
                exact hgoes (.inl hdue)
              have hlt := rank_of_stays (s := s) (m := m) hyd
                ((List.mem_cons.mp hmem).resolve_left hyd.symm)
              have hlength : (l ++ [y]).length ≤ m := by simpa using hm
              obtain ⟨l', hlinked', hlt'⟩ := ih hlinked hlength hd hdue hloop
              exact ⟨l', hlinked', hlt'.trans hlt⟩

/-! ### One call -/

theorem card_done_congr (hfinished : ∀ j, (s'.thread j).finished = (s.thread j).finished)
    (hcreated : s'.created = s.created) : s'.done.card = s.done.card := by
  simp only [State.done, hfinished, hcreated]

/-- The finished threads on the ring. -/
theorem countP_gone_le (h : Linked s p l) : (l.countP fun y => s.Gone y) ≤ s.done.card := by
  rw [List.countP_eq_length_filter, ← List.toFinset_card_of_nodup (h.ring.nodup.filter _)]
  refine Finset.card_le_card fun y hy => ?_
  obtain ⟨hyl, hgone⟩ := List.mem_filter.mp (List.mem_toFinset.mp hy)
  exact Finset.mem_filter.mpr ⟨Finset.mem_range.mpr (h.lt_created y hyl),
    (of_decide_eq_true hgone).1⟩

/-- `d` waits behind one thread more. -/
theorem rank_create (h : Linked s s.cur l) (hd : d < s.created) :
    (s.uThreadCreate true).rank d m (s.created :: l) ≤ s.rank d m l + 1 ∧
      (s.uThreadCreate true).done = s.done := by
  have hfinished : ∀ j, ((s.uThreadCreate true).thread j).finished =
      (s.withNew.thread j).finished := fun j => by
    rw [s.create_thread]
    exact (create_relinked s).finished j
  have hold : ∀ j, j ≠ s.created →
      ((s.uThreadCreate true).thread j).finished = (s.thread j).finished := fun j hj => by
    simp [hfinished, State.withNew, hj]
  have hnew : ((s.uThreadCreate true).thread s.created).finished = false := by
    simp [hfinished, State.withNew, State.newThread]
  have hcount : (l.countP fun y => (s.uThreadCreate true).Gone y) =
      l.countP fun y => s.Gone y := by
    refine List.countP_congr fun y hy => ?_
    have hne : y ≠ s.created := (h.lt_created y hy).ne
    simp only [State.Gone, hold y hne]
    exact Iff.rfl
  refine ⟨?_, ?_⟩
  · have hnone : ¬ (s.uThreadCreate true).Gone s.created := fun hgone => by
      rw [hgone.1] at hnew
      cases hnew
    rw [State.rank, State.rank, List.countP_cons_of_neg (by simpa using hnone), hcount,
      List.idxOf_cons_ne _ hd.ne']
    omega
  · ext j
    have hcreated : (s.uThreadCreate true).created = s.created + 1 := rfl
    rw [State.done, State.done, Finset.mem_filter, Finset.mem_filter, Finset.mem_range,
      Finset.mem_range, hcreated]
    by_cases hj : j = s.created
    · subst hj
      simp [hnew]
    · rw [hold j hj]
      have hlt : j < s.created + 1 ↔ j < s.created := by omega
      rw [hlt]

/-- One finished thread more is on the ring. -/
theorem rank_finish (h : Linked s s.cur l) (howner : s.running.owner ∈ l)
    (hunfinished : (s.thread s.running.owner).finished = false) :
    s.uThreadReturn.rank d m l ≤ s.rank d m l + m ∧
      s.uThreadReturn.done.card = s.done.card + 1 := by
  have hold : ∀ j, j ≠ s.running.owner →
      (s.uThreadReturn.thread j).finished = (s.thread j).finished := fun j hj => by
    simp [State.uThreadReturn, State.modify, hj]
  have hself : (s.uThreadReturn.thread s.running.owner).finished = true := by
    simp [State.uThreadReturn, State.modify]
  constructor
  · have hnodup := h.ring.nodup
    have hperm := List.perm_cons_erase howner
    have hothers : ((l.erase s.running.owner).countP fun y => s.uThreadReturn.Gone y) ≤
        (l.erase s.running.owner).countP fun y => s.Gone y := by
      refine List.countP_mono_left fun y hy hgone => ?_
      have hne : y ≠ s.running.owner := (hnodup.mem_erase_iff.mp hy).1
      simp only [State.Gone, hold y hne] at hgone
      exact hgone
    have hcount : (l.countP fun y => s.uThreadReturn.Gone y) ≤
        (l.countP fun y => s.Gone y) + 1 := by
      rw [hperm.countP_eq, hperm.countP_eq, List.countP_cons, List.countP_cons]
      split <;> split <;> omega
    have hmul := Nat.mul_le_mul_left m hcount
    rw [Nat.mul_add_one] at hmul
    rw [State.rank, State.rank]
    omega
  · have hdone : s.uThreadReturn.done = insert s.running.owner s.done := by
      ext j
      rw [State.done, Finset.mem_insert, State.done, Finset.mem_filter, Finset.mem_filter,
        Finset.mem_range, Finset.mem_range]
      by_cases hj : j = s.running.owner
      · subst hj
        have hcreated : s.running.owner < s.uThreadReturn.created := h.lt_created _ howner
        simp [hself, hcreated]
      · rw [hold j hj]
        simp only [hj, false_or]
        exact Iff.rfl
    rw [hdone, Finset.card_insert_of_notMem]
    simp [State.done, hunfinished]

theorem length_le_created (h : Linked s p l) : l.length ≤ s.created := by
  have hsubset : l.toFinset ⊆ Finset.range s.created := fun y hy =>
    Finset.mem_range.mpr (h.lt_created y (List.mem_toFinset.mp hy))
  have hcard := Finset.card_le_card hsubset
  rwa [List.toFinset_card_of_nodup h.ring.nodup, Finset.card_range] at hcard

theorem finished_switch (s : State) (c j : Nat) :
    ((s.switch c).thread j).finished = (s.thread j).finished := by
  by_cases hj : j = s.cur
  · subst hj
    simp [State.switch, State.modify]
  · simp [State.switch, State.modify, hj]

/-- A call of the scheduler brings `d` nearer to its turn, if it does not go on with it. -/
theorem rank_schedule {s₀ s₁ : State} {c : Call} {e fuel : Nat} {t : Int} (h : Linked s s.cur l)
    (hprepared : s.prepared c = some (s₀, t)) (hm : s.created ≤ m) (hd : d < s.created)
    (hdue : s₀.Due t d)
    (hloop : State.schedulerLoop t fuel { s₀ with clock := t } s.cur = some (s₁, e))
    (he : e ≠ d) : ∃ l', Linked s₁ e l' ∧ s₁.rank d m l' < s.rank d m l := by
  obtain ⟨hkept, hlinked⟩ := State.prepared_kept hprepared
  have hready : Linked { s₀ with clock := t } s.cur l := (hlinked h).clock t
  have hd' : d < s₀.created := by
    rw [hkept.created]
    exact hd
  obtain ⟨l', hlinked', hlt⟩ :=
    schedulerLoop_rank hready ((length_le_created h).trans hm) hd' hdue hloop he
  have hsame : State.rank { s₀ with clock := t } d m l = s.rank d m l :=
    rank_congr hkept.finished (hready.head_eq.trans h.head_eq.symm) d m l
  exact ⟨l', hlinked', hsame ▸ hlt⟩

theorem created_le_of_perform {c : Call} {fuel : Nat} (h : Linked s s.cur l)
    (hexited : s.exited = false) (hrun : s.perform fuel c = some s') : s.created ≤ s'.created := by
  obtain ⟨ok, -, rfl⟩ | ⟨-, -, rfl⟩ | ⟨s₀, t, s₁, e, -, -, hkept, -, -, hend⟩ :=
    perform_cases h hexited hrun
  · cases ok with
    | false => exact le_rfl
    | true => exact Nat.le_succ _
  · exact le_rfl
  · obtain ⟨-, rfl⟩ | ⟨-, -, rfl⟩ := hend
    · exact hkept.created.ge
    · exact hkept.created.ge

/-- What a call does to the rank: a call of the scheduler lowers it, a new thread raises it by one
and a thread that finishes by `m`. -/
theorem rank_perform {c : Call} {fuel : Nat} {done : List Unmap} (h : Performs s done)
    (hlinked : Linked s s.cur l) (hm : s.created ≤ m) (hd : d < s.created)
    (hrun : s.perform fuel c = some s')
    (hdue : ∀ s₀ t, s.prepared c = some (s₀, t) → s₀.Due t d ∧ s'.cur ≠ d) :
    ∃ l', Linked s' s'.cur l' ∧
      s'.rank d m l' + (if c.schedules then 1 else 0) + (s.created + m * s.done.card) ≤
        s.rank d m l + (s'.created + m * s'.done.card) := by
  obtain ⟨hruns, -⟩ := tidy h
  obtain ⟨ok, rfl, rfl⟩ | ⟨rfl, howner, rfl⟩ |
    ⟨s₀, t, s₁, e, hprepared, hloop, hkept, -, -, hend⟩ :=
      perform_cases hlinked (exited_eq_false h) hrun
  · have hcall : Linked (s.call false) s.cur l := hlinked.of_eq rfl rfl rfl rfl rfl fun _ => id
    cases ok with
    | false => exact ⟨l, hcall.of_eq rfl rfl rfl rfl rfl fun _ => id, le_rfl⟩
    | true =>
        obtain ⟨hrank, hdone⟩ := rank_create (m := m) hcall hd
        refine ⟨_, hcall.create, ?_⟩
        have hcreated : ((s.call false).uThreadCreate true).created = s.created + 1 := rfl
        have hsame : (s.call false).rank d m l = s.rank d m l := rfl
        have hdone' : (s.call false).done = s.done := rfl
        rw [hdone, hdone', hcreated]
        rw [hsame] at hrank
        simp only [Call.schedules, Bool.false_eq_true, if_false]
        omega
  · obtain ⟨hcur, hunfinished⟩ := hruns.current howner
    have hmem : s.running.owner ∈ l := hcur ▸ hlinked.ring.self_mem
    obtain ⟨hrank, hdone⟩ := rank_finish (d := d) (m := m) hlinked hmem (hcur ▸ hunfinished)
    refine ⟨l, hlinked.finish, ?_⟩
    have hcreated : s.uThreadReturn.created = s.created := rfl
    rw [hdone, hcreated, Nat.mul_add_one]
    simp only [Call.schedules, Bool.false_eq_true, if_false]
    omega
  · obtain ⟨hready, hne⟩ := hdue s₀ t hprepared
    have hdone : s₁.done.card = s.done.card := card_done_congr hkept.finished hkept.created
    have hcreated := hkept.created
    obtain ⟨rfl, rfl⟩ | ⟨-, -, rfl⟩ := hend
    · obtain ⟨l', hlinked', hlt⟩ := rank_schedule hlinked hprepared hm hd hready hloop
        (hkept.cur ▸ hne)
      refine ⟨l', hkept.cur ▸ hlinked', ?_⟩
      rw [hdone, hcreated]
      split <;> omega
    · obtain ⟨l', hlinked', hlt⟩ := rank_schedule hlinked hprepared hm hd hready hloop hne
      refine ⟨l', hlinked'.switch, ?_⟩
      have hrank : (s₁.switch e).rank d m l' = s₁.rank d m l' :=
        rank_congr (finished_switch s₁ e) rfl d m l'
      have hdone' : (s₁.switch e).done.card = s₁.done.card :=
        card_done_congr (finished_switch s₁ e) rfl
      rw [hrank, hdone', hdone, show (s₁.switch e).created = s₁.created from rfl, hcreated]
      split <;> omega

/-! ### Runs -/

theorem PassesOver.performs {calls : List Call} {done : List Unmap} (h : Performs s done)
    (hpasses : PassesOver d s calls s') : ∃ done', Performs s' done' := by
  induction hpasses with
  | start => exact ⟨done, h⟩
  | step _ hrun _ ih =>
      obtain ⟨done', hs'⟩ := ih
      exact ⟨_, .step hs' (exited_eq_false hs') hrun⟩

/-- A thread that is passed over comes nearer, whatever is created and finishes in between. -/
theorem rank_of_passesOver {calls : List Call} {done : List Unmap} (h : Performs s done)
    (hd : d < s.created) (hpasses : PassesOver d s calls s') (hm : s'.created ≤ m) :
    s.created ≤ s'.created ∧ ∃ l, Linked s' s'.cur l ∧
      s'.rank d m l + calls.countP Call.schedules ≤ s'.created + m * s'.done.card := by
  induction hpasses with
  | start =>
      obtain ⟨-, l, hlinked, -⟩ := tidy h
      refine ⟨le_rfl, l, hlinked, ?_⟩
      have hidx : l.idxOf d ≤ l.length := List.idxOf_le_length
      have hlength := length_le_created hlinked
      have hgone := Nat.mul_le_mul_left m (countP_gone_le hlinked)
      rw [List.countP_nil, State.rank]
      omega
  | @step s' s'' calls fuel c hpasses hrun hdue ih =>
      obtain ⟨done', hs'⟩ := hpasses.performs h
      have hmono : s'.created ≤ s''.created := by
        obtain ⟨-, l, hlinked, -⟩ := tidy hs'
        exact created_le_of_perform hlinked (exited_eq_false hs') hrun
      obtain ⟨hle, l, hlinked, hrank⟩ := ih (hmono.trans hm)
      obtain ⟨l', hlinked', hrank'⟩ :=
        rank_perform hs' hlinked (hmono.trans hm) (hd.trans_le hle) hrun hdue
      refine ⟨hle.trans hmono, l', hlinked', ?_⟩
      rw [List.countP_append, List.countP_singleton]
      omega

/-- No thread starves: while a thread is due whenever the scheduler is entered, every call of the
scheduler comes back, and at most `n * (1 + f)` of them go on with another thread, when `n` threads
have been created and `f` have finished by then. -/
theorem noStarvation {calls : List Call} {done : List Unmap} (h : Performs s done)
    (hd : d < s.created) (hpasses : PassesOver d s calls s') :
    calls.countP Call.schedules ≤ s'.created * (1 + s'.done.card) ∧
      ∀ c s₀ t, s'.prepared c = some (s₀, t) → s₀.Due t d →
        ∃ fuel s'', s'.perform fuel c = some s'' := by
  obtain ⟨hle, l, hlinked, hrank⟩ := rank_of_passesOver h hd hpasses le_rfl
  refine ⟨by rw [Nat.mul_add, Nat.mul_one]; omega, fun c s₀ t hprepared hdue => ?_⟩
  obtain ⟨done', hs'⟩ := hpasses.performs h
  obtain ⟨k, henters⟩ := enters_prepared hs' hprepared
  have hd' : d < s₀.created := by
    rw [(State.prepared_kept hprepared).1.created]
    exact hd.trans_le hle
  obtain ⟨fuel, s'', hrun⟩ :=
    (uThreadScheduler_ends_iff t henters).mpr (.inr (.inr ⟨d, hd', hdue⟩))
  refine ⟨fuel, s'', ?_⟩
  cases c with
  | create ok => cases hprepared
  | finish => cases hprepared
  | scheduler t' =>
      obtain ⟨rfl, rfl⟩ := Prod.mk.inj (Option.some.inj hprepared)
      exact hrun
  | usleep usec now t' =>
      obtain ⟨rfl, rfl⟩ := Prod.mk.inj (Option.some.inj hprepared)
      by_cases hid : (s'.thread s'.cur).uThreadId = 0
      · rw [if_pos hid] at hrun
        exact (if_pos hid).trans hrun
      · rw [if_neg hid] at hrun
        exact (if_neg hid).trans hrun

/-- The main thread has created two threads and switches to the second one, which comes first. -/
theorem noStarvation_created : ∃ s s' done, Performs s done ∧ PassesOver 1 s [.scheduler 1] s' ∧
    s'.cur = 2 ∧ [Call.scheduler 1].countP Call.schedules ≤ s'.created * (1 + s'.done.card) := by
  obtain ⟨⟨s, done⟩, hrun, hgoal⟩ := (Option.any_eq_true _ _).mp (by decide +kernel :
    (performCalls 10 (initThread 0 0) [] [.create true, .create true]).any (fun r =>
      1 < r.1.created ∧ (r.1.call false).Due 1 1 ∧
        (r.1.perform 10 (.scheduler 1)).any fun s' => s'.cur = 2) = true)
  obtain ⟨hd, hdue, hswitch⟩ := of_decide_eq_true hgoal
  obtain ⟨s', hperform, hcur⟩ := (Option.any_eq_true _ _).mp hswitch
  have hcur : s'.cur = 2 := of_decide_eq_true hcur
  have hperforms : Performs s done := (Performs.start 0 0).performCalls hrun
  have hpasses : PassesOver 1 s ([] ++ [.scheduler 1]) s' := by
    refine .step .start hperform fun s₀ t hprepared => ?_
    obtain ⟨rfl, rfl⟩ := Prod.mk.inj (Option.some.inj hprepared)
    exact ⟨hdue, by rw [hcur]; decide⟩
  exact ⟨s, s', done, hperforms, hpasses, hcur, (noStarvation hperforms hd hpasses).1⟩

end UThread
end OperatingSystems
