import OperatingSystems.Library.Sweep
import OperatingSystems.UThread.Unmapping

/-!
# The choice of the next green thread

The walk of the scheduler is a sweep round the ring of threads: finished threads are gone, the
threads that can be switched to are due, and the sweep stops at `mgr->cur`.  `continue` goes on
behind the successor of a finished thread, and a finished `mgr->cur` is taken off the ring like
the others.

* `schedulerLoop_sweep` — the loop is that sweep.
* `roundRobin` — when the scheduler switches to the first thread that is due.
* `schedulerEnds` — when its loop ends.
-/

namespace OperatingSystems
namespace UThread

open Sweep

/-- The threads of a ring with the main thread, which has not finished. -/
theorem Linked.ready {s : State} {p : Nat} {l : List Nat} (h : Linked s p l)
    (hmain : (s.thread 0).finished = false) (t : Int) : Ready s.Gone (s.Due t) l := by
  refine ⟨h.ring.nodup, ⟨0, h.head_mem, fun hgone => ?_⟩, fun y hdue hgone => ?_⟩
  · exact absurd hgone.1 (by simp [hmain])
  · exact absurd hgone.1 (by simp [hdue.1])

/-- Taking a thread off the ring changes neither who is gone nor who is due. -/
theorem Relinked.sweep_eq {s s' : State} (h : Relinked s s') (t : Int) (fuel : Nat)
    (l : List Nat) :
    sweep s'.Gone (s'.Due t) s'.cur fuel l = sweep s.Gone (s.Due t) s.cur fuel l := by
  have hhead : s'.head = s.head := by rw [h.rest]
  have hcur : s'.cur = s.cur := by rw [h.rest]
  rw [hcur]
  apply sweep_congr
  · intro y
    rw [State.Gone, State.Gone, h.finished, hhead]
  · exact h.due_iff t

/-- The loop of `u_thread_scheduler` is a sweep. -/
theorem schedulerLoop_sweep {s : State} {p : Nat} {l : List Nat} (t : Int) (fuel : Nat)
    (h : Linked s p l) :
    (s.schedulerLoop t fuel p).map Prod.snd = sweep s.Gone (s.Due t) s.cur fuel l := by
  induction fuel generalizing s p l with
  | zero => simp [State.schedulerLoop, sweep]
  | succ fuel ih =>
      cases l with
      | nil => exact absurd h.head_mem List.not_mem_nil
      | cons y l =>
          obtain ⟨hfinished, hhead, z, l, rfl, hsame, hlinked, hturn⟩ |
            ⟨hstays, hlinked, hturn⟩ := schedulerLoop_succ h t fuel
          · have hgone : s.Gone y := ⟨hfinished, hhead⟩
            rw [hturn, sweep_of_gone hgone]
            split
            · rfl
            · rw [ih hlinked, hsame.sweep_eq]
          · have hgone : ¬s.Gone y := hstays
            rw [hturn, sweep_of_stays hgone]
            split
            · rfl
            · exact ih hlinked

section Scheduler

variable {s : State} {l : List Nat} {t : Int} {fuel : Nat} {c : Nat}

/-- The scheduler goes on with the thread at which the sweep ends. -/
theorem sweep_of_uThreadScheduler {s' : State} (h : Linked s s.cur l)
    (hexited : s.exited = false) (hrun : s.uThreadScheduler fuel t = some s') :
    sweep s.Gone (s.Due t) s.cur fuel l = some s'.cur := by
  obtain ⟨s₁, c, hsame, -, hloop, hend⟩ := uThreadScheduler_spec h hexited hrun
  have hsweep := schedulerLoop_sweep t fuel (h.clock t)
  rw [hloop] at hsweep
  refine hsweep.symm.trans ?_
  obtain ⟨rfl, rfl⟩ | ⟨-, -, rfl⟩ := hend
  · rw [hsame.rest]
    rfl
  · rfl

theorem uThreadScheduler_of_sweep (h : Linked s s.cur l) (hexited : s.exited = false)
    (hc : sweep s.Gone (s.Due t) s.cur fuel l = some c) :
    ∃ s', s.uThreadScheduler fuel t = some s' ∧ s'.cur = c ∧
      (c ≠ s.cur → s'.running = (s.thread c).ctx) := by
  have hclock := h.clock t
  have hsweep := schedulerLoop_sweep t fuel hclock
  obtain ⟨⟨s₁, d⟩, hloop, hd⟩ := Option.map_eq_some_iff.mp (hsweep.trans hc)
  obtain rfl : d = c := hd
  obtain ⟨hsame, -, -⟩ := schedulerLoop_linked hclock hloop
  have hexited₁ : s₁.exited = false := by
    rw [hsame.rest]
    exact hexited
  have hcur₁ : s₁.cur = s.cur := by rw [hsame.rest]
  unfold State.uThreadScheduler
  simp only [hloop, hexited₁, hcur₁, Bool.false_eq_true, if_false]
  by_cases hd : d = s.cur
  · exact ⟨s₁, by simp [hd], hcur₁.trans hd.symm, fun hne => absurd hd hne⟩
  · refine ⟨s₁.switch d, by simp [hd], rfl, fun _ => ?_⟩
    show ((s₁.modify s₁.cur ({ · with ctx := ⟨s₁.running.owner, s₁.swaps + 1⟩ })).thread d).ctx = _
    rw [hcur₁]
    simp only [State.modify, Function.update_of_ne hd]
    exact hsame.ctx d

end Scheduler

/-- No call ends the program: the main thread stays on the ring. -/
theorem exited_eq_false {s : State} {done : List Unmap} (h : Performs s done) :
    s.exited = false := by
  induction h with
  | start sleepUntil clock => rfl
  | step hs hexited hrun ih =>
      obtain ⟨-, l, hlinked, -⟩ := tidy hs
      obtain ⟨ok, -, rfl⟩ | ⟨-, -, rfl⟩ | ⟨s₀, t, s₁, d, -, -, hkept, -, -, hend⟩ :=
        perform_cases hlinked hexited hrun
      · cases ok <;> exact ih
      · exact ih
      · obtain ⟨-, rfl⟩ | ⟨-, -, rfl⟩ := hend
        · exact hkept.exited.trans ih
        · exact hkept.exited.trans ih

/-- What holds whenever the scheduler is entered. -/
structure Enters (s : State) (l : List Nat) : Prop where
  linked : Linked s s.cur l
  main : (s.thread 0).finished = false
  exited : s.exited = false

theorem enters_prepared {s s₀ : State} {done : List Unmap} {c : Call} {t : Int}
    (h : Performs s done) (hprepared : s.prepared c = some (s₀, t)) : ∃ l, Enters s₀ l := by
  obtain ⟨hruns, l, hlinked, -⟩ := tidy h
  obtain ⟨hkept, hlinked₀⟩ := State.prepared_kept hprepared
  refine ⟨l, hkept.cur ▸ hlinked₀ hlinked, ?_, hkept.exited.trans (exited_eq_false h)⟩
  rw [hkept.finished, hruns.unfinished]

/-- When the walk takes the current thread off the ring. -/
theorem Enters.loses_iff {s : State} {l : List Nat} (h : Enters s l) :
    Loses s.Gone s.cur l ↔
      (s.thread s.cur).finished = true ∧ before s.Gone s.cur 0 l % 2 = 0 := by
  constructor
  · intro hloses
    obtain ⟨hgone, heven⟩ := hloses h.linked.ring.self_mem
    exact ⟨hgone.1, heven⟩
  · rintro ⟨hfinished, heven⟩ -
    refine ⟨⟨hfinished, fun hcur => ?_⟩, heven⟩
    rw [hcur, h.linked.head_eq, h.main] at hfinished
    cases hfinished

/-! ### The choice -/

/-- `u_thread_scheduler` switches to the first thread after `mgr->cur` that is due at the time
`t`, and stays with `mgr->cur` only if there is none; `l` is the ring after `mgr->cur`. -/
def RoundRobin (s : State) (t : Int) (l : List Nat) : Prop :=
  (∀ d, l.dropLast.find? (fun j => s.Due t j) = some d →
    ∃ fuel s', s.uThreadScheduler fuel t = some s' ∧ s'.cur = d ∧
      s'.running = (s.thread d).ctx) ∧
  ∀ fuel s', s.uThreadScheduler fuel t = some s' → s'.cur = s.cur →
    ∀ j ∈ l.dropLast, ¬s.Due t j

/-- An even number of finished threads comes directly before the first thread that is due; or
`mgr->cur` has finished, an even number of finished threads comes directly before it, and no
other thread that is due is passed over less often. -/
def FirstReached (s : State) (t : Int) (l : List Nat) : Prop :=
  ∀ d, l.dropLast.find? (fun j => s.Due t j) = some d →
    before s.Gone d 0 l % 2 = 0 ∨
      ((s.thread s.cur).finished = true ∧ before s.Gone s.cur 0 l % 2 = 0 ∧
        ∀ x ∈ l, s.Due t x → passes s.Gone l d ≤ passes s.Gone l x)

/-- The scheduler's choice, when another thread is due. -/
theorem uThreadScheduler_first_iff {s : State} {l : List Nat} {t : Int} {d : Nat}
    (h : Enters s l) (hfirst : l.dropLast.find? (fun j => s.Due t j) = some d) :
    (∃ fuel s', s.uThreadScheduler fuel t = some s' ∧ s'.cur = d ∧
        s'.running = (s.thread d).ctx) ↔
      before s.Gone d 0 l % 2 = 0 ∨
        ((s.thread s.cur).finished = true ∧ before s.Gone s.cur 0 l % 2 = 0 ∧
          ∀ x ∈ l, s.Due t x → passes s.Gone l d ≤ passes s.Gone l x) := by
  obtain ⟨hdue, a, b, hl, hnone⟩ := List.find?_eq_some_iff_append.mp hfirst
  have hclosed := h.linked.ring.closed
  have hsplit : l = a ++ d :: (b ++ [s.cur]) := by
    rw [← List.dropLast_append_getLast? s.cur hclosed, hl]
    simp
  have hready := h.linked.ready h.main t
  have hdue : s.Due t d := by simpa using hdue
  have hstop : s.cur ∈ b ++ [s.cur] := by simp
  have hne : d ≠ s.cur := by
    rintro rfl
    have hnodup := hready.nodup
    rw [hsplit, List.nodup_append] at hnodup
    exact (List.nodup_cons.mp hnodup.2.1).1 hstop
  rw [← and_assoc, ← h.loses_iff]
  subst hsplit
  rw [← sweep_first_iff hready hdue (fun y hy => by simpa using hnone y hy) hstop]
  constructor
  · rintro ⟨fuel, s', hrun, rfl, -⟩
    exact ⟨fuel, sweep_of_uThreadScheduler h.linked h.exited hrun⟩
  · rintro ⟨fuel, hc⟩
    obtain ⟨s', hrun, hcur, hrunning⟩ := uThreadScheduler_of_sweep h.linked h.exited hc
    exact ⟨fuel, s', hrun, hcur, hrunning hne⟩

/-- For every state in which the scheduler is entered, and every reading of the clock: it
switches to the first thread after `mgr->cur` that is due, and stays only if there is none, if
and only if the walk reaches that thread first. -/
theorem roundRobin {s s₀ : State} {done : List Unmap} {c : Call} {t : Int}
    (h : Performs s done) (hprepared : s.prepared c = some (s₀, t)) :
    ∃ l, Ring s₀.next s₀.prev s₀.cur l ∧ (RoundRobin s₀ t l ↔ FirstReached s₀ t l) := by
  obtain ⟨l, henters⟩ := enters_prepared h hprepared
  refine ⟨l, henters.linked.ring, ?_⟩
  constructor
  · intro hround d hfirst
    exact (uThreadScheduler_first_iff henters hfirst).mp (hround.1 d hfirst)
  · intro hreached
    refine ⟨fun d hfirst => (uThreadScheduler_first_iff henters hfirst).mpr (hreached d hfirst),
      fun fuel s' hrun hcur j hj hdue => ?_⟩
    -- If another thread is due, one of them is the first.
    cases hfirst : l.dropLast.find? (fun j => s₀.Due t j) with
    | none => simpa [hdue] using List.find?_eq_none.mp hfirst j hj
    | some d =>
        obtain ⟨fuel', s'', hrun', hd, -⟩ :=
          (uThreadScheduler_first_iff henters hfirst).mpr (hreached d hfirst)
        have hready := henters.linked.ready henters.main t
        have hsame := sweep_unique hready
          (sweep_of_uThreadScheduler henters.linked henters.exited hrun)
          (sweep_of_uThreadScheduler henters.linked henters.exited hrun')
        have hmem := List.mem_of_find?_eq_some hfirst
        have hclosed := henters.linked.ring.closed
        have hnodup := hready.nodup
        rw [← List.dropLast_append_getLast? s₀.cur hclosed, List.nodup_append] at hnodup
        exact hnodup.2.2 d hmem s₀.cur (by simp) (by rw [← hd, ← hsame, hcur])

/-- A list of calls whose last state passes a test that can be computed. -/
theorem Performs.exists_performCalls {fuel : Nat} {sleepUntil clock : Int} {calls : List Call}
    (goal : State → Prop) [DecidablePred goal]
    (h : (UThread.performCalls fuel (initThread sleepUntil clock) [] calls).any
      (fun r => goal r.1) = true) :
    ∃ s done, Performs s done ∧ goal s := by
  obtain ⟨⟨s, done⟩, hrun, hgoal⟩ := (Option.any_eq_true _ _).mp h
  exact ⟨s, done, (Performs.start sleepUntil clock).performCalls hrun, of_decide_eq_true hgoal⟩

/-- A ring of three threads. -/
theorem ring_three {s : State} {p a b : Nat}
    (hlinks : s.next p = a ∧ s.prev a = p ∧ s.next a = b ∧ s.prev b = a ∧ s.next b = p ∧
      s.prev p = b) (hne : p ≠ a ∧ p ≠ b ∧ a ≠ b) : Ring s.next s.prev p [a, b, p] := by
  obtain ⟨hpa, hap, hab, hba, hbp, hpb⟩ := hlinks
  obtain ⟨hne₁, hne₂, hne₃⟩ := hne
  exact ⟨by simp [hpa, hap, hab, hba, hbp, hpb], rfl, by simp [hne₁.symm, hne₂.symm, hne₃]⟩

/-- The main thread has created two threads and switches to the second one, which comes first. -/
theorem roundRobin_created :
    ∃ s done, Performs s done ∧ s.cur = 0 ∧ (s.call false).Due 1 2 ∧
      RoundRobin (s.call false) 1 [2, 1, 0] := by
  obtain ⟨s, done, hs, hlinks, hcur, hdue⟩ :=
    Performs.exists_performCalls (fun s => ((s.call false).next 0 = 2 ∧ (s.call false).prev 2 = 0 ∧
        (s.call false).next 2 = 1 ∧ (s.call false).prev 1 = 2 ∧ (s.call false).next 1 = 0 ∧
        (s.call false).prev 0 = 1) ∧ (s.call false).cur = 0 ∧ (s.call false).Due 1 2)
      (by decide +kernel : (performCalls 10 (initThread 0 0) []
        [.create true, .create true]).any _ = true)
  obtain ⟨l, hring, hiff⟩ := roundRobin hs (c := .scheduler 1) rfl
  obtain rfl := hring.unique (hcur ▸ ring_three hlinks (by decide))
  rw [hcur] at hiff
  refine ⟨s, done, hs, hcur, hdue, hiff.mpr fun d hd => ?_⟩
  obtain rfl : 2 = d := by simpa [hdue] using hd
  exact .inl (by simp [before])

/-- The walk of a thread that goes to sleep takes off the finished thread behind it, passes over
the main thread, which is due, and comes back. -/
theorem roundRobin_skipped_false :
    ¬∀ (s : State) (done : List Unmap) (c : Call) (s₀ : State) (t : Int), Performs s done →
      s.prepared c = some (s₀, t) → ∃ l, Ring s₀.next s₀.prev s₀.cur l ∧ RoundRobin s₀ t l := by
  intro h
  obtain ⟨s, done, hs, hgoal⟩ :=
    Performs.exists_performCalls (fun s => (s.prepared (.usleep 1000000 2 2)).any (fun p =>
        (p.1.next 2 = 1 ∧ p.1.prev 1 = 2 ∧ p.1.next 1 = 0 ∧ p.1.prev 0 = 1 ∧ p.1.next 0 = 2 ∧
          p.1.prev 2 = 0) ∧ p.1.cur = 2 ∧ p.2 = 2 ∧ p.1.Due 2 0 ∧
        (p.1.uThreadScheduler 10 2).any fun s' => s'.cur = 2) = true)
      (by decide +kernel : (performCalls 10 (initThread 0 0) [] [.create true, .create true,
        .scheduler 1, .usleep 0 1 1, .finish, .scheduler 1, .scheduler 1]).any _ = true)
  obtain ⟨⟨s₀, t⟩, hprepared, hstate⟩ := (Option.any_eq_true _ _).mp hgoal
  obtain ⟨hlinks, hcur, rfl, hdue, hrun⟩ := of_decide_eq_true hstate
  obtain ⟨s', hrun, hstay⟩ := (Option.any_eq_true _ _).mp hrun
  obtain ⟨l, hring, -, hnone⟩ := h s done _ s₀ _ hs hprepared
  obtain rfl := hring.unique (hcur ▸ ring_three hlinks (by decide))
  exact hnone 10 s' hrun ((of_decide_eq_true hstay).trans hcur.symm) 0 (by simp) hdue

/-! ### The end of the loop -/

/-- When the call of the scheduler comes back. -/
theorem uThreadScheduler_ends_iff {s : State} {l : List Nat} (t : Int) (h : Enters s l) :
    (∃ fuel s', s.uThreadScheduler fuel t = some s') ↔
      (s.thread s.cur).finished = false ∨ before s.Gone s.cur 0 l % 2 = 1 ∨
        ∃ j < s.created, s.Due t j := by
  have hsweep : (∃ fuel s', s.uThreadScheduler fuel t = some s') ↔
      ∃ fuel c, sweep s.Gone (s.Due t) s.cur fuel l = some c := by
    constructor
    · rintro ⟨fuel, s', hrun⟩
      exact ⟨fuel, s'.cur, sweep_of_uThreadScheduler h.linked h.exited hrun⟩
    · rintro ⟨fuel, c, hc⟩
      obtain ⟨s', hrun, -⟩ := uThreadScheduler_of_sweep h.linked h.exited hc
      exact ⟨fuel, s', hrun⟩
  have hdue : (∃ d ∈ l, s.Due t d) ↔ ∃ j < s.created, s.Due t j := by
    constructor
    · rintro ⟨d, hd, hdue⟩
      exact ⟨d, h.linked.lt_created d hd, hdue⟩
    · rintro ⟨j, hj, hdue⟩
      exact ⟨j, h.linked.unfinished_mem j hj hdue.1, hdue⟩
  rw [hsweep, sweep_ends_iff (h.linked.ready h.main t), h.loses_iff, hdue, not_and_or,
    Bool.not_eq_true, Nat.mod_two_not_eq_zero, or_assoc]

/-- For every state in which the scheduler is entered, and every reading of the clock: its loop
ends if and only if `mgr->cur` has not finished, or an odd number of finished threads comes
directly before it on the ring, or some thread is due. -/
theorem schedulerEnds {s s₀ : State} {done : List Unmap} {c : Call} {t : Int}
    (h : Performs s done) (hprepared : s.prepared c = some (s₀, t)) :
    ∃ l, Ring s₀.next s₀.prev s₀.cur l ∧
      ((∃ fuel s', s₀.uThreadScheduler fuel t = some s') ↔
        (s₀.thread s₀.cur).finished = false ∨ before s₀.Gone s₀.cur 0 l % 2 = 1 ∨
          ∃ j < s₀.created, s₀.Due t j) := by
  obtain ⟨l, henters⟩ := enters_prepared h hprepared
  exact ⟨l, henters.linked.ring, uThreadScheduler_ends_iff t henters⟩

/-- The current thread has finished and is taken off the ring, and the main thread is due. -/
theorem schedulerEnds_finished :
    ∃ s done, Performs s done ∧ (s.thread s.cur).finished = true ∧
      ∃ fuel s', (s.call false).uThreadScheduler fuel 1 = some s' := by
  obtain ⟨s, done, hs, hfinished, hdue⟩ :=
    Performs.exists_performCalls (fun s => (s.thread s.cur).finished = true ∧
        0 < (s.call false).created ∧ (s.call false).Due 1 0)
      (by decide +kernel : (performCalls 10 (initThread 0 0) []
        [.create true, .scheduler 0, .finish]).any _ = true)
  obtain ⟨l, -, hiff⟩ := schedulerEnds hs (c := .scheduler 1) rfl
  exact ⟨s, done, hs, hfinished, hiff.mpr (.inr (.inr ⟨0, hdue⟩))⟩

/-- The current thread has finished, and the main thread was left with a date in the future. -/
theorem schedulerEnds_future_false :
    ¬∀ (s : State) (done : List Unmap) (c : Call) (s₀ : State) (t : Int), Performs s done →
      s.prepared c = some (s₀, t) → ∃ fuel s', s₀.uThreadScheduler fuel t = some s' := by
  intro h
  obtain ⟨s, done, hs, hlinks, hcur, hcreated, hfinished, hdue₀, hdue₁⟩ :=
    Performs.exists_performCalls (fun s => ((s.call false).next 1 = 0 ∧ (s.call false).prev 0 = 1 ∧
        (s.call false).next 0 = 1 ∧ (s.call false).prev 1 = 0) ∧ (s.call false).cur = 1 ∧
        (s.call false).created = 2 ∧ ((s.call false).thread 1).finished = true ∧
        ¬(s.call false).Due 1 0 ∧ ¬(s.call false).Due 1 1)
      (by decide +kernel : (performCalls 10 (initThread 5 0) []
        [.create true, .scheduler 0, .finish]).any _ = true)
  have hprepared : s.prepared (.scheduler 1) = some (s.call false, 1) := rfl
  obtain ⟨l, henters⟩ := enters_prepared hs hprepared
  have hring : Ring (s.call false).next (s.call false).prev 1 [0, 1] :=
    ⟨by simp [hlinks], rfl, by decide⟩
  obtain rfl := henters.linked.ring.unique (hcur.symm ▸ hring)
  rcases (uThreadScheduler_ends_iff 1 henters).mp (h s done _ _ 1 hs hprepared) with
    hunfinished | hodd | ⟨j, hj, hdue⟩
  · rw [hcur, hfinished] at hunfinished
    cases hunfinished
  · rw [hcur] at hodd
    have hgone : ¬(s.call false).Gone 0 := fun hgone =>
      hgone.2 henters.linked.head_eq.symm
    simp [before, hgone] at hodd
  · rw [hcreated] at hj
    obtain rfl | rfl : j = 0 ∨ j = 1 := by omega
    · exact hdue₀ hdue
    · exact hdue₁ hdue

end UThread
end OperatingSystems
