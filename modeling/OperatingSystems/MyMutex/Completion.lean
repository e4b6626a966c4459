import OperatingSystems.Library.Quiescence
import OperatingSystems.MyMutex.Contention
import OperatingSystems.MyMutex.Wakeups

/-!
# Threads that come to the end of their calls

Threads that unlock what they have locked, on a mutex of any type, in runs in which no sleep is
interrupted.

* `Thread.IsDone`, `Parked` — the thread has made its calls; it sleeps in the kernel.
* `Answers.goes_on` — a thread that answers for the sleepers is neither.
* `done_or_parked` — a thread that cannot go on is one of them.
* `exists_holder` — while `lock` is `0` a thread holds the mutex.
* `allReturn` — when no thread can go on, every call of every thread has returned.
-/

namespace OperatingSystems
namespace MyMutex

open Threads

/-- The thread sleeps, and nobody has woken it up. -/
def Parked (memory : Memory) (t : Thread) : Prop :=
  t.pc = .asleep ∧ t.tid ∈ memory.sleepers

instance (memory : Memory) (t : Thread) : Decidable (Parked memory t) :=
  inferInstanceAs (Decidable (_ ∧ _))

/-- The thread has made its calls. -/
def Thread.IsDone (t : Thread) : Prop :=
  t.pc = .idle ∧ t.calls = []

section Stuck

variable {t : Thread} {o : Op} {memory : Memory}

theorem Thread.isDone_of_op (hop : t.op = none) (hpc : t.pc ≠ .dead) : t.IsDone := by
  unfold op at hop
  cases ht : t.pc <;> simp only [ht, reduceCtorEq, ite_eq_left_iff] at hop
  case idle => exact ⟨ht, by simpa using hop⟩
  case dead => exact absurd ht hpc

/-- Nothing blocks but a sleep. -/
theorem parked_of_run (hop : t.op = some o) (hrun : o.run memory = none) : Parked memory t := by
  cases o with
  | endWait tid wakeup =>
      unfold Thread.op at hop
      cases ht : t.pc <;> simp only [ht, reduceCtorEq, Option.some.injEq] at hop
      case idle => split at hop <;> cases hop
      case asleep =>
        obtain ⟨rfl, rfl⟩ := Op.endWait.inj hop
        simp only [Op.run, ite_eq_left_iff, reduceCtorEq, imp_false, not_not] at hrun
        exact ⟨ht, hrun.1⟩
  | _ => cases hrun

/-- A thread that answers for the sleepers can go on. -/
theorem Answers.goes_on (h : Answers memory.sleepers t) : ¬(t.IsDone ∨ Parked memory t) := by
  rintro (⟨hidle, -⟩ | ⟨hasleep, hmem⟩)
  · have hwaiting := h.waiting
    rw [hidle] at hwaiting
    cases hwaiting
  · obtain h | h | h | ⟨-, h⟩ := h
    · exact absurd (hasleep.symm.trans h) (by decide)
    · exact absurd (hasleep.symm.trans h) (by decide)
    · exact absurd (hasleep.symm.trans h) (by decide)
    · exact h hmem

end Stuck

section Reachable

variable {ι : Type*} [DecidableEq ι] {type : MutexType} {tid : ι → Int} {calls : ι → List Call}
  {s : State ι Memory Thread} {i : ι}

theorem done_or_parked (halive : s.shared.aborted = false) (hpc : (s.thread i).pc ≠ .dead)
    (hstuck : (users ι).step s i = none) :
    (s.thread i).IsDone ∨ Parked s.shared (s.thread i) := by
  cases hop : (s.thread i).op with
  | none => exact .inl (Thread.isDone_of_op hop hpc)
  | some o =>
      refine .inr (parked_of_run hop ?_)
      cases hrun : o.run s.shared with
      | none => rfl
      | some memory =>
          have hexec : o.exec s.shared = some memory := by rw [Op.exec, halive]; exact hrun
          have hstep := (users ι).step_eq_some_iff.mpr ⟨o, memory, hop, hexec, rfl⟩
          rw [hstuck] at hstep
          cases hstep

/-- `lock` is `0` or `1`, and while it is `0` a thread holds the mutex. -/
theorem exists_holder (htids : Tids tid) (hs : (users ι).Reachable (Starts type tid) s) :
    (s.shared.mutex.lock = 0 ∨ s.shared.mutex.lock = 1) ∧
      (s.shared.mutex.lock = 0 → ∃ j, (s.thread j).acquired = true) := by
  refine hs.induction (I := fun s => (s.shared.mutex.lock = 0 ∨ s.shared.mutex.lock = 1) ∧
    (s.shared.mutex.lock = 0 → ∃ j, (s.thread j).acquired = true)) ?_ ?_
  · rintro s ⟨hshared, -⟩
    rw [hshared]
    exact ⟨.inr rfl, nofun⟩
  · rintro s i o memory hs ⟨hlock, htaken⟩ - hop hexec
    have hexclusive := exclusion htids hs
    exact ⟨lock_range hexclusive hlock hop hexec, taken_advance hexclusive htaken hop hexec⟩

omit [DecidableEq ι] in
/-- A thread that has unlocked what it has locked, or sleeps, does not hold the mutex. -/
theorem InOrder.not_acquired (h : InOrder calls s) (hpaired : lastLock (calls i) = false)
    (hknows : Knows (tid i) s.shared (s.thread i))
    (hrest : (s.thread i).IsDone ∨ Parked s.shared (s.thread i)) :
    (s.thread i).acquired = false := by
  by_contra hheld
  have hacquired : (s.thread i).acquired = true := by simpa using hheld
  rcases hrest with ⟨hidle, hnone⟩ | ⟨hasleep, -⟩
  · obtain ⟨done, hdone, -, hturn⟩ := h.turns i
    rw [hnone, List.append_nil] at hdone
    have hlast := (hturn.acquired_iff hidle).mp hacquired
    rw [← hdone, hpaired] at hlast
    cases hlast
  · have hothers := (hknows.held hacquired).2.1
    rw [hasleep] at hothers
    cases hothers

/-- Users of the mutex never hang: when no thread can go on otherwise than by a wake-up for no
reason, all have made their calls, the mutex is free and nobody sleeps on it. -/
theorem allReturn (htids : Tids tid) (hcalls : ∀ i, disciplined false (calls i) = true)
    (hpaired : ∀ i, lastLock (calls i) = false)
    (hs : (users ι).ReachableUnder (StartsWith type tid calls)
      (fun s i => ¬Interrupted s.shared (s.thread i)) s)
    (hstuck : ∀ i, (users ι).step s i = none ∨ Parked s.shared (s.thread i)) :
    (∀ i, (s.thread i).pc = .idle ∧ (s.thread i).calls = []) ∧
      s.shared.mutex.lock = 1 ∧ s.shared.mutex.owner = 0 ∧ s.shared.sleepers = [] := by
  have hreach := hs.reachable.mono (fun _ => StartsWith.starts) fun _ _ => id
  have horder := inOrder htids hcalls hs
  have hexclusive := exclusion htids hreach
  have hrest (i : ι) : (s.thread i).IsDone ∨ Parked s.shared (s.thread i) := by
    obtain ⟨done, -, -, hturn⟩ := horder.turns i
    exact (hstuck i).elim (done_or_parked horder.alive hturn.not_abort.2) .inr
  -- Nobody holds the mutex.
  obtain ⟨hlock, htaken⟩ := exists_holder htids hreach
  have hfree : s.shared.mutex.lock = 1 := by
    refine hlock.resolve_left fun hzero => ?_
    obtain ⟨j, hj⟩ := htaken hzero
    rw [horder.not_acquired (hpaired j) (hexclusive.knows j) (hrest j)] at hj
    cases hj
  -- Somebody would have to wake up a thread that sleeps.
  have hattended := attended htids hreach
  have hnobody : s.shared.sleepers = [] := by
    by_contra hne
    obtain ⟨j, hj⟩ := hattended.answered hfree hne
    exact hj.goes_on (hrest j)
  refine ⟨fun i => (hrest i).resolve_right fun ⟨_, hmem⟩ => ?_, hfree,
    hexclusive.unlocked hfree, hnobody⟩
  rw [hnobody] at hmem
  cases hmem

end Reachable

/-- A thread that has slept while the other one held the mutex. -/
theorem allReturn_slept :
    let calls : Nat → List Call := fun i => if i < 2 then [.lock, .unlock] else []
    let schedule := List.replicate 5 0 ++ List.replicate 5 1 ++ List.replicate 6 0 ++
      List.replicate 10 1
    ∃ s ∈ (users Nat).runIf (fun s i => decide ¬Interrupted s.shared (s.thread i))
        (calling .errorcheck calls) schedule,
      (∀ i, (s.thread i).pc = .idle ∧ (s.thread i).calls = []) ∧
        s.shared.mutex.lock = 1 ∧ s.shared.mutex.owner = 0 ∧ s.shared.sleepers = [] := by
  intro calls schedule
  have hstart : (users Nat).ReachableUnder
      (StartsWith .errorcheck (fun i : Nat => (i : Int) + 1) calls)
      (fun s i => ¬Interrupted s.shared (s.thread i)) (calling .errorcheck calls) :=
    .start ⟨rfl, fun _ => ⟨_, _, rfl⟩⟩
  obtain ⟨s, hrun, hs, hzero, hone⟩ :=
    hstart.exists_runIf (fun s i htest => of_decide_eq_true htest)
      (fun s => ((users Nat).step s 0).isNone = true ∧ ((users Nat).step s 1).isNone = true)
      (by decide +kernel : ((users Nat).runIf
        (fun s i => decide ¬Interrupted s.shared (s.thread i)) (calling .errorcheck calls)
        schedule).any _ = true)
  refine ⟨s, hrun, allReturn tids_succ (fun i => ?_) (fun i => ?_) hs fun i => .inl ?_⟩
  · show disciplined false (if i < 2 then [.lock, .unlock] else []) = true
    split <;> rfl
  · show lastLock (if i < 2 then [.lock, .unlock] else []) = false
    split <;> rfl
  · by_cases hi : i < 2
    · obtain rfl | rfl : i = 0 ∨ i = 1 := by omega
      · exact Option.isNone_iff_eq_none.mp hzero
      · exact Option.isNone_iff_eq_none.mp hone
    · have hthread : s.thread i = .start (i + 1) (calls i) (fun _ => .woken) fun _ => 0 := by
        rw [(users Nat).thread_of_runIf (fun hmem => hi ?_) hrun]
        · rfl
        · simp only [schedule, List.mem_append, List.mem_replicate] at hmem
          omega
      have hcalls : calls i = [] := if_neg hi
      rw [Program.step, hthread, hcalls]
      rfl

end MyMutex
end OperatingSystems
