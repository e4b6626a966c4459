import Mathlib.Algebra.BigOperators.Group.Finset.Piecewise
import Mathlib.Algebra.BigOperators.Ring.Finset
import OperatingSystems.MyMutex.Completion

/-!
# Every call comes to an end

In runs in which a sleep ends only by a wake-up, each statement is paid for: a thread that stores
`1` pays for one more round of every other thread, and one that wakes up a sleeper for a round of
that one.

* `weight` — what is left to do for a thread.
* `weight_resume_lt` — a statement takes from the weight of its thread.
* `weight_le_of_subset`, `weight_le_add_two`, `weight_le_of_wake` — what it does to the others.
* `sum_weight_lt` — a step lowers the sum.
* `mutexSteps_le` — how many steps there can be.
-/

namespace OperatingSystems
namespace MyMutex

open Threads

/-- What is left to do for a thread, one of `n`. -/
def weight (n : Nat) (memory : Memory) (t : Thread) : Nat :=
  t.calls.length * (2 * n + 11) +
    match t.pc with
    | .idle | .dead => 0
    | .abort | .incWrite _ | .setRecursion => 1
    | .incRead | .setOwner => 2
    -- The loop of `my_mutex_lock`, round which the thread goes when it is woken up or finds a `1`.
    | .asleep => if t.tid ∈ memory.sleepers then 3 else 6
    | .futexWait => if memory.mutex.lock = 0 then 4 else 6
    | .compareExchange => 5
    | .lockOwner => 6
    | .lockTest => 7
    | .futexWake => 4
    | .storeLock => 2 * n + 5
    | .clearRecursion => 2 * n + 6
    | .clearOwner => 2 * n + 7
    | .decWrite _ => 2 * n + 8
    | .decRead => 2 * n + 9
    | .unlockOwner => 2 * n + 10

section Others

variable {n : Nat} {memory memory' : Memory} {t : Thread}

/-- Nobody is woken up and `lock` does not become `1`. -/
theorem weight_le_of_subset
    (hlock : memory'.mutex.lock = 0 ∨ memory'.mutex.lock = memory.mutex.lock)
    (hsub : ∀ w ∈ memory.sleepers, w ∈ memory'.sleepers) :
    weight n memory' t ≤ weight n memory t := by
  unfold weight
  refine Nat.add_le_add_left ?_ _
  cases ht : t.pc with
  | asleep =>
      by_cases hmem : t.tid ∈ memory.sleepers
      · simp [hmem, hsub _ hmem]
      · simp only [if_neg hmem]
        split <;> omega
  | futexWait =>
      rcases hlock with hlock | hlock
      · simp only [hlock, if_true]
        split <;> omega
      · simp [hlock]
  | _ => exact Nat.le_refl _

/-- Nobody is woken up. -/
theorem weight_le_add_two (hsame : memory'.sleepers = memory.sleepers) :
    weight n memory' t ≤ weight n memory t + 2 := by
  unfold weight
  rw [Nat.add_assoc]
  refine Nat.add_le_add_left ?_ _
  cases ht : t.pc with
  | asleep => simp [hsame]
  | futexWait =>
      dsimp only
      split <;> split <;> omega
  | _ => exact Nat.le_add_right _ _

/-- One sleeper is woken up. -/
theorem weight_le_of_wake {woken : Int} (hlock : memory'.mutex.lock = memory.mutex.lock)
    (hsub : ∀ w ∈ memory.sleepers, w ≠ woken → w ∈ memory'.sleepers) :
    weight n memory' t ≤ weight n memory t + if t.tid = woken then 3 else 0 := by
  unfold weight
  rw [Nat.add_assoc]
  refine Nat.add_le_add_left ?_ _
  cases ht : t.pc with
  | asleep =>
      by_cases hmem : t.tid ∈ memory.sleepers
      · by_cases hwoken : t.tid = woken
        · simp only [if_pos hmem, if_pos hwoken]
          split <;> omega
        · simp [hmem, hsub _ hmem hwoken]
      · simp only [if_neg hmem]
        split <;> omega
  | futexWait => simp [hlock]
  | _ => exact Nat.le_add_right _ _

end Others

section Own

variable {n : Nat} {memory memory' : Memory} {t : Thread} {o : Op}

/-- A statement outside the loop of `my_mutex_lock`. -/
theorem weight_resume_lt (hpc : t.pc.waiting = false) (hop : t.op = some o) :
    weight n memory' (t.resume memory) < weight n memory t := by
  unfold Thread.op at hop
  cases ht : t.pc <;> simp only [ht, Pc.waiting, reduceCtorEq] at hpc hop
  case idle =>
    cases hcalls : t.calls with
    | nil => simp [hcalls] at hop
    | cons call calls =>
        cases call <;>
          simp only [weight, Thread.resume, Thread.enter, ht, hcalls, List.length_cons,
            Nat.succ_mul] <;> omega
  case lockTest =>
    by_cases hlock : memory.mutex.lock = 0 <;> simp [weight, Thread.resume, ht, hlock]
  case lockOwner =>
    by_cases howner : memory.mutex.owner = t.tid
    · cases htype : memory.mutex.type <;>
        simp [weight, Thread.resume, Thread.relock, ht, howner, htype]
    · simp [weight, Thread.resume, ht, howner]
  case unlockOwner =>
    by_cases howner : memory.mutex.owner = t.tid
    · by_cases htype : memory.mutex.type = .recursive <;>
        simp [weight, Thread.resume, Thread.unlock, ht, howner, htype]
    · by_cases htype : memory.mutex.type = .errorcheck <;>
        simp [weight, Thread.resume, Thread.unlock, ht, howner, htype]
  case decWrite value =>
    by_cases hdepth : 0 < toInt32 (value - 1) <;> simp [weight, Thread.resume, ht, hdepth]
  all_goals simp [weight, Thread.resume, ht]

end Own

section Reachable

variable {ι : Type*} [DecidableEq ι] [Fintype ι] {type : MutexType} {tid : ι → Int}
  {s : State ι Memory Thread} {i : ι} {o : Op} {memory : Memory}

/-- A step lowers the sum, unless it ends a sleep without a wake-up. -/
theorem sum_weight_lt (htids : Tids tid) (hs : (users ι).Reachable (Starts type tid) s)
    (hawake : ¬Parked s.shared (s.thread i)) (hop : (s.thread i).op = some o)
    (hexec : o.exec s.shared = some memory) :
    ∑ j, weight (Fintype.card ι) memory
        ((s.advance i memory ((s.thread i).resume s.shared)).thread j) <
      ∑ j, weight (Fintype.card ι) s.shared (s.thread j) := by
  have hattended := attended htids hs
  have hlock := (exists_holder htids hs).1
  have hrun := Op.run_of_exec hexec
  cases hpc : (s.thread i).pc.waiting with
  | false =>
      obtain ⟨hsamelock, hsame⟩ := same_of_not_waiting hpc hop hexec
      refine State.sum_advance_lt (weight _) (fun _ => 0) (fun j _ => ?_) ?_
      · exact weight_le_of_subset (.inr hsamelock) fun w hw => hsame ▸ hw
      · simpa using weight_resume_lt hpc hop
  | true =>
      unfold Thread.op at hop
      cases ht : (s.thread i).pc <;> simp only [ht, Pc.waiting, reduceCtorEq] at hpc hop
      all_goals obtain rfl := Option.some.inj hop
      case compareExchange =>
        obtain rfl := Option.some.inj hrun
        refine State.sum_advance_lt (weight _) (fun _ => 0) (fun j _ => ?_) ?_
        · refine weight_le_of_subset ?_ ?_
          · split
            · exact .inl rfl
            · exact .inr rfl
          · split <;> exact fun w => id
        · rcases hlock with hlock | hlock <;> simp [weight, Thread.resume, ht, hlock]
      case futexWait =>
        obtain rfl := Option.some.inj hrun
        refine State.sum_advance_lt (weight _) (fun _ => 0) (fun j _ => ?_) ?_
        · refine weight_le_of_subset (.inr rfl) fun w hw => ?_
          show w ∈ Futex.sleep _ _ _ _
          rw [Futex.sleep]
          split
          · exact List.mem_cons_of_mem _ hw
          · exact hw
        · by_cases hzero : s.shared.mutex.lock = 0
          · simp [weight, Thread.resume, ht, hzero, Futex.sleep]
          · simp [weight, Thread.resume, ht, hzero]
      case asleep =>
        have hwoken : (s.thread i).tid ∉ s.shared.sleepers := fun hmem => hawake ⟨ht, hmem⟩
        have hsame : s.shared.sleepers.erase (s.thread i).tid = s.shared.sleepers :=
          List.erase_of_not_mem hwoken
        simp only [Op.run, hwoken, false_and, if_false, Option.some.injEq] at hrun
        obtain rfl := hrun
        refine State.sum_advance_lt (weight _) (fun _ => 0) (fun j _ => ?_) ?_
        · exact weight_le_of_subset (.inr rfl) fun w hw => hsame.symm ▸ hw
        · simp [weight, Thread.resume, ht, hwoken]
      case storeLock =>
        obtain rfl := Option.some.inj hrun
        refine State.sum_advance_lt (weight _) (fun _ => 2) (fun j _ => ?_) ?_
        · exact weight_le_add_two rfl
        · rw [Finset.sum_const, Finset.card_univ, nsmul_eq_mul, Nat.cast_id]
          simp only [weight, Thread.resume, ht]
          omega
      case futexWake =>
        obtain rfl := Option.some.inj hrun
        by_cases hne : s.shared.sleepers = []
        · refine State.sum_advance_lt (weight _) (fun _ => 0) (fun j _ => ?_) ?_
          · exact weight_le_of_subset (.inr rfl) fun w hw => by simp [hne] at hw
          · simp [weight, Thread.resume, ht]
        · obtain ⟨woken, hmem, -, hwake⟩ :=
            Futex.wake_spec ((s.thread i).picks 0) hne hattended.nodup
          -- The tid of a thread is that of no other.
          obtain ⟨j, rfl, -⟩ := hattended.asleep woken hmem
          refine State.sum_advance_lt (weight _) (fun k => if k = j then 3 else 0)
            (fun k _ => ?_) ?_
          · have hiff : (s.thread k).tid = tid j ↔ k = j := by
              rw [hattended.tid_eq, htids.injective.eq_iff]
            rw [if_congr hiff.symm rfl rfl]
            exact weight_le_of_wake rfl fun w hw hw' => (hwake w).mpr ⟨hw, hw'⟩
          · rw [Finset.sum_ite_eq' Finset.univ j, if_pos (Finset.mem_univ j)]
            simp [weight, Thread.resume, ht]

/-- A run of `n` threads in which every sleep ends by a wake-up has at most `2 n + 11` steps for
each call. -/
theorem mutexSteps_le {calls : ι → List Call} {start : State ι Memory Thread} (htids : Tids tid)
    (hstart : StartsWith type tid calls start) {schedule : List ι}
    (hrun : (users ι).runIf (fun s i => decide ¬Parked s.shared (s.thread i)) start schedule =
      some s) :
    schedule.length ≤ (2 * Fintype.card ι + 11) * ∑ i, (calls i).length := by
  have hreach : (users ι).ReachableUnder (Starts type tid)
      (fun s i => ¬Parked s.shared (s.thread i)) start := .start hstart.starts
  have hle := (users ι).length_runIf_le
    (fun s => ∑ j, weight (Fintype.card ι) s.shared (s.thread j))
    (fun s i htest => of_decide_eq_true htest)
    (fun s i o memory hs hawake hop hexec =>
      sum_weight_lt htids hs.reachable hawake hop hexec) hreach hrun
  have hweight (i : ι) : weight (Fintype.card ι) start.shared (start.thread i) =
      (2 * Fintype.card ι + 11) * (calls i).length := by
    obtain ⟨wakeups, picks, ht⟩ := hstart.2 i
    rw [ht, Nat.mul_comm]
    rfl
  simp only [hweight, ← Finset.mul_sum] at hle
  omega

end Reachable

/-- Two threads, one of which sleeps: 30 steps, where 60 are allowed. -/
theorem mutexSteps_le_slept :
    let calls : Fin 2 → List Call := fun _ => [.lock, .unlock]
    let start : State (Fin 2) Memory Thread := ⟨⟨.init .recursive, [], false⟩,
      fun i => .start (i.val + 1) (calls i) (fun _ => .woken) fun _ => 0⟩
    let schedule := List.replicate 5 0 ++ List.replicate 5 1 ++ List.replicate 8 0 ++
      List.replicate 12 1
    (∃ s, (users (Fin 2)).runIf (fun s i => decide ¬Parked s.shared (s.thread i)) start
      schedule = some s) ∧ schedule.length ≤ (2 * 2 + 11) * ∑ i, (calls i).length := by
  intro calls start schedule
  obtain ⟨s, hrun⟩ : ∃ s, (users (Fin 2)).runIf
      (fun s i => decide ¬Parked s.shared (s.thread i)) start schedule = some s :=
    Option.isSome_iff_exists.mp (by decide +kernel)
  refine ⟨⟨s, hrun⟩, mutexSteps_le ⟨fun i j h => ?_, fun i => ?_⟩ ⟨rfl, fun _ => ⟨_, _, rfl⟩⟩ hrun⟩
  · exact Fin.ext (by simpa using h)
  · show (i.val : Int) + 1 ≠ 0
    omega

end MyMutex
end OperatingSystems
