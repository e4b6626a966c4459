import OperatingSystems.MyMutex.Exclusion
import Mathlib.Data.List.Induction

/-!
# The depth of a recursive mutex

* `unmatched` — the locks of a sequence of calls that no unlock has matched.
* `Nested` — at every statement, what `recursion` has to do with the depth of the thread that
  holds the mutex; a thread that does not hold it has depth `0`, and `1` inside `my_mutex_lock`.
* `recursiveNesting` — between its calls the holder finds its depth in `recursion`, and `lock`
  becomes `1` in just those calls of `my_mutex_unlock` that match the first lock.
-/

namespace OperatingSystems
namespace MyMutex

open Threads

/-! ### Calls -/

/-- A lock adds one, an unlock takes one away if there is one. -/
def Call.depth (n : Nat) : Call → Nat
  | .lock => n + 1
  | .unlock => n - 1

/-- The locks that no later unlock matches. -/
def unmatched (calls : List Call) : Nat :=
  calls.foldl Call.depth 0

@[simp] theorem unmatched_append_singleton (calls : List Call) (call : Call) :
    unmatched (calls ++ [call]) = call.depth (unmatched calls) := by
  unfold unmatched
  rw [List.foldl_append]
  rfl

/-- The calls that a thread has started, of those that it was to make. -/
def started (calls : List Call) (t : Thread) : List Call :=
  calls.take (calls.length - t.calls.length)

theorem started_eq {calls done : List Call} {t : Thread} (h : calls = done ++ t.calls) :
    started calls t = done := by
  unfold started
  rw [h, List.length_append, Nat.add_sub_cancel]
  exact List.take_left

theorem unmatched_le_length (calls : List Call) : unmatched calls ≤ calls.length := by
  induction calls using List.reverseRecOn with
  | nil => exact Nat.le_refl 0
  | append_singleton calls call ih =>
      rw [unmatched_append_singleton, List.length_append, List.length_singleton]
      cases call with
      | lock =>
          change unmatched calls + 1 ≤ _
          omega
      | unlock =>
          change unmatched calls - 1 ≤ _
          omega

/-! ### One thread -/

/-- A thread of depth `n`, of which the calls that have started are counted. -/
def Nested (n : Nat) (recursion : Int) (t : Thread) : Prop :=
  if t.acquired = true then
    match t.pc with
    | .idle => recursion = n ∧ 0 < n
    | .lockTest | .lockOwner | .incRead => recursion + 1 = n ∧ 0 < recursion
    | .incWrite value => value = recursion ∧ recursion + 1 = n ∧ 0 < recursion
    | .setOwner | .setRecursion => n = 1
    | .unlockOwner | .decRead => recursion = n + 1
    | .decWrite value => value = recursion ∧ recursion = n + 1
    | .clearOwner | .clearRecursion | .storeLock => n = 0
    | _ => False
  else
    match t.pc with
    | .idle | .unlockOwner | .futexWake => n = 0
    | .lockTest | .lockOwner | .compareExchange | .futexWait | .asleep => n = 1
    | .abort | .dead => True
    | _ => False

/-- The holder is in a call of `my_mutex_unlock`, which has taken one lock away. -/
def Unlocks (done : List Call) (t : Thread) : Prop :=
  t.acquired = true → t.pc.unlocking = true →
    ∃ front, done = front ++ [.unlock] ∧ unmatched front = unmatched done + 1

theorem Nested.idle_iff {n : Nat} {recursion : Int} {t : Thread} (h : Nested n recursion t)
    (hpc : t.pc = .idle) :
    (t.acquired = true ↔ 0 < n) ∧ (t.acquired = true → recursion = n) := by
  unfold Nested at h
  rw [hpc] at h
  split at h
  · next hacquired => exact ⟨iff_of_true hacquired h.2, fun _ => h.1⟩
  · next hfree =>
    refine ⟨iff_of_false hfree ?_, fun hacquired => absurd hacquired hfree⟩
    change n = 0 at h
    omega

/-- `recursion` means nothing to a thread that does not hold the mutex. -/
theorem Nested.of_free {n : Nat} {recursion recursion' : Int} {t : Thread}
    (h : Nested n recursion t) (hfree : t.acquired = false) : Nested n recursion' t := by
  unfold Nested at *
  rw [if_neg (by simp [hfree])] at h ⊢
  exact h

/-- Only the step into a call takes a call off the list. -/
theorem Thread.resume_calls {memory : Memory} {t : Thread} (hpc : t.pc ≠ .idle) :
    (t.resume memory).calls = t.calls := by
  unfold resume relock unlock
  cases ht : t.pc <;> simp only [ht, ne_eq, not_true_eq_false] at hpc ⊢
  case lockOwner => split <;> rfl
  case compareExchange => split <;> rfl

/-- Between two calls the next step is the one into a call, which touches no memory. -/
theorem Thread.enters {memory memory' : Memory} {t : Thread} {o : Op} (hpc : t.pc = .idle)
    (hop : t.op = some o) (hexec : o.exec memory = some memory') :
    ∃ call rest, t.calls = call :: rest ∧ t.resume memory = t.enter ∧ t.enter.calls = rest ∧
      memory' = memory := by
  have hrun := Op.run_of_exec hexec
  have hresume : t.resume memory = t.enter := by simp only [resume, hpc]
  cases hcalls : t.calls with
  | nil => simp [op, hpc, hcalls] at hop
  | cons call rest =>
      simp only [op, hpc, hcalls, reduceCtorEq, if_false, Option.some.injEq] at hop
      subst hop
      refine ⟨call, rest, rfl, hresume, ?_, (Option.some.inj hrun).symm⟩
      unfold enter
      rw [hcalls]
      cases call <;> rfl

/-- The step into a call. -/
theorem Nested.enter {n : Nat} {recursion : Int} {t : Thread} {call : Call} {calls : List Call}
    (h : Nested n recursion t) (hpc : t.pc = .idle) (hcalls : t.calls = call :: calls) :
    Nested (call.depth n) recursion t.enter ∧ t.enter.acquired = t.acquired ∧
      (t.enter.pc.unlocking = true → call = .unlock) := by
  unfold Nested at h
  rw [hpc] at h
  unfold Thread.enter
  rw [hcalls]
  cases call with
  | lock =>
      refine ⟨?_, rfl, nofun⟩
      unfold Nested
      split at h
      · next hacquired =>
        simp only [hacquired, if_true, Call.depth]
        omega
      · next hfree =>
        simp only [hfree, if_false, Call.depth, Bool.false_eq_true]
        omega
  | unlock =>
      refine ⟨?_, rfl, fun _ => rfl⟩
      unfold Nested
      split at h
      · next hacquired =>
        simp only [hacquired, if_true, Call.depth]
        omega
      · next hfree =>
        simp only [hfree, if_false, Call.depth, Bool.false_eq_true]
        omega

/-- A step of the holder inside a call. -/
theorem Nested.own_held {n : Nat} {tid : Int} {memory memory' : Memory} {t : Thread} {o : Op}
    (h : Nested n memory.mutex.recursion t) (hknows : Knows tid memory t)
    (htype : memory.mutex.type = .recursive) (hn : n < 2 ^ 31) (hpc : t.pc ≠ .idle)
    (hacquired : t.acquired = true) (hop : t.op = some o) (hexec : o.exec memory = some memory') :
    Nested n memory'.mutex.recursion (t.resume memory) := by
  have hrun := Op.run_of_exec hexec
  obtain ⟨hlock, -, howner⟩ := hknows.held hacquired
  have htid := hknows.tid_eq
  unfold Nested at h
  rw [if_pos hacquired] at h
  unfold Thread.op at hop
  -- The two writes need the bound on the depth; the other accesses leave the counter alone.
  cases ht : t.pc <;>
    simp only [ht, ne_eq, not_true_eq_false, Pc.window, Bool.false_eq_true, if_false]
      at hpc h hop howner
  all_goals
    obtain rfl := Option.some.inj hop
    obtain rfl := Option.some.inj hrun
  case lockTest =>
    simpa [Nested, Thread.resume, ht, hlock, hacquired] using h
  case lockOwner =>
    simpa [Nested, Thread.resume, Thread.relock, ht, htid, howner, htype, hacquired] using h
  case incRead =>
    simpa [Nested, Thread.resume, ht, hacquired] using h
  case incWrite value =>
    obtain ⟨rfl, hdepth, hpositive⟩ := h
    have hvalue : toInt32 (memory.mutex.recursion + 1) = n := by
      rw [hdepth]
      exact toInt32_of_range (by omega) (by omega)
    have hn' : 0 < n := by omega
    simpa [Nested, Thread.resume, ht, hacquired, hvalue] using hn'
  case setOwner =>
    simpa [Nested, Thread.resume, ht, hacquired] using h
  case setRecursion =>
    subst h
    simp [Nested, Thread.resume, ht, hacquired]
  case unlockOwner =>
    simpa [Nested, Thread.resume, Thread.unlock, ht, htid, howner, htype, hacquired] using h
  case decRead =>
    simpa [Nested, Thread.resume, ht, hacquired] using h
  case decWrite value =>
    obtain ⟨rfl, hdepth⟩ := h
    have hvalue : toInt32 (memory.mutex.recursion - 1) = n := by
      rw [hdepth, Int.add_sub_cancel]
      exact toInt32_of_range (by omega) (by omega)
    by_cases hn' : 0 < n
    · simp [Nested, Thread.resume, ht, hacquired, hvalue, hn']
    · simp only [Nested, Thread.resume, ht, hacquired, hvalue, Int.natCast_pos, hn', if_true,
        if_false]
      omega
  case clearOwner =>
    simpa [Nested, Thread.resume, ht, hacquired] using h
  case clearRecursion =>
    simpa [Nested, Thread.resume, ht, hacquired] using h
  case storeLock =>
    simp [Nested, Thread.resume, ht, h]

/-- A step of another thread inside a call. -/
theorem Nested.own_free {n : Nat} {tid : Int} {memory memory' : Memory} {t : Thread} {o : Op}
    (h : Nested n memory.mutex.recursion t) (hknows : Knows tid memory t) (hpc : t.pc ≠ .idle)
    (hfree : t.acquired = false) (htype : memory.mutex.type = .recursive) (hop : t.op = some o) :
    Nested n memory'.mutex.recursion (t.resume memory) := by
  obtain ⟨howner, -⟩ := hknows.free hfree
  rw [← hknows.tid_eq] at howner
  unfold Nested at h
  rw [if_neg (by simp [hfree])] at h
  unfold Thread.op at hop
  cases ht : t.pc <;> simp only [ht, ne_eq, not_true_eq_false, reduceCtorEq] at hpc h hop
  case lockTest =>
    by_cases hlock : memory.mutex.lock = 0 <;>
      simpa [Nested, Thread.resume, ht, hlock, hfree] using h
  case lockOwner =>
    simpa [Nested, Thread.resume, ht, howner, hfree] using h
  case compareExchange =>
    by_cases hlock : memory.mutex.lock = 1 <;>
      simpa [Nested, Thread.resume, ht, hlock, hfree] using h
  case futexWait =>
    by_cases hlock : memory.mutex.lock = 0 <;>
      simpa [Nested, Thread.resume, ht, hlock, hfree] using h
  case asleep =>
    by_cases hinterrupted : t.tid ∈ memory.sleepers ∧ t.wakeups 0 = .interrupted
    · simp [Nested, Thread.resume, ht, hinterrupted, hfree]
    · simpa [Nested, Thread.resume, ht, hinterrupted, hfree] using h
  case unlockOwner =>
    simpa [Nested, Thread.resume, Thread.unlock, ht, howner, htype, hfree] using h
  case futexWake =>
    simpa [Nested, Thread.resume, ht, hfree] using h
  case abort =>
    simp [Nested, Thread.resume, ht, hfree]

/-- The holder is in a call of `my_mutex_unlock` only if it was in it before. -/
theorem unlocking_before {tid : Int} {memory : Memory} {t : Thread} (hknows : Knows tid memory t)
    (htype : memory.mutex.type = .recursive) (hpc : t.pc ≠ .idle)
    (hacquired : (t.resume memory).acquired = true)
    (hunlocking : (t.resume memory).pc.unlocking = true) :
    t.acquired = true ∧ t.pc.unlocking = true := by
  have hheld := fun h => (hknows.held h).2.1
  cases ht : t.pc <;>
    simp only [ht, ne_eq, not_true_eq_false, Pc.othersOnly, Bool.true_eq_false, imp_false,
      Bool.not_eq_true] at hpc hheld <;>
    simp only [Thread.resume, ht] at hacquired hunlocking
  case lockTest => split at hunlocking <;> cases hunlocking
  case lockOwner =>
    simp only [Thread.relock, htype] at hunlocking
    split at hunlocking <;> cases hunlocking
  case compareExchange => split at hunlocking <;> cases hunlocking
  case futexWait => split at hunlocking <;> cases hunlocking
  case asleep =>
    rw [hheld] at hacquired
    cases hacquired
  case storeLock => cases hacquired
  case dead => cases hunlocking
  all_goals first
    | exact ⟨hacquired, rfl⟩
    | cases hunlocking

/-- The holder keeps the mutex up to the store of `1`. -/
theorem acquired_resume {memory : Memory} {t : Thread} (hacquired : t.acquired = true)
    (hpc : t.pc ≠ .storeLock) : (t.resume memory).acquired = true := by
  unfold Thread.resume Thread.enter Thread.relock Thread.unlock
  cases ht : t.pc <;> simp only [ht, ne_eq, not_true_eq_false] at hpc ⊢
  case idle => split <;> exact hacquired
  case lockOwner => split <;> exact hacquired
  case compareExchange => split <;> first | rfl | exact hacquired
  all_goals exact hacquired

/-- The store in `my_mutex_unlock`. -/
theorem lock_of_storeLock {memory memory' : Memory} {t : Thread} {o : Op} (hpc : t.pc = .storeLock)
    (hop : t.op = some o) (hexec : o.exec memory = some memory') : memory'.mutex.lock = 1 := by
  have hrun := Op.run_of_exec hexec
  simp only [Thread.op, hpc, Option.some.injEq] at hop
  subst hop
  obtain rfl := Option.some.inj hrun
  rfl

theorem type_after {o : Op} {memory memory' : Memory} (hexec : o.exec memory = some memory') :
    memory'.mutex.type = memory.mutex.type := by
  have hrun := Op.run_of_exec hexec
  cases o <;> simp only [Op.run, Option.some.injEq, Option.ite_none_left_eq_some] at hrun
  case endWait tid wakeup => rw [← hrun.2]
  case compareExchange =>
    rw [← hrun]
    split <;> rfl
  all_goals rw [← hrun]

/-! ### All threads -/

section Reachable

variable {ι : Type*} {tid : ι → Int} {calls : ι → List Call}

/-- Threads that are about to make just these calls. -/
def StartsWith (type : MutexType) (tid : ι → Int) (calls : ι → List Call)
    (s : State ι Memory Thread) : Prop :=
  s.shared = ⟨.init type, [], false⟩ ∧
    ∀ i, ∃ wakeups picks, s.thread i = .start (tid i) (calls i) wakeups picks

theorem StartsWith.starts {type : MutexType} {s : State ι Memory Thread}
    (h : StartsWith type tid calls s) : Starts type tid s :=
  ⟨h.1, fun i => ⟨calls i, h.2 i⟩⟩

/-- The depths of all threads, and that `lock` says whether somebody holds the mutex. -/
structure Counted (calls : ι → List Call) (s : State ι Memory Thread) : Prop where
  type_eq : s.shared.mutex.type = .recursive
  nested : ∀ i, ∃ done, calls i = done ++ (s.thread i).calls ∧
    Nested (unmatched done) s.shared.mutex.recursion (s.thread i) ∧ Unlocks done (s.thread i)
  lock_eq : s.shared.mutex.lock = 0 ∨ s.shared.mutex.lock = 1
  taken : s.shared.mutex.lock = 0 → ∃ i, (s.thread i).acquired = true

theorem Counted.start {s : State ι Memory Thread} (h : StartsWith .recursive tid calls s) :
    Counted calls s := by
  obtain ⟨hshared, hthreads⟩ := h
  refine ⟨by rw [hshared]; rfl, fun i => ?_, by rw [hshared]; exact Or.inr rfl, fun hlock => ?_⟩
  · obtain ⟨wakeups, picks, ht⟩ := hthreads i
    rw [ht]
    exact ⟨[], rfl, rfl, nofun⟩
  · rw [hshared] at hlock
    cases hlock

/-- The step of one thread for itself. -/
theorem Counted.own {s : State ι Memory Thread} {i : ι} {o : Op} {memory : Memory}
    (hdepth : ∀ i front, front <+: calls i → unmatched front < 2 ^ 31) (h : Counted calls s)
    (hknows : Knows (tid i) s.shared (s.thread i)) (hop : (s.thread i).op = some o)
    (hexec : o.exec s.shared = some memory) :
    ∃ done, calls i = done ++ ((s.thread i).resume s.shared).calls ∧
      Nested (unmatched done) memory.mutex.recursion ((s.thread i).resume s.shared) ∧
      Unlocks done ((s.thread i).resume s.shared) := by
  obtain ⟨done, hdone, hnested, hunlocks⟩ := h.nested i
  by_cases hpc : (s.thread i).pc = .idle
  · obtain ⟨call, rest, hcalls, hresume, hrest, rfl⟩ := Thread.enters hpc hop hexec
    obtain ⟨henter, hacquired, hunlock⟩ := hnested.enter hpc hcalls
    rw [hresume]
    refine ⟨done ++ [call], ?_, ?_, fun hheld hunlocking => ?_⟩
    · rw [hrest, hdone, hcalls, List.append_assoc]
      rfl
    · rw [unmatched_append_singleton]
      exact henter
    · -- Who holds the mutex between two calls has a lock for this unlock to match.
      obtain rfl := hunlock hunlocking
      have hpositive := ((hnested.idle_iff hpc).1).mp (hacquired ▸ hheld)
      refine ⟨done, rfl, ?_⟩
      rw [unmatched_append_singleton, Call.depth]
      omega
  · refine ⟨done, ?_, ?_, fun hheld hunlocking => ?_⟩
    · rw [Thread.resume_calls hpc]
      exact hdone
    · cases hacquired : (s.thread i).acquired with
      | true =>
          have hn := hdepth i done ⟨_, hdone.symm⟩
          exact hnested.own_held hknows h.type_eq hn hpc hacquired hop hexec
      | false => exact hnested.own_free hknows hpc hacquired h.type_eq hop
    · obtain ⟨hacquired, hbefore⟩ := unlocking_before hknows h.type_eq hpc hheld hunlocking
      exact hunlocks hacquired hbefore

/-- Who does not hold the mutex leaves `recursion` alone. -/
theorem recursion_of_other {s : State ι Memory Thread} {i j : ι} {o : Op} {memory : Memory}
    (h : Exclusive tid s) (hop : (s.thread i).op = some o) (hexec : o.exec s.shared = some memory)
    (hacquired : (s.thread j).acquired = true) (hji : j ≠ i) :
    memory.mutex.recursion = s.shared.mutex.recursion := by
  have hfree : (s.thread i).acquired = false := by
    by_contra hi
    exact hji (h.unique j i hacquired (by simpa using hi))
  rcases mutex_of_not_holderOnly ((h.knows i).free hfree).2 hop hexec with ⟨-, hsame⟩ | ⟨-, hwon⟩
  · rw [hsame]
  · rw [hwon]

/-- `lock` becomes `1` only in a step of the holder that stores it. -/
theorem storeLock_of_lock {s : State ι Memory Thread} {i : ι} {o : Op} {memory : Memory}
    (h : Exclusive tid s) (hop : (s.thread i).op = some o)
    (hexec : o.exec s.shared = some memory) (hlock : s.shared.mutex.lock = 0)
    (hlock' : memory.mutex.lock ≠ 0) :
    (s.thread i).acquired = true ∧ (s.thread i).pc = .storeLock := by
  rcases lock_after hop hexec hlock with hpc | hzero
  · refine ⟨?_, hpc⟩
    by_contra hfree
    have hholder := ((h.knows i).free (by simpa using hfree)).2
    rw [hpc] at hholder
    cases hholder
  · exact absurd hzero hlock'

/-- `lock` says whether the mutex is free. -/
theorem lock_range {s : State ι Memory Thread} {i : ι} {o : Op} {memory : Memory}
    (h : Exclusive tid s) (hlock : s.shared.mutex.lock = 0 ∨ s.shared.mutex.lock = 1)
    (hop : (s.thread i).op = some o) (hexec : o.exec s.shared = some memory) :
    memory.mutex.lock = 0 ∨ memory.mutex.lock = 1 := by
  cases hacquired : (s.thread i).acquired with
  | false =>
      have hholder := ((h.knows i).free hacquired).2
      rcases mutex_of_not_holderOnly hholder hop hexec with ⟨-, hsame⟩ | ⟨-, hwon⟩
      · rw [hsame]
        exact hlock
      · rw [hwon]
        exact Or.inl rfl
  | true =>
      rcases lock_after hop hexec ((h.knows i).held hacquired).1 with hpc | hzero
      · exact Or.inr (lock_of_storeLock hpc hop hexec)
      · exact Or.inl hzero

variable [DecidableEq ι]

/-- As long as `lock` is `0` somebody holds the mutex. -/
theorem taken_advance {s : State ι Memory Thread} {i : ι} {o : Op} {memory : Memory}
    (h : Exclusive tid s) (htaken : s.shared.mutex.lock = 0 → ∃ j, (s.thread j).acquired = true)
    (hop : (s.thread i).op = some o) (hexec : o.exec s.shared = some memory)
    (hlock : memory.mutex.lock = 0) :
    ∃ j, ((s.advance i memory ((s.thread i).resume s.shared)).thread j).acquired = true := by
  cases hacquired : (s.thread i).acquired with
  | true =>
      refine ⟨i, ?_⟩
      rw [State.advance_thread_self]
      apply acquired_resume hacquired
      intro hpc
      have hone := lock_of_storeLock hpc hop hexec
      omega
  | false =>
      have hholder := ((h.knows i).free hacquired).2
      rcases mutex_of_not_holderOnly hholder hop hexec with ⟨-, hsame⟩ | ⟨⟨hpc, hfree⟩, -⟩
      · -- The mutex was taken before, by another thread.
        rw [hsame] at hlock
        obtain ⟨j, hj⟩ := htaken hlock
        have hji : j ≠ i := by
          rintro rfl
          simp [hacquired] at hj
        exact ⟨j, by rwa [State.advance_thread_of_ne _ _ _ hji]⟩
      · refine ⟨i, ?_⟩
        rw [State.advance_thread_self]
        simp [Thread.resume, hpc, hfree]

theorem Counted.advance {s : State ι Memory Thread} {i : ι} {o : Op} {memory : Memory}
    (hdepth : ∀ i front, front <+: calls i → unmatched front < 2 ^ 31) (h : Counted calls s)
    (hexclusive : Exclusive tid s) (hop : (s.thread i).op = some o)
    (hexec : o.exec s.shared = some memory) :
    Counted calls (s.advance i memory ((s.thread i).resume s.shared)) := by
  refine ⟨(type_after hexec).trans h.type_eq, fun j => ?_,
    lock_range hexclusive h.lock_eq hop hexec, taken_advance hexclusive h.taken hop hexec⟩
  by_cases hji : j = i
  · subst j
    rw [State.advance_thread_self]
    exact h.own hdepth (hexclusive.knows i) hop hexec
  · rw [State.advance_thread_of_ne _ _ _ hji, State.advance_shared]
    obtain ⟨done, hdone, hnested, hunlocks⟩ := h.nested j
    refine ⟨done, hdone, ?_, hunlocks⟩
    cases hacquired : (s.thread j).acquired with
    | false => exact hnested.of_free hacquired
    | true =>
        rw [recursion_of_other hexclusive hop hexec hacquired hji]
        exact hnested

theorem counted {s : State ι Memory Thread} (htids : Tids tid)
    (hdepth : ∀ i front, front <+: calls i → unmatched front < 2 ^ 31)
    (hs : (users ι).Reachable (StartsWith .recursive tid calls) s) : Counted calls s := by
  refine hs.induction (I := Counted calls) (fun _ => .start) ?_
  intro s i o memory hs h _ hop hexec
  have hexclusive := exclusion htids (hs.mono (fun _ => StartsWith.starts) fun _ _ => id)
  exact h.advance hdepth hexclusive hop hexec

/-- Recursive nesting: a thread between two calls holds the mutex if and only if it has an
unmatched lock, and `recursion` is the number of them then; `lock` is `0` exactly while a thread
holds the mutex, and it becomes `1` only in a call of `my_mutex_unlock` by the holder that leaves
no unmatched lock, where there was one before. -/
theorem recursiveNesting {s : State ι Memory Thread} (htids : Tids tid)
    (hdepth : ∀ i front, front <+: calls i → unmatched front < 2 ^ 31)
    (hs : (users ι).Reachable (StartsWith .recursive tid calls) s) :
    (∀ i, (s.thread i).pc = .idle →
      ((s.thread i).acquired = true ↔ 0 < unmatched (started (calls i) (s.thread i))) ∧
      ((s.thread i).acquired = true → s.shared.mutex.owner = tid i ∧
        s.shared.mutex.recursion = unmatched (started (calls i) (s.thread i)))) ∧
    (s.shared.mutex.lock = 0 ∨ s.shared.mutex.lock = 1) ∧
    (s.shared.mutex.lock = 0 ↔ ∃ i, (s.thread i).acquired = true) ∧
    ∀ i s', (users ι).step s i = some s' → s.shared.mutex.lock = 0 → s'.shared.mutex.lock = 1 →
      (s.thread i).acquired = true ∧ ∃ front,
        started (calls i) (s.thread i) = front ++ [.unlock] ∧ unmatched front = 1 := by
  have h := counted htids hdepth hs
  have hexclusive := exclusion htids (hs.mono (fun _ => StartsWith.starts) fun _ _ => id)
  refine ⟨fun i hpc => ?_, h.lock_eq, ⟨h.taken, fun ⟨i, hi⟩ => ?_⟩, fun i s' hstep hlock hlock' => ?_⟩
  · obtain ⟨done, hdone, hnested, -⟩ := h.nested i
    obtain ⟨hiff, hrecursion⟩ := hnested.idle_iff hpc
    rw [started_eq hdone]
    refine ⟨hiff, fun hacquired => ⟨?_, hrecursion hacquired⟩⟩
    have howner := ((hexclusive.knows i).held hacquired).2.2
    rwa [hpc] at howner
  · exact ((hexclusive.knows i).held hi).1
  · obtain ⟨o, memory, hop, hexec, rfl⟩ := (users ι).step_eq_some_iff.mp hstep
    rw [State.advance_shared] at hlock'
    obtain ⟨hacquired, hpc⟩ := storeLock_of_lock hexclusive hop hexec hlock (by omega)
    obtain ⟨done, hdone, hnested, hunlocks⟩ := h.nested i
    obtain ⟨front, hfront, hdepth'⟩ := hunlocks hacquired (by rw [hpc]; rfl)
    unfold Nested at hnested
    rw [if_pos hacquired, hpc] at hnested
    change unmatched done = 0 at hnested
    rw [started_eq hdone]
    exact ⟨hacquired, front, hfront, by omega⟩

end Reachable

/-- Thread `0` has locked twice, unlocked once and locked again, while thread `1`, which does not
hold the mutex, unlocks it and sleeps in its lock. -/
theorem recursiveNesting_twice :
    let calls : Nat → List Call := fun i =>
      if i = 0 then [.lock, .lock, .unlock, .lock, .unlock, .unlock] else [.unlock, .lock]
    ∃ s ∈ (users Nat).runIf (fun _ _ => true) (calling .recursive calls)
        (List.replicate 10 0 ++ List.replicate 6 1 ++ List.replicate 9 0),
      s.shared.mutex.owner = 1 ∧ s.shared.mutex.recursion = 2 ∧ s.shared.mutex.lock = 0 := by
  intro calls
  have hdepth : ∀ i front, front <+: calls i → unmatched front < 2 ^ 31 := by
    intro i front hfront
    have hlength := hfront.length_le
    have hle := unmatched_le_length front
    have hcalls : (calls i).length ≤ 6 := by
      by_cases hi : i = 0 <;> simp [calls, hi]
    omega
  have hstart : StartsWith .recursive (fun i : Nat => (i : Int) + 1) calls
      (calling .recursive calls) := ⟨rfl, fun i => ⟨_, _, rfl⟩⟩
  obtain ⟨s, hrun, hs, hpc, hacquired, hdone⟩ :=
    (Program.ReachableUnder.start hstart).exists_runIf (fun _ _ _ => trivial)
      (fun s => (s.thread 0).pc = .idle ∧ (s.thread 0).acquired = true ∧
        started (calls 0) (s.thread 0) = [.lock, .lock, .unlock, .lock])
      (by decide +kernel : ((users Nat).runIf (fun _ _ => true) (calling .recursive calls)
        (List.replicate 10 0 ++ List.replicate 6 1 ++ List.replicate 9 0)).any _ = true)
  obtain ⟨hidle, -, htaken, -⟩ := recursiveNesting tids_succ hdepth hs
  obtain ⟨howner, hrecursion⟩ := (hidle 0 hpc).2 hacquired
  rw [hdone] at hrecursion
  exact ⟨s, hrun, howner, hrecursion, htaken.mpr ⟨0, hacquired⟩⟩

end MyMutex
end OperatingSystems
