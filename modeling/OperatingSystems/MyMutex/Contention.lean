import OperatingSystems.MyMutex.Recursion

/-!
# Waiting under contention

Threads that lock what they do not hold and unlock what they hold, on a mutex of any type.

* `disciplined` — such sequences of calls.
* `InTurn` — the last call that a thread has started says at which statements it can be, and
  none of them is `abort()`.
* `Interrupted` — the sleep that ends next ends with `EINTR`.
* `contention` — as long as no sleep is interrupted, nothing aborts, and `my_mutex_lock` returns
  with the mutex; a step that ends an interrupted sleep goes to `abort()`.
-/

namespace OperatingSystems
namespace MyMutex

open Threads

/-! ### Calls -/

/-- The calls of a thread that does, or does not, hold the mutex. -/
def disciplined : Bool → List Call → Bool
  | _, [] => true
  | false, .lock :: calls => disciplined true calls
  | true, .unlock :: calls => disciplined false calls
  | _, _ => false

/-- The last call is a lock. -/
def lastLock (calls : List Call) : Bool :=
  calls.getLast? == some .lock

@[simp] theorem lastLock_append_singleton (calls : List Call) (call : Call) :
    lastLock (calls ++ [call]) = (call == .lock) := by
  simp [lastLock]

/-- The next call is the other one. -/
theorem disciplined_cons {turn : Bool} {call : Call} {calls : List Call}
    (h : disciplined turn (call :: calls) = true) :
    (call = if turn then .unlock else .lock) ∧ disciplined (call == .lock) calls = true := by
  cases turn with
  | false =>
      cases call with
      | lock => exact ⟨rfl, h⟩
      | unlock => cases h
  | true =>
      cases call with
      | lock => cases h
      | unlock => exact ⟨rfl, h⟩

/-! ### One thread -/

/-- Where a thread can be whose last call was, or was not, a lock. -/
def InTurn (turn : Bool) (recursion : Int) (t : Thread) : Prop :=
  if t.acquired = true then
    match t.pc with
    | .idle => turn = true ∧ recursion = 1
    | .setOwner | .setRecursion => turn = true
    | .unlockOwner | .decRead => turn = false ∧ recursion = 1
    | .decWrite value => turn = false ∧ value = 1
    | .clearOwner | .clearRecursion | .storeLock => turn = false
    | _ => False
  else
    match t.pc with
    | .idle | .futexWake => turn = false
    | .lockTest | .lockOwner | .compareExchange | .futexWait | .asleep => turn = true
    | _ => False

/-- The thread sleeps, and a signal handler is what wakes it up. -/
def Interrupted (memory : Memory) (t : Thread) : Prop :=
  t.pc = .asleep ∧ t.tid ∈ memory.sleepers ∧ t.wakeups 0 = .interrupted

instance (memory : Memory) (t : Thread) : Decidable (Interrupted memory t) :=
  inferInstanceAs (Decidable (_ ∧ _ ∧ _))

variable {turn : Bool} {tid : Int} {memory memory' : Memory} {t : Thread} {o : Op}

theorem InTurn.not_abort {recursion : Int} (h : InTurn turn recursion t) :
    t.pc ≠ .abort ∧ t.pc ≠ .dead := by
  unfold InTurn at h
  constructor
  · intro hpc
    rw [hpc] at h
    simp at h
  · intro hpc
    rw [hpc] at h
    simp at h

theorem InTurn.of_free {recursion recursion' : Int} (h : InTurn turn recursion t)
    (hfree : t.acquired = false) : InTurn turn recursion' t := by
  unfold InTurn at *
  rw [if_neg (by simp [hfree])] at h ⊢
  exact h

/-- A thread between two calls holds the mutex if the last one was a lock. -/
theorem InTurn.acquired_iff {recursion : Int} (h : InTurn turn recursion t) (hpc : t.pc = .idle) :
    t.acquired = true ↔ turn = true := by
  unfold InTurn at h
  rw [hpc] at h
  split at h
  · next hacquired => exact iff_of_true hacquired h.1
  · next hfree =>
    change turn = false at h
    exact iff_of_false hfree (by simp [h])

/-- The step into a call. -/
theorem InTurn.enter {recursion : Int} {call : Call} {calls : List Call}
    (h : InTurn turn recursion t) (hpc : t.pc = .idle) (hcalls : t.calls = call :: calls)
    (hcall : call = if turn then .unlock else .lock) :
    InTurn (call == .lock) recursion t.enter := by
  unfold InTurn at h
  rw [hpc] at h
  unfold Thread.enter
  rw [hcalls]
  split at h
  · next hacquired =>
    obtain ⟨rfl, hrecursion⟩ := h
    subst hcall
    simpa [InTurn, hacquired] using hrecursion
  · next hfree =>
    change turn = false at h
    subst h hcall
    simp [InTurn, hfree]

/-- A step of the holder inside a call. -/
theorem InTurn.own_held (h : InTurn turn memory.mutex.recursion t) (hknows : Knows tid memory t)
    (hpc : t.pc ≠ .idle) (hacquired : t.acquired = true) (hop : t.op = some o)
    (hexec : o.exec memory = some memory') :
    InTurn turn memory'.mutex.recursion (t.resume memory) := by
  have hrun := Op.run_of_exec hexec
  obtain ⟨-, -, howner⟩ := hknows.held hacquired
  have htid := hknows.tid_eq
  unfold InTurn at h
  rw [if_pos hacquired] at h
  unfold Thread.op at hop
  cases ht : t.pc <;>
    simp only [ht, ne_eq, not_true_eq_false, Pc.window, Bool.false_eq_true, if_false]
      at hpc h hop howner
  all_goals
    obtain rfl := Option.some.inj hop
    obtain rfl := Option.some.inj hrun
  case unlockOwner =>
    by_cases htype : memory.mutex.type = .recursive
    · simpa [InTurn, Thread.resume, Thread.unlock, ht, htid, howner, htype, hacquired] using h
    · simpa [InTurn, Thread.resume, Thread.unlock, ht, htid, howner, htype, hacquired] using h.1
  case decWrite value =>
    obtain ⟨hturn, rfl⟩ := h
    have hzero : toInt32 0 = 0 := by decide
    simpa [InTurn, Thread.resume, ht, hacquired, hzero] using hturn
  all_goals simpa [InTurn, Thread.resume, ht, hacquired] using h

/-- A step of another thread inside a call, unless its sleep is interrupted. -/
theorem InTurn.own_free (h : InTurn turn memory.mutex.recursion t) (hknows : Knows tid memory t)
    (hpc : t.pc ≠ .idle) (hfree : t.acquired = false) (hsleep : ¬Interrupted memory t) :
    InTurn turn memory'.mutex.recursion (t.resume memory) := by
  obtain ⟨howner, -⟩ := hknows.free hfree
  rw [← hknows.tid_eq] at howner
  unfold InTurn at h
  rw [if_neg (by simp [hfree])] at h
  cases ht : t.pc <;> simp only [ht, ne_eq, not_true_eq_false] at hpc h
  case lockTest =>
    by_cases hlock : memory.mutex.lock = 0 <;>
      simpa [InTurn, Thread.resume, ht, hlock, hfree] using h
  case lockOwner =>
    simpa [InTurn, Thread.resume, ht, howner, hfree] using h
  case compareExchange =>
    by_cases hlock : memory.mutex.lock = 1 <;>
      simpa [InTurn, Thread.resume, ht, hlock, hfree] using h
  case futexWait =>
    by_cases hlock : memory.mutex.lock = 0 <;>
      simpa [InTurn, Thread.resume, ht, hlock, hfree] using h
  case asleep =>
    have hwakeup : ¬(t.tid ∈ memory.sleepers ∧ t.wakeups 0 = .interrupted) :=
      fun hinterrupted => hsleep ⟨ht, hinterrupted⟩
    simpa [InTurn, Thread.resume, ht, hwakeup, hfree] using h
  case futexWake =>
    simpa [InTurn, Thread.resume, ht, hfree] using h

/-- An interrupted sleep ends the process. -/
theorem resume_interrupted (h : Interrupted memory t) : (t.resume memory).pc = .abort := by
  obtain ⟨hpc, hsleeps, hwakeup⟩ := h
  simp [Thread.resume, hpc, hsleeps, hwakeup]

theorem aborted_after (hop : t.op = some o) (hexec : o.exec memory = some memory')
    (hpc : t.pc ≠ .abort) : memory'.aborted = memory.aborted := by
  have hrun := Op.run_of_exec hexec
  cases o <;> simp only [Op.run, Option.some.injEq, Option.ite_none_left_eq_some] at hrun
  case endWait tid wakeup => rw [← hrun.2]
  case compareExchange =>
    rw [← hrun]
    split <;> rfl
  case abort =>
    unfold Thread.op at hop
    cases ht : t.pc <;> simp [ht] at hop hpc
  all_goals rw [← hrun]

/-! ### All threads -/

section Reachable

variable {ι : Type*} {type : MutexType} {tid : ι → Int} {calls : ι → List Call}

/-- Every thread is where its last call allows it to be. -/
structure InOrder (calls : ι → List Call) (s : State ι Memory Thread) : Prop where
  alive : s.shared.aborted = false
  turns : ∀ i, ∃ done, calls i = done ++ (s.thread i).calls ∧
    disciplined (lastLock done) (s.thread i).calls = true ∧
    InTurn (lastLock done) s.shared.mutex.recursion (s.thread i)

theorem InOrder.start (hcalls : ∀ i, disciplined false (calls i) = true)
    {s : State ι Memory Thread} (h : StartsWith type tid calls s) : InOrder calls s := by
  obtain ⟨hshared, hthreads⟩ := h
  refine ⟨by rw [hshared], fun i => ?_⟩
  obtain ⟨wakeups, picks, ht⟩ := hthreads i
  rw [ht]
  exact ⟨[], rfl, hcalls i, rfl⟩

/-- The step of one thread for itself. -/
theorem InOrder.own {s : State ι Memory Thread} {i : ι} {memory : Memory} (h : InOrder calls s)
    (hknows : Knows (tid i) s.shared (s.thread i)) (hsleep : ¬Interrupted s.shared (s.thread i))
    (hop : (s.thread i).op = some o) (hexec : o.exec s.shared = some memory) :
    ∃ done, calls i = done ++ ((s.thread i).resume s.shared).calls ∧
      disciplined (lastLock done) ((s.thread i).resume s.shared).calls = true ∧
      InTurn (lastLock done) memory.mutex.recursion ((s.thread i).resume s.shared) := by
  obtain ⟨done, hdone, hdisciplined, hturn⟩ := h.turns i
  by_cases hpc : (s.thread i).pc = .idle
  · obtain ⟨call, rest, hcalls, hresume, hrest, rfl⟩ := Thread.enters hpc hop hexec
    rw [hcalls] at hdisciplined
    obtain ⟨hcall, hnext⟩ := disciplined_cons hdisciplined
    rw [hresume]
    refine ⟨done ++ [call], ?_, ?_, ?_⟩
    · rw [hrest, hdone, hcalls, List.append_assoc]
      rfl
    · rw [hrest, lastLock_append_singleton]
      exact hnext
    · rw [lastLock_append_singleton]
      exact hturn.enter hpc hcalls hcall
  · refine ⟨done, ?_, ?_, ?_⟩
    · rw [Thread.resume_calls hpc]
      exact hdone
    · rw [Thread.resume_calls hpc]
      exact hdisciplined
    · cases hacquired : (s.thread i).acquired with
      | true => exact hturn.own_held hknows hpc hacquired hop hexec
      | false => exact hturn.own_free hknows hpc hacquired hsleep

variable [DecidableEq ι]

theorem InOrder.advance {s : State ι Memory Thread} {i : ι} {memory : Memory}
    (h : InOrder calls s) (hexclusive : Exclusive tid s)
    (hsleep : ¬Interrupted s.shared (s.thread i)) (hop : (s.thread i).op = some o)
    (hexec : o.exec s.shared = some memory) :
    InOrder calls (s.advance i memory ((s.thread i).resume s.shared)) := by
  have hmine := hexclusive.knows i
  refine ⟨?_, fun j => ?_⟩
  · obtain ⟨done, -, -, hturn⟩ := h.turns i
    rw [State.advance_shared, aborted_after hop hexec hturn.not_abort.1]
    exact h.alive
  · by_cases hji : j = i
    · subst j
      rw [State.advance_thread_self]
      exact h.own hmine hsleep hop hexec
    · rw [State.advance_thread_of_ne _ _ _ hji, State.advance_shared]
      obtain ⟨done, hdone, hdisciplined, hturn⟩ := h.turns j
      refine ⟨done, hdone, hdisciplined, ?_⟩
      cases hacquired : (s.thread j).acquired with
      | false => exact hturn.of_free hacquired
      | true =>
          rw [recursion_of_other hexclusive hop hexec hacquired hji]
          exact hturn

theorem inOrder {s : State ι Memory Thread} (htids : Tids tid)
    (hcalls : ∀ i, disciplined false (calls i) = true)
    (hs : (users ι).ReachableUnder (StartsWith type tid calls)
      (fun s i => ¬Interrupted s.shared (s.thread i)) s) : InOrder calls s := by
  refine hs.induction (I := InOrder calls) (fun _ => .start hcalls) ?_
  intro s i o memory hs h hsleep hop hexec
  have hexclusive := exclusion htids (hs.reachable.mono (fun _ => StartsWith.starts) fun _ _ => id)
  exact h.advance hexclusive hsleep hop hexec

/-- Contention: as long as no sleep in the futex is interrupted, the process has not aborted and
no thread is about to, whatever else ends the sleeps, and a thread whose `my_mutex_lock` has
returned holds the mutex.  An interrupted sleep, and nothing else, is followed by `abort()`. -/
theorem contention {s : State ι Memory Thread} (htids : Tids tid)
    (hcalls : ∀ i, disciplined false (calls i) = true)
    (hs : (users ι).ReachableUnder (StartsWith type tid calls)
      (fun s i => ¬Interrupted s.shared (s.thread i)) s) :
    s.shared.aborted = false ∧
    (∀ i, (s.thread i).pc ≠ .abort ∧ (s.thread i).pc ≠ .dead) ∧
    (∀ i, (s.thread i).pc = .idle → (started (calls i) (s.thread i)).getLast? = some .lock →
      (s.thread i).acquired = true ∧ s.shared.mutex.lock = 0 ∧ s.shared.mutex.owner = tid i) ∧
    ∀ i s', (users ι).step s i = some s' →
      ((s'.thread i).pc = .abort ↔ Interrupted s.shared (s.thread i)) := by
  have h := inOrder htids hcalls hs
  have hexclusive := exclusion htids (hs.reachable.mono (fun _ => StartsWith.starts) fun _ _ => id)
  refine ⟨h.alive, fun i => ?_, fun i hpc hlast => ?_, fun i s' hstep => ⟨fun habort => ?_, ?_⟩⟩
  · obtain ⟨done, -, -, hturn⟩ := h.turns i
    exact hturn.not_abort
  · obtain ⟨done, hdone, -, hturn⟩ := h.turns i
    rw [started_eq hdone] at hlast
    have hacquired := (hturn.acquired_iff hpc).mpr (by simp [lastLock, hlast])
    obtain ⟨hlock, -, howner⟩ := (hexclusive.knows i).held hacquired
    rw [hpc] at howner
    exact ⟨hacquired, hlock, howner⟩
  · by_contra hsleep
    obtain ⟨done, -, -, hturn⟩ := (inOrder htids hcalls (hs.step hsleep hstep)).turns i
    exact hturn.not_abort.1 habort
  · intro hinterrupted
    obtain ⟨o, memory, -, -, rfl⟩ := (users ι).step_eq_some_iff.mp hstep
    rw [State.advance_thread_self]
    exact resume_interrupted hinterrupted

end Reachable

/-- Two threads that lock and unlock, all of whose sleeps end in this way. -/
def contending (wakeup : Wakeup) : State Nat Memory Thread :=
  ⟨⟨.init .normal, [], false⟩,
    fun i => .start (i + 1) [.lock, .unlock] (fun _ => wakeup) fun _ => 0⟩

theorem startsWith_contending (wakeup : Wakeup) :
    StartsWith .normal (fun i : Nat => (i : Int) + 1) (fun _ => [.lock, .unlock])
      (contending wakeup) :=
  ⟨rfl, fun _ => ⟨_, _, rfl⟩⟩

/-- Thread `1` has slept and returned for no reason, and gets the mutex in the end. -/
theorem contention_spurious :
    ∃ s ∈ (users Nat).runIf (fun s i => decide ¬Interrupted s.shared (s.thread i))
        (contending .spurious)
        (List.replicate 5 0 ++ List.replicate 7 1 ++ List.replicate 6 0 ++ List.replicate 4 1),
      s.shared.aborted = false ∧ (s.thread 1).acquired = true ∧ s.shared.mutex.owner = 2 := by
  have hstart : (users Nat).ReachableUnder _ (fun s i => ¬Interrupted s.shared (s.thread i)) _ :=
    .start (startsWith_contending .spurious)
  obtain ⟨s, hrun, hs, hpc, hlast⟩ :=
    hstart.exists_runIf (fun s i htest => of_decide_eq_true htest)
      (fun s => (s.thread 1).pc = .idle ∧
        (started [.lock, .unlock] (s.thread 1)).getLast? = some .lock)
      (by decide +kernel : ((users Nat).runIf
        (fun s i => decide ¬Interrupted s.shared (s.thread i)) (contending .spurious)
        (List.replicate 5 0 ++ List.replicate 7 1 ++ List.replicate 6 0 ++
          List.replicate 4 1)).any _ = true)
  obtain ⟨halive, -, hreturned, -⟩ := contention tids_succ (fun _ => rfl) hs
  obtain ⟨hacquired, -, howner⟩ := hreturned 1 hpc hlast
  exact ⟨s, hrun, halive, hacquired, howner⟩

/-- A signal handler runs while thread `1` sleeps. -/
theorem contention_interrupted_false :
    ¬∀ (type : MutexType) (tid : Nat → Int) (calls : Nat → List Call)
      (s : State Nat Memory Thread), Tids tid → (∀ i, disciplined false (calls i) = true) →
        (users Nat).Reachable (StartsWith type tid calls) s → s.shared.aborted = false := by
  intro h
  obtain ⟨s, -, hs, haborted⟩ :=
    (Program.ReachableUnder.start (startsWith_contending .interrupted)).exists_runIf
      (fun _ _ _ => trivial) (fun s => s.shared.aborted = true)
      (by decide +kernel : ((users Nat).runIf (fun _ _ => true) (contending .interrupted)
        (List.replicate 5 0 ++ List.replicate 7 1)).any _ = true)
  have halive := h _ _ _ s tids_succ (fun _ => rfl) hs
  rw [haborted] at halive
  cases halive

end MyMutex
end OperatingSystems
