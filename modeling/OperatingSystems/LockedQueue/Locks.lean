import OperatingSystems.Library.CriticalSections
import OperatingSystems.MyMutex.Exclusion

/-!
# The home-made locks

`my_mutex` and `my_spinlock` under threads that lock and unlock in turn, which is how the reader
and the writer of the queue use them.

* `myMutex_excludes` — a mutex of the type `MY_MUTEX_NORMAL` lets one thread at a time into the
  code between its two functions.
* `mySpinlock_excludes` — so does the spinlock, however often a compare-exchange fails without a
  reason.
-/

namespace OperatingSystems
namespace LockedQueue

open Threads CriticalSections

/-! ### `my_mutex` -/

section Mutex

open MyMutex

variable {ι : Type*}

/-- The functions of `my_mutex`.  After `abort()` the model still lets the other thread go on until
it calls the mutex again. -/
def myMutex (ι : Type*) : LockCode ι MyMutex.Memory MyMutex.Thread MyMutex.Op where
  toProgram := users ι
  callLock t := { t with calls := [.lock] }
  callUnlock t := { t with calls := [.unlock] }
  returned t := t.pc = .idle && t.calls = []

/-- `my_mutex_init(&lock, MY_MUTEX_NORMAL)`, and threads that have not called it. -/
def StartsMutex (tid : ι → Int) (s : State ι MyMutex.Memory (Use MyMutex.Thread)) : Prop :=
  s.shared = ⟨.init .normal, [], false⟩ ∧
    ∀ i, ∃ wakeups picks, s.thread i = ⟨.outside, .start (tid i) [] wakeups picks⟩

/-- Where a thread is in the code of the mutex, which calls it still has to make, and whether it
has acquired the mutex. -/
inductive Follows : Phase → MyMutex.Pc → List Call → Bool → Prop
  | outside : Follows .outside .idle [] false
  | calls : Follows .locking .idle [.lock] false
  | lockTest : Follows .locking .lockTest [] false
  | lockOwner : Follows .locking .lockOwner [] false
  | compareExchange : Follows .locking .compareExchange [] false
  | futexWait : Follows .locking .futexWait [] false
  | asleep : Follows .locking .asleep [] false
  | abort : Follows .locking .abort [] false
  | dead : Follows .locking .dead [] false
  | setOwner : Follows .locking .setOwner [] true
  | setRecursion : Follows .locking .setRecursion [] true
  | locked : Follows .locking .idle [] true
  | inside : Follows .inside .idle [] true
  | leaves : Follows .unlocking .idle [.unlock] true
  | unlockOwner : Follows .unlocking .unlockOwner [] true
  | clearOwner : Follows .unlocking .clearOwner [] true
  | clearRecursion : Follows .unlocking .clearRecursion [] true
  | storeLock : Follows .unlocking .storeLock [] true
  | futexWake : Follows .unlocking .futexWake [] false
  | unlocked : Follows .unlocking .idle [] false

/-- The thread is where it should be. -/
def OnTrack (u : Use MyMutex.Thread) : Prop :=
  Follows u.phase u.lock.pc u.lock.calls u.lock.acquired

/-- A thread outside or inside, or one whose call has returned, is between two calls. -/
theorem OnTrack.rests {p : Phase} {t : MyMutex.Thread} (h : OnTrack ⟨p, t⟩)
    (hp : p = .outside ∨ p = .inside ∨ (myMutex ι).returned t = true) :
    t.pc = .idle ∧ t.calls = [] ∧ t.acquired = decide (p = .locking ∨ p = .inside) := by
  unfold OnTrack at h
  simp only [myMutex, Bool.and_eq_true, decide_eq_true_eq] at hp
  generalize t.pc = pc at h hp ⊢
  generalize t.calls = calls at h hp ⊢
  generalize t.acquired = acquired at h ⊢
  cases h <;> simp at hp ⊢

/-- The type is never written. -/
theorem type_of_exec {o : MyMutex.Op} {memory memory' : MyMutex.Memory}
    (hexec : o.exec memory = some memory') : memory'.mutex.type = memory.mutex.type := by
  have hrun := Op.run_of_exec hexec
  cases o <;> simp only [Op.run, Option.some.injEq, Option.ite_none_left_eq_some] at hrun
  case compareExchange =>
    subst hrun
    split <;> rfl
  case endWait => exact hrun.2 ▸ rfl
  all_goals exact hrun ▸ rfl

/-- A step of the mutex. -/
theorem OnTrack.run {tid : Int} {memory : MyMutex.Memory} {p : Phase} {t : MyMutex.Thread}
    {o : MyMutex.Op} (h : OnTrack ⟨p, t⟩) (hknows : MyMutex.Knows tid memory t)
    (htype : memory.mutex.type = .normal) (hop : t.op = some o) :
    OnTrack ⟨p, t.resume memory⟩ := by
  unfold OnTrack at h ⊢
  unfold MyMutex.Thread.op at hop
  obtain ⟨rfl, hheld, hfree⟩ := hknows
  generalize hpc : t.pc = pc at h
  generalize hcalls : t.calls = calls at h
  generalize hacquired : t.acquired = acquired at h
  cases h <;> simp only [hpc, hcalls, reduceCtorEq, if_true] at hop <;>
    simp only [MyMutex.Thread.resume, hpc]
  case calls =>
    simp only [MyMutex.Thread.enter, hcalls, hacquired]
    exact .lockTest
  case lockTest =>
    by_cases hlock : memory.mutex.lock = 0 <;> simp only [hlock, hcalls, hacquired, if_true, if_false]
    · exact .lockOwner
    · exact .compareExchange
  case lockOwner =>
    -- `owner` is not this thread: nobody but the thread itself would have set it
    rw [if_neg (hfree hacquired).1, hcalls, hacquired]
    exact .compareExchange
  case compareExchange =>
    by_cases hlock : memory.mutex.lock = 1 <;> simp only [hlock, hcalls, hacquired, if_true, if_false]
    · exact .setOwner
    · exact .futexWait
  case futexWait =>
    by_cases hlock : memory.mutex.lock = 0 <;> simp only [hlock, hcalls, hacquired, if_true, if_false]
    · exact .asleep
    · exact .compareExchange
  case asleep =>
    rw [hcalls, hacquired]
    split
    · exact .abort
    · exact .compareExchange
  case abort =>
    rw [hcalls, hacquired]
    exact .dead
  case setOwner =>
    rw [hcalls, hacquired]
    exact .setRecursion
  case setRecursion =>
    rw [hcalls, hacquired]
    exact .locked
  case leaves =>
    simp only [MyMutex.Thread.enter, hcalls, hacquired]
    exact .unlockOwner
  case unlockOwner =>
    have howner : memory.mutex.owner = t.tid := by
      have hheld := (hheld hacquired).2.2
      simpa [hpc, MyMutex.Pc.window] using hheld
    simp only [MyMutex.Thread.unlock, howner, htype, hcalls, hacquired, ne_eq, not_true_eq_false, if_false,
      reduceCtorEq]
    exact .clearOwner
  case clearOwner =>
    rw [hcalls, hacquired]
    exact .clearRecursion
  case clearRecursion =>
    rw [hcalls, hacquired]
    exact .storeLock
  case storeLock =>
    rw [hcalls]
    exact .futexWake
  case futexWake =>
    rw [hcalls, hacquired]
    exact .unlocked

/-- The mutex and its threads without their phases. -/
def mutexOf (s : State ι MyMutex.Memory (Use MyMutex.Thread)) :
    State ι MyMutex.Memory MyMutex.Thread :=
  s.map id Use.lock

/-- What holds of the mutex and its threads. -/
structure MutexUse (tid : ι → Int) (s : State ι MyMutex.Memory (Use MyMutex.Thread)) : Prop where
  exclusive : Exclusive tid (mutexOf s)
  normal : s.shared.mutex.type = .normal
  track : ∀ i, OnTrack (s.thread i)

namespace MutexUse

variable {tid : ι → Int} {s : State ι MyMutex.Memory (Use MyMutex.Thread)} {i : ι}

theorem start (htids : Tids tid) (hs : StartsMutex tid s) : MutexUse tid s := by
  obtain ⟨hshared, hthreads⟩ := hs
  have hstarts : MyMutex.Starts .normal tid (mutexOf s) := by
    refine ⟨hshared, fun i => ?_⟩
    obtain ⟨wakeups, picks, ht⟩ := hthreads i
    exact ⟨[], wakeups, picks, congrArg Use.lock ht⟩
  refine ⟨.start htids hstarts, ?_, fun i => ?_⟩
  · rw [hshared]
    rfl
  · obtain ⟨wakeups, picks, ht⟩ := hthreads i
    rw [ht]
    exact .outside

/-- While a thread is inside, it has acquired the mutex. -/
theorem lock_of_inside (h : MutexUse tid s) (hi : (s.thread i).phase = .inside) :
    (s.thread i).lock.acquired = true ∧ s.shared.mutex.lock = 0 := by
  have hrests := (h.track i).rests (ι := ι) (.inr (.inl hi))
  have hacquired : (s.thread i).lock.acquired = true := by
    rw [hrests.2.2, hi]
    rfl
  exact ⟨hacquired, ((h.exclusive.knows i).held hacquired).1⟩

variable [DecidableEq ι]

/-- A thread whose state of the mutex is the same but for the calls that it makes. -/
theorem goOn (h : MutexUse tid s) {u : Use MyMutex.Thread} (hpc : u.lock.pc = (s.thread i).lock.pc)
    (htid : u.lock.tid = (s.thread i).lock.tid)
    (hacquired : u.lock.acquired = (s.thread i).lock.acquired) (htrack : OnTrack u) :
    MutexUse tid (s.advance i s.shared u) := by
  have hlock : ∀ j,
      ((mutexOf (s.advance i s.shared u)).thread j).pc = ((mutexOf s).thread j).pc ∧
      ((mutexOf (s.advance i s.shared u)).thread j).tid = ((mutexOf s).thread j).tid ∧
      ((mutexOf (s.advance i s.shared u)).thread j).acquired =
        ((mutexOf s).thread j).acquired := by
    intro j
    rw [mutexOf, State.map_advance]
    by_cases hji : j = i
    · subst hji
      rw [State.advance_thread_self]
      exact ⟨hpc, htid, hacquired⟩
    · rw [State.advance_thread_of_ne _ _ _ hji]
      exact ⟨rfl, rfl, rfl⟩
  refine ⟨⟨fun j => ?_, fun j k hj hk => ?_, h.exclusive.unlocked⟩, h.normal, fun j => ?_⟩
  · obtain ⟨hpc, htid, hacquired⟩ := hlock j
    have hknows := h.exclusive.knows j
    refine ⟨htid.trans hknows.tid_eq, fun hheld => ?_, fun hfree => ?_⟩
    · rw [hpc]
      exact hknows.held (hacquired ▸ hheld)
    · rw [hpc]
      exact hknows.free (hacquired ▸ hfree)
  · exact h.exclusive.unique j k ((hlock j).2.2 ▸ hj) ((hlock k).2.2 ▸ hk)
  · by_cases hji : j = i
    · subst hji
      rw [State.advance_thread_self]
      exact htrack
    · rw [State.advance_thread_of_ne _ _ _ hji]
      exact h.track j

/-- A step of the code of the mutex. -/
theorem run (htids : Tids tid) (h : MutexUse tid s) {p : Phase} {t : MyMutex.Thread}
    (ht : s.thread i = ⟨p, t⟩) {o : MyMutex.Op} {memory : MyMutex.Memory} (hop : t.op = some o)
    (hexec : o.exec s.shared = some memory) :
    MutexUse tid (s.advance i memory ⟨p, t.resume s.shared⟩) := by
  have hlock : (mutexOf s).thread i = t := congrArg Use.lock ht
  have hview : mutexOf (s.advance i memory ⟨p, t.resume s.shared⟩) =
      (mutexOf s).advance i memory (((mutexOf s).thread i).resume (mutexOf s).shared) := by
    rw [hlock]
    exact s.map_advance i memory _ id Use.lock
  refine ⟨?_, (type_of_exec hexec).trans h.normal, fun j => ?_⟩
  · rw [hview]
    exact h.exclusive.advance htids (by rw [hlock, hop]) hexec
  · by_cases hji : j = i
    · subst hji
      rw [State.advance_thread_self]
      have htrack := h.track j
      have hknows := h.exclusive.knows j
      rw [ht] at htrack
      rw [hlock] at hknows
      exact htrack.run hknows h.normal hop
    · rw [State.advance_thread_of_ne _ _ _ hji]
      exact h.track j

/-- A step of one thread. -/
theorem step (htids : Tids tid) (h : MutexUse tid s) {memory : MyMutex.Memory}
    {u : Use MyMutex.Thread} (hstep : (myMutex ι).Step i s.shared (s.thread i) memory u) :
    MutexUse tid (s.advance i memory u) := by
  have htrack := h.track i
  generalize hshared : s.shared = before at hstep
  generalize ht : s.thread i = t at hstep htrack
  cases hstep with
  | run hp hop hexec =>
      subst hshared
      exact h.run htids ht hop hexec
  | call =>
      obtain ⟨hpc, -, hacquired⟩ := htrack.rests (ι := ι) (.inl rfl)
      refine hshared ▸ h.goOn (by rw [ht]; rfl) (by rw [ht]; rfl) (by rw [ht]; rfl) ?_
      simp only [OnTrack, myMutex, hpc, hacquired]
      exact .calls
  | enter hreturned =>
      obtain ⟨hpc, hcalls, hacquired⟩ := htrack.rests (.inr (.inr hreturned))
      refine hshared ▸ h.goOn (by rw [ht]) (by rw [ht]) (by rw [ht]) ?_
      simp only [OnTrack, hpc, hcalls, hacquired]
      exact .inside
  | leave =>
      obtain ⟨hpc, -, hacquired⟩ := htrack.rests (ι := ι) (.inr (.inl rfl))
      refine hshared ▸ h.goOn (by rw [ht]; rfl) (by rw [ht]; rfl) (by rw [ht]; rfl) ?_
      simp only [OnTrack, myMutex, hpc, hacquired]
      exact .leaves
  | exit hreturned =>
      obtain ⟨hpc, hcalls, hacquired⟩ := htrack.rests (.inr (.inr hreturned))
      refine hshared ▸ h.goOn (by rw [ht]) (by rw [ht]) (by rw [ht]) ?_
      simp only [OnTrack, hpc, hcalls, hacquired]
      exact .outside

theorem of_uses (htids : Tids tid) (hs : (myMutex ι).Uses (StartsMutex tid) s) : MutexUse tid s := by
  induction hs with
  | start hs => exact .start htids hs
  | step _ hstep ih => exact ih.step htids hstep

end MutexUse

/-- `my_mutex` of the type `MY_MUTEX_NORMAL` lets one thread at a time inside. -/
theorem myMutex_excludes [DecidableEq ι] {tid : ι → Int} (htids : Tids tid) :
    (myMutex ι).Excludes (StartsMutex tid) fun memory => memory.mutex.lock = 1 := by
  refine ⟨fun {_} hs {i j} hi hj => ?_, fun {_} hs hfree i hi => ?_⟩
  · have h := MutexUse.of_uses htids hs
    exact h.exclusive.unique i j (h.lock_of_inside hi).1 (h.lock_of_inside hj).1
  · have hzero := ((MutexUse.of_uses htids hs).lock_of_inside hi).2
    omega

end Mutex
/-! ### `my_spinlock` -/

section Spinlock

/-- The statement of `my_spinlock` that comes next. -/
inductive SpinPc
  | returned
  -- `atomic_compare_exchange_weak` of `my_spinlock_lock`
  | exchange
  -- `atomic_compare_exchange_strong` of `my_spinlock_unlock`
  | release
  deriving DecidableEq

/-- One thread; `fails` says which of its weak compare-exchanges fail although the lock is
free. -/
structure Spinner where
  pc : SpinPc
  fails : Nat → Bool

/-- The accesses to `lock`. -/
inductive SpinOp
  | exchange (fails : Bool)
  | release

/-- The effect of an access. -/
def SpinOp.exec (lock : Int) : SpinOp → Int
  | .exchange fails => if lock = 1 ∧ fails = false then 0 else lock
  | .release => if lock = 0 then 1 else lock

variable {ι : Type*}

/-- The functions of `my_spinlock`. -/
def mySpinlock (ι : Type*) : LockCode ι Int Spinner SpinOp where
  op t :=
    match t.pc with
    | .returned => none
    | .exchange => some (.exchange (t.fails 0))
    | .release => some .release
  exec _ o lock := some (o.exec lock)
  resume lock t :=
    match t.pc with
    | .returned => t
    | .exchange =>
        { pc := if lock = 1 ∧ t.fails 0 = false then .returned else .exchange
          fails := fun n => t.fails (n + 1) }
    | .release => { t with pc := .returned }
  callLock t := { t with pc := .exchange }
  callUnlock t := { t with pc := .release }
  returned t := t.pc = .returned

/-- `my_spinlock_init(&lock)`, and threads that have not called it. -/
def StartsSpinlock (s : State ι Int (Use Spinner)) : Prop :=
  s.shared = 1 ∧ ∀ i, ∃ fails, s.thread i = ⟨.outside, ⟨.returned, fails⟩⟩

/-- The thread has set `lock` to `0`, and not yet to `1`. -/
def Holds (u : Use Spinner) : Prop :=
  match u.phase with
  | .outside => False
  | .locking => u.lock.pc = .returned
  | .inside => True
  | .unlocking => u.lock.pc = .release

/-- Where a thread is in the code of the spinlock. -/
def Spins (u : Use Spinner) : Prop :=
  match u.phase with
  | .outside | .inside => u.lock.pc = .returned
  | .locking => u.lock.pc = .exchange ∨ u.lock.pc = .returned
  | .unlocking => u.lock.pc = .release ∨ u.lock.pc = .returned

/-- What holds of the spinlock and its threads. -/
structure SpinlockUse (s : State ι Int (Use Spinner)) : Prop where
  spins : ∀ i, Spins (s.thread i)
  unique : ∀ {i j}, Holds (s.thread i) → Holds (s.thread j) → i = j
  held : ∀ {i}, Holds (s.thread i) → s.shared = 0
  bit : s.shared = 0 ∨ s.shared = 1

namespace SpinlockUse

variable {s : State ι Int (Use Spinner)} {i : ι}

theorem start (hs : StartsSpinlock s) : SpinlockUse s := by
  obtain ⟨hshared, hthreads⟩ := hs
  have hfree : ∀ i, ¬ Holds (s.thread i) := by
    intro i
    obtain ⟨fails, ht⟩ := hthreads i
    simp [ht, Holds]
  refine ⟨fun i => ?_, fun hi => absurd hi (hfree _), fun hi => absurd hi (hfree _), .inr hshared⟩
  obtain ⟨fails, ht⟩ := hthreads i
  simp [ht, Spins]

variable [DecidableEq ι]

/-- A step after which the holders are as described, and `lock` fits them. -/
theorem advance (h : SpinlockUse s) {lock : Int} {u : Use Spinner} (hspins : Spins u)
    (hothers : Holds u → ∀ j, j ≠ i → ¬ Holds (s.thread j))
    (hheld : ∀ j, Holds ((s.advance i lock u).thread j) → lock = 0) (hbit : lock = 0 ∨ lock = 1) :
    SpinlockUse (s.advance i lock u) := by
  refine ⟨fun j => ?_, fun {j k} hj hk => ?_, fun {j} => hheld j, hbit⟩
  · by_cases hji : j = i
    · subst hji
      rw [State.advance_thread_self]
      exact hspins
    · rw [State.advance_thread_of_ne _ _ _ hji]
      exact h.spins j
  · by_cases hji : j = i
    · subst hji
      by_contra hjk
      rw [State.advance_thread_self] at hj
      rw [State.advance_thread_of_ne _ _ _ (Ne.symm hjk)] at hk
      exact hothers hj k (Ne.symm hjk) hk
    · rw [State.advance_thread_of_ne _ _ _ hji] at hj
      by_cases hki : k = i
      · subst hki
        rw [State.advance_thread_self] at hk
        exact absurd hj (hothers hk j hji)
      · rw [State.advance_thread_of_ne _ _ _ hki] at hk
        exact h.unique hj hk

/-- A step that leaves `lock` and the holders alone. -/
theorem goOn (h : SpinlockUse s) {u : Use Spinner} (hspins : Spins u)
    (hholds : Holds u → Holds (s.thread i)) : SpinlockUse (s.advance i s.shared u) := by
  refine h.advance hspins (fun hu j hji hj => hji (h.unique hj (hholds hu))) (fun j hj => ?_) h.bit
  by_cases hji : j = i
  · subst hji
    rw [State.advance_thread_self] at hj
    exact h.held (hholds hj)
  · rw [State.advance_thread_of_ne _ _ _ hji] at hj
    exact h.held hj

/-- A step of one thread. -/
theorem step (h : SpinlockUse s) {lock : Int} {u : Use Spinner}
    (hstep : (mySpinlock ι).Step i s.shared (s.thread i) lock u) :
    SpinlockUse (s.advance i lock u) := by
  have hspins := h.spins i
  generalize hshared : s.shared = before at hstep
  generalize ht : s.thread i = t at hstep hspins
  cases hstep with
  | call => exact hshared ▸ h.goOn (.inl rfl) (by simp [Holds, mySpinlock])
  | enter hreturned =>
      have hpc := of_decide_eq_true hreturned
      refine hshared ▸ h.goOn hpc fun _ => ?_
      rw [ht]
      exact hpc
  | leave =>
      refine hshared ▸ h.goOn (.inl rfl) fun _ => ?_
      rw [ht]
      trivial
  | exit hreturned =>
      have hpc := of_decide_eq_true hreturned
      exact hshared ▸ h.goOn hpc fun hu => hu.elim
  | @run _ p t o hp hop hexec =>
      subst hshared
      obtain rfl := Option.some.inj hexec
      obtain rfl | rfl := hp
      · obtain hpc | hpc : t.pc = .exchange ∨ t.pc = .returned := hspins
        · simp only [mySpinlock, hpc, Option.some.injEq] at hop ⊢
          subst hop
          by_cases hwins : s.shared = 1 ∧ t.fails 0 = false
          · -- the exchange succeeds, so nobody holds the lock
            simp only [SpinOp.exec, if_pos hwins]
            refine h.advance (.inr rfl) (fun _ j _ hj => ?_) (fun _ _ => rfl) (.inl rfl)
            have hzero := h.held hj
            omega
          · simp only [SpinOp.exec, if_neg hwins]
            exact h.goOn (.inl rfl) (by simp [Holds])
        · simp [mySpinlock, hpc] at hop
      · obtain hpc | hpc : t.pc = .release ∨ t.pc = .returned := hspins
        · simp only [mySpinlock, hpc, Option.some.injEq] at hop ⊢
          subst hop
          have hholds : Holds (s.thread i) := by
            rw [ht]
            exact hpc
          simp only [SpinOp.exec, if_pos (h.held hholds)]
          refine h.advance (.inr rfl) (by simp [Holds]) (fun j hj => ?_) (.inr rfl)
          -- the thread was the only holder
          by_cases hji : j = i
          · subst hji
            rw [State.advance_thread_self] at hj
            simp [Holds] at hj
          · rw [State.advance_thread_of_ne _ _ _ hji] at hj
            exact absurd (h.unique hj hholds) hji
        · simp [mySpinlock, hpc] at hop

theorem of_uses (hs : (mySpinlock ι).Uses StartsSpinlock s) : SpinlockUse s := by
  induction hs with
  | start hs => exact .start hs
  | step _ hstep ih => exact ih.step hstep

end SpinlockUse

/-- `my_spinlock` lets one thread at a time inside. -/
theorem mySpinlock_excludes [DecidableEq ι] :
    (mySpinlock ι).Excludes StartsSpinlock fun lock => lock = 1 := by
  have hholds : ∀ {u : Use Spinner}, u.phase = .inside → Holds u := by
    intro u hu
    simp [Holds, hu]
  refine ⟨fun {_} hs {i j} hi hj => ?_, fun {_} hs hfree i hi => ?_⟩
  · exact (SpinlockUse.of_uses hs).unique (hholds hi) (hholds hj)
  · have hzero := (SpinlockUse.of_uses hs).held (hholds hi)
    omega

end Spinlock
end LockedQueue
end OperatingSystems
