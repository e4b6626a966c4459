import OperatingSystems.Library.CString
import OperatingSystems.Library.Futex
import OperatingSystems.Library.Threads

/-!
# `my_mutex`

`my_mutex_lock` and `my_mutex_unlock` as run by any number of threads on one mutex.
A step is one access to `lock`, `owner` or `recursion`, or one system call; `type` is
never written after `my_mutex_init`, so reading it takes no step of its own.

What the outside decides is in the local state of a thread: the calls it makes, how
each of its sleeps ends (`Wakeup`), and which sleeper each of its wake-ups takes.
`acquired` is a history variable: it says that the thread has won the compare-exchange
of `my_mutex_lock` and has not yet stored `1` to `lock` in `my_mutex_unlock`.
-/

namespace OperatingSystems
namespace MyMutex

open Threads

/-- `my_mutex_type_t`. -/
inductive MutexType
  | normal
  | recursive
  | errorcheck
  deriving DecidableEq

/-- `my_mutex_t`. -/
structure Mutex where
  lock : Int
  owner : Int
  recursion : Int
  type : MutexType
  deriving DecidableEq

/-- `my_mutex_init(m, type)`. -/
def Mutex.init (type : MutexType) : Mutex :=
  ⟨1, 0, 0, type⟩

/-- The mutex, the threads that sleep on `lock` in the kernel, and whether `abort()`
has ended the process. -/
structure Memory where
  mutex : Mutex
  sleepers : List Int
  aborted : Bool
  deriving DecidableEq

/-- How a `FUTEX_WAIT` ends once the thread sleeps: by a wake-up, with `0` for no
reason, or with `EINTR`. -/
inductive Wakeup
  | woken
  | spurious
  | interrupted
  deriving DecidableEq

/-- The functions that a thread calls. -/
inductive Call
  | lock
  | unlock
  deriving DecidableEq

/-- The statement a thread executes next. -/
inductive Pc
  | idle
  -- `my_mutex_lock`
  | lockTest
  | lockOwner
  | incRead
  | incWrite (value : Int)
  | compareExchange
  | setOwner
  | setRecursion
  | futexWait
  | asleep
  -- `my_mutex_unlock`
  | unlockOwner
  | decRead
  | decWrite (value : Int)
  | clearOwner
  | clearRecursion
  | storeLock
  | futexWake
  -- `abort()`
  | abort
  | dead
  deriving DecidableEq

/-- One thread. -/
structure Thread where
  pc : Pc
  tid : Int
  calls : List Call
  wakeups : Nat → Wakeup
  picks : Nat → Nat
  acquired : Bool

/-- A thread before its first call. -/
def Thread.start (tid : Int) (calls : List Call) (wakeups : Nat → Wakeup) (picks : Nat → Nat) :
    Thread :=
  ⟨.idle, tid, calls, wakeups, picks, false⟩

/-- The accesses to shared memory. -/
inductive Op
  | load
  | setOwner (value : Int)
  | setRecursion (value : Int)
  | compareExchange
  | storeLock
  | futexWait (tid : Int)
  | endWait (tid : Int) (wakeup : Wakeup)
  | futexWake (pick : Nat)
  | abort
  deriving DecidableEq

namespace Thread

/-- The access to shared memory that comes next. -/
def op (t : Thread) : Option Op :=
  match t.pc with
  | .idle => if t.calls = [] then none else some .load
  | .lockTest | .lockOwner | .incRead | .unlockOwner | .decRead => some .load
  | .incWrite value => some (.setRecursion (toInt32 (value + 1)))
  | .compareExchange => some .compareExchange
  | .setOwner => some (.setOwner t.tid)
  | .setRecursion => some (.setRecursion 1)
  | .futexWait => some (.futexWait t.tid)
  | .asleep => some (.endWait t.tid (t.wakeups 0))
  | .decWrite value => some (.setRecursion (toInt32 (value - 1)))
  | .clearOwner => some (.setOwner 0)
  | .clearRecursion => some (.setRecursion 0)
  | .storeLock => some .storeLock
  | .futexWake => some (.futexWake (t.picks 0))
  | .abort => some .abort
  | .dead => none

/-- The next call. -/
def enter (t : Thread) : Thread :=
  match t.calls with
  | [] => t
  | .lock :: calls => { t with pc := .lockTest, calls := calls }
  | .unlock :: calls => { t with pc := .unlockOwner, calls := calls }

/-- `switch (m->type)` in `my_mutex_lock`, reached by the owner. -/
def relock (t : Thread) (m : Mutex) : Thread :=
  { t with
    pc :=
      match m.type with
      | .recursive => .incRead
      | .errorcheck => .idle
      | .normal => .abort }

/-- The tests of `my_mutex_unlock` before the mutex is given back. -/
def unlock (t : Thread) (m : Mutex) : Thread :=
  { t with
    pc :=
      if m.owner ≠ t.tid then if m.type = .errorcheck then .abort else .idle
      else if m.type = .recursive then .decRead else .clearOwner }

/-- The local state after the next access, which reads `memory`. -/
def resume (memory : Memory) (t : Thread) : Thread :=
  match t.pc with
  | .idle => t.enter
  | .lockTest => { t with pc := if memory.mutex.lock = 0 then .lockOwner else .compareExchange }
  | .lockOwner =>
      if memory.mutex.owner = t.tid then t.relock memory.mutex
      else { t with pc := .compareExchange }
  | .incRead => { t with pc := .incWrite memory.mutex.recursion }
  | .incWrite _ => { t with pc := .idle }
  | .compareExchange =>
      if memory.mutex.lock = 1 then { t with pc := .setOwner, acquired := true }
      else { t with pc := .futexWait }
  | .setOwner => { t with pc := .setRecursion }
  | .setRecursion => { t with pc := .idle }
  -- A word other than `0` is `EAGAIN`, and the loop goes on.
  | .futexWait => { t with pc := if memory.mutex.lock = 0 then .asleep else .compareExchange }
  | .asleep =>
      { t with
        pc :=
          if t.tid ∈ memory.sleepers ∧ t.wakeups 0 = .interrupted then .abort
          else .compareExchange
        wakeups := fun n => t.wakeups (n + 1) }
  | .unlockOwner => t.unlock memory.mutex
  | .decRead => { t with pc := .decWrite memory.mutex.recursion }
  | .decWrite value => { t with pc := if 0 < toInt32 (value - 1) then .idle else .clearOwner }
  | .clearOwner => { t with pc := .clearRecursion }
  | .clearRecursion => { t with pc := .storeLock }
  | .storeLock => { t with pc := .futexWake, acquired := false }
  | .futexWake => { t with pc := .idle, picks := fun n => t.picks (n + 1) }
  | .abort => { t with pc := .dead }
  | .dead => t

end Thread

@[simp] theorem Thread.resume_tid (memory : Memory) (t : Thread) :
    (t.resume memory).tid = t.tid := by
  unfold resume enter relock unlock
  repeat' (first | rfl | split)

/-- The effect of an access while the process runs; `none` while it blocks. -/
def Op.run (o : Op) (memory : Memory) : Option Memory :=
  match o with
  | .load => some memory
  | .setOwner value => some { memory with mutex.owner := value }
  | .setRecursion value => some { memory with mutex.recursion := value }
  | .compareExchange =>
      some (if memory.mutex.lock = 1 then { memory with mutex.lock := 0 } else memory)
  | .storeLock => some { memory with mutex.lock := 1 }
  | .futexWait tid =>
      some { memory with sleepers := Futex.sleep memory.mutex.lock 0 tid memory.sleepers }
  | .endWait tid wakeup =>
      if tid ∈ memory.sleepers ∧ wakeup = .woken then none
      else some { memory with sleepers := memory.sleepers.erase tid }
  | .futexWake pick => some { memory with sleepers := Futex.wake pick memory.sleepers }
  | .abort => some { memory with aborted := true }

/-- After `abort()` no thread takes a step. -/
def Op.exec (o : Op) (memory : Memory) : Option Memory :=
  if memory.aborted then none else o.run memory

/-- `abort()` has not ended a process in which an access takes place. -/
theorem Op.run_of_exec {o : Op} {memory memory' : Memory} (h : o.exec memory = some memory') :
    o.run memory = some memory' := by
  unfold exec at h
  split at h
  · simp at h
  · exact h

/-- The threads that use the mutex. -/
def users (ι : Type*) : Program ι Memory Thread Op where
  op := Thread.op
  exec := fun _ => Op.exec
  resume := Thread.resume

variable {ι : Type*}

/-- A mutex that was just initialised, and threads that are about to make calls. -/
def Starts (type : MutexType) (tid : ι → Int) (s : State ι Memory Thread) : Prop :=
  s.shared = ⟨.init type, [], false⟩ ∧
    ∀ i, ∃ calls wakeups picks, s.thread i = .start (tid i) calls wakeups picks

/-- Thread identifiers are different and not zero. -/
structure Tids (tid : ι → Int) : Prop where
  injective : Function.Injective tid
  ne_zero : ∀ i, tid i ≠ 0

/-- Threads `1`, `2`, … with the calls they make; sleeps end by wake-ups. -/
def calling (type : MutexType) (calls : Nat → List Call) : State Nat Memory Thread :=
  ⟨⟨.init type, [], false⟩,
    fun i => .start (i + 1) (calls i) (fun _ => .woken) fun _ => 0⟩

theorem starts_calling (type : MutexType) (calls : Nat → List Call) :
    Starts type (fun i : Nat => (i : Int) + 1) (calling type calls) :=
  ⟨rfl, fun i => ⟨calls i, _, _, rfl⟩⟩

theorem tids_succ : Tids fun i : Nat => (i : Int) + 1 :=
  ⟨fun i j h => by simpa using h, fun i => by omega⟩

end MyMutex
end OperatingSystems
