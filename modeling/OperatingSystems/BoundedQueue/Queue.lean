import Mathlib.Data.Finset.Basic
import OperatingSystems.Library.Chain
import OperatingSystems.Library.CString
import OperatingSystems.Library.Fifo
import OperatingSystems.Library.Threads

/-!
# The bounded queue

`queue_init`, `queue_add`, `queue_get` and `queue_print_stats` in the four versions of the
queue, called by any number of threads.  What the threads call and with which values is a
`Client`; `queueThreads` is the one of `queue-threads.c`.

A step is one statement, and an increment is two: the load and the store.  `malloc` returns
any address that is not in use (`addresses`), also one that has been freed before.  Threads
in `pthread_cond_wait` may wake up at any time, and memory that is not allocated is never
accessed as long as `fault` is false.  `events` and `log` are history variables: the
operations in the order in which they change the queue or find it full or empty, and those
that a thread has returned from.
-/

namespace OperatingSystems
namespace BoundedQueue

open Threads Fifo

/-- The versions, named by their directories. -/
inductive Version
  | mutex
  | spinloc
  | semafors
  | conditionalVarible
  deriving DecidableEq

/-- `queue_t` without the lock and the condition variables.  `count` stays between `0` and
`max_count`, so it needs no wrap-around. -/
structure Queue where
  first : Option Nat
  last : Option Nat
  count : Int
  maxCount : Int
  addAttempts : Int
  getAttempts : Int
  addCount : Int
  getCount : Int

/-- The queue that `queue_init` returns. -/
def queueInit (maxCount : Int) : Queue :=
  ⟨none, none, 0, maxCount, 0, 0, 0, 0⟩

/-- The increments and the decrement of `queue_add` and `queue_get`. -/
inductive Update
  | addAttempts
  | addLength
  | addCount
  | getAttempts
  | getLength
  | getCount
  deriving DecidableEq

namespace Update

/-- The value before the update. -/
def load (q : Queue) : Update → Int
  | .addAttempts => q.addAttempts
  | .getAttempts => q.getAttempts
  | .addLength | .getLength => q.count
  | .addCount => q.addCount
  | .getCount => q.getCount

/-- The value after the update. -/
def apply (value : Int) : Update → Int
  | .getLength => value - 1
  | _ => value + 1

def store (q : Queue) (value : Int) : Update → Queue
  | .addAttempts => { q with addAttempts := value }
  | .getAttempts => { q with getAttempts := value }
  | .addLength | .getLength => { q with count := value }
  | .addCount => { q with addCount := value }
  | .getCount => { q with getCount := value }

end Update

/-- `not_full` and `not_empty`. -/
inductive Condition
  | notFull
  | notEmpty
  deriving DecidableEq

/-- `lock` is the value of the semaphore that `queue_init` sets to one; a mutex or a
spinlock is `1` while it is free. -/
structure Memory (ι : Type*) where
  queue : Queue
  val : Nat → Int
  next : Nat → Option Nat
  live : Nat → Bool
  lock : Nat
  waiters : Condition → Finset ι
  mallocs : Nat
  frees : Nat
  events : List (ι × Event Int)
  fault : Bool

/-- The memory after `queue_init`. -/
def Memory.init {ι : Type*} (maxCount : Int) : Memory ι where
  queue := queueInit maxCount
  val := fun _ => 0
  next := fun _ => none
  live := fun _ => false
  lock := 1
  waiters := fun _ => ∅
  mallocs := 0
  frees := 0
  events := []
  fault := false

/-- The statement a thread executes next. -/
inductive Pc
  -- between two calls
  | call
  -- `queue_add`
  | addMalloc
  | addInit
  | addLock
  | addAssert
  | addPause
  | addFull
  | addWait
  | addAsleep
  | addRelock
  | addUnlockFull
  | addFreeFull
  | addFirst
  | addSetLast
  | addSetFirst
  | addLink
  | addMoveLast
  | addBroadcast
  | addUnlock
  -- `queue_get`
  | getLock
  | getAssert
  | getEmpty
  | getWait
  | getAsleep
  | getRelock
  | getUnlockEmpty
  | getTmp
  | getVal
  | getNext
  | getBroadcast
  | getUnlock
  | getFree
  -- the statistics and the count
  | load (u : Update)
  | store (u : Update)
  -- `queue_print_stats`, which takes the lock in `semafors` only
  | statsPrint
  | statsLock
  | statsLockedPrint
  | statsUnlock
  -- an assertion has failed, `malloc` has failed
  | aborted
  | outOfMemory
  deriving DecidableEq

/-- The calls of the queue. -/
inductive Call
  | add (val : Int)
  | get
  | printStats
  deriving DecidableEq

/-- What a thread calls next, and how it goes on after an answer (`none` after
`queue_print_stats`). -/
structure Client (κ : Type*) where
  call : κ → Option Call
  answer : κ → Option (Event Int) → κ

/-- The local variables of a thread; `reg` holds the value that an increment has loaded. -/
structure Thread (κ : Type*) where
  pc : Pc
  client : κ
  val : Int
  new : Nat
  tmp : Option Nat
  reg : Int
  addresses : Nat → Option Nat
  log : List (Event Int)

/-- A thread that is about to run. -/
def Thread.start {κ : Type*} (client : κ) (addresses : Nat → Option Nat) : Thread κ :=
  ⟨.call, client, 0, 0, none, 0, addresses, []⟩

/-- The accesses to shared memory. -/
inductive Op
  | load
  | malloc (address : Option Nat)
  | init (a : Nat) (val : Int)
  | free (p : Option Nat)
  | lock
  | unlock (failed : Option (Event Int))
  | wait (c : Condition)
  | wake (c : Condition)
  | broadcast (c : Condition)
  | store (u : Update) (value : Int)
  | setLast (a : Nat)
  | setFirst (a : Nat) (val : Int)
  | link (a : Nat) (val : Int)
  | moveLast
  | read (p : Option Nat)
  | unlink (val : Int)

namespace Memory

variable {ι : Type*}

/-- A node is accessed through the pointer `p`. -/
def access (memory : Memory ι) (p : Option Nat) : Memory ι :=
  { memory with fault := memory.fault || !p.any memory.live }

/-- Thread `i` has done an operation. -/
def record (memory : Memory ι) (i : ι) (e : Event Int) : Memory ι :=
  { memory with events := memory.events ++ [(i, e)] }

end Memory

section Exec

variable {ι : Type*} [DecidableEq ι]

/-- The effect of an access of thread `i`; `none` while it blocks. -/
def Op.exec (i : ι) (o : Op) (memory : Memory ι) : Option (Memory ι) :=
  match o with
  | .load | .malloc none => some memory
  | .malloc (some a) =>
      if memory.live a then none
      else some { memory with
        live := Function.update memory.live a true
        mallocs := memory.mallocs + 1 }
  -- `new->val = val; new->next = NULL;`
  | .init a val =>
      some { memory.access (some a) with
        val := Function.update memory.val a val
        next := Function.update memory.next a none }
  | .free none => some memory
  | .free (some a) =>
      some { memory.access (some a) with
        live := Function.update memory.live a false
        frees := memory.frees + 1 }
  | .lock => if memory.lock = 0 then none else some { memory with lock := memory.lock - 1 }
  | .unlock none => some { memory with lock := memory.lock + 1 }
  | .unlock (some e) => some { memory.record i e with lock := memory.lock + 1 }
  | .wait c =>
      some { memory with
        lock := memory.lock + 1
        waiters := Function.update memory.waiters c (insert i (memory.waiters c)) }
  | .wake c =>
      some { memory with
        waiters := Function.update memory.waiters c ((memory.waiters c).erase i) }
  | .broadcast c => some { memory with waiters := Function.update memory.waiters c ∅ }
  | .store u value => some { memory with queue := u.store memory.queue value }
  | .setLast a => some { memory with queue := { memory.queue with last := some a } }
  | .setFirst a val =>
      some { memory.record i (.add val true) with
        queue := { memory.queue with first := some a } }
  -- `q->last->next = new;`
  | .link a val =>
      match memory.queue.last with
      | none => some (memory.access none)
      | some b =>
          some { (memory.access (some b)).record i (.add val true) with
            next := Function.update memory.next b (some a) }
  -- `q->last = q->last->next;`
  | .moveLast =>
      match memory.queue.last with
      | none => some (memory.access none)
      | some b =>
          some { memory.access (some b) with
            queue := { memory.queue with last := memory.next b } }
  | .read p => some (memory.access p)
  -- `q->first = q->first->next;`
  | .unlink val =>
      match memory.queue.first with
      | none => some (memory.access none)
      | some b =>
          some { (memory.access (some b)).record i (.get (some val)) with
            queue := { memory.queue with first := memory.next b } }

end Exec

/-- The statement after an update. -/
def Update.next (v : Version) : Update → Pc
  | .addAttempts => .addAssert
  | .addLength => .load .addCount
  | .addCount => match v with
      | .conditionalVarible => .addBroadcast
      | _ => .addUnlock
  | .getAttempts => .getAssert
  | .getLength => .load .getCount
  | .getCount => match v with
      | .conditionalVarible => .getBroadcast
      | _ => .getUnlock

namespace Thread

variable {κ : Type*} (v : Version) (C : Client κ)

/-- The access to shared memory that comes next. -/
def op (t : Thread κ) : Option Op :=
  match t.pc with
  | .call => (C.call t.client).map fun _ => .load
  | .addMalloc => some (.malloc (t.addresses 0))
  | .addInit => some (.init t.new t.val)
  | .addLock | .addRelock | .getLock | .getRelock | .statsLock => some .lock
  | .addAssert | .addPause | .addFull | .addFirst => some .load
  | .addWait => some (.wait .notFull)
  | .addAsleep => some (.wake .notFull)
  | .addUnlockFull => some (.unlock (some (.add t.val false)))
  | .addFreeFull => some (.free (some t.new))
  | .addSetLast => some (.setLast t.new)
  | .addSetFirst => some (.setFirst t.new t.val)
  | .addLink => some (.link t.new t.val)
  | .addMoveLast => some .moveLast
  | .addBroadcast => some (.broadcast .notEmpty)
  | .addUnlock | .getUnlock | .statsUnlock => some (.unlock none)
  | .getAssert | .getEmpty | .getTmp => some .load
  | .getWait => some (.wait .notEmpty)
  | .getAsleep => some (.wake .notEmpty)
  | .getUnlockEmpty => some (.unlock (some (.get none)))
  | .getVal => some (.read t.tmp)
  | .getNext => some (.unlink t.val)
  | .getBroadcast => some (.broadcast .notFull)
  | .getFree => some (.free t.tmp)
  | .load _ => some .load
  | .store u => some (.store u (u.apply t.reg))
  | .statsPrint | .statsLockedPrint => some .load
  | .aborted | .outOfMemory => none

/-- The call returns with the answer `e`. -/
def ret (t : Thread κ) (e : Event Int) : Thread κ :=
  { t with pc := .call, client := C.answer t.client (some e), log := t.log ++ [e] }

/-- `queue_print_stats` returns. -/
def retStats (t : Thread κ) : Thread κ :=
  { t with pc := .call, client := C.answer t.client none }

/-- The local state after the next access, which reads `memory`. -/
def resume {ι : Type*} (memory : Memory ι) (t : Thread κ) : Thread κ :=
  match t.pc with
  | .call =>
      match C.call t.client with
      | none => t
      | some (.add val) => { t with pc := .addMalloc, val := val }
      | some .get => { t with pc := .getLock }
      | some .printStats =>
          { t with pc := if v = .semafors then .statsLock else .statsPrint }
  | .addMalloc =>
      match t.addresses 0 with
      | none => { t with pc := .outOfMemory }
      | some a => { t with pc := .addInit, new := a, addresses := fun n => t.addresses (n + 1) }
  | .addInit => { t with pc := .addLock }
  | .addLock => { t with pc := .load .addAttempts }
  | .addAssert =>
      { t with
        pc :=
          if memory.queue.count ≤ memory.queue.maxCount then
            match v with
            | .mutex | .spinloc => .addPause
            | .semafors | .conditionalVarible => .addFull
          else .aborted }
  -- `if (q->get_attempts % 7 == 0) usleep(1);`, with another divisor in `spinloc`
  | .addPause => { t with pc := if v = .conditionalVarible then .addFirst else .addFull }
  | .addFull =>
      { t with
        pc :=
          if memory.queue.count = memory.queue.maxCount then
            if v = .conditionalVarible then .addWait else .addUnlockFull
          else if v = .conditionalVarible then .addPause else .addFirst }
  | .addWait => { t with pc := .addAsleep }
  | .addAsleep => { t with pc := .addRelock }
  | .addRelock => { t with pc := .addFull }
  -- Only `spinloc` frees the node that it has allocated.
  | .addUnlockFull =>
      if v = .spinloc then { t with pc := .addFreeFull } else t.ret C (.add t.val false)
  | .addFreeFull => t.ret C (.add t.val false)
  | .addFirst => { t with pc := if memory.queue.first = none then .addSetLast else .addLink }
  | .addSetLast => { t with pc := .addSetFirst }
  | .addSetFirst => { t with pc := .load .addLength }
  | .addLink => { t with pc := .addMoveLast }
  | .addMoveLast => { t with pc := .load .addLength }
  | .addBroadcast => { t with pc := .addUnlock }
  | .addUnlock => t.ret C (.add t.val true)
  | .getLock => { t with pc := .load .getAttempts }
  | .getAssert => { t with pc := if 0 ≤ memory.queue.count then .getEmpty else .aborted }
  | .getEmpty =>
      { t with
        pc :=
          if memory.queue.count = 0 then
            if v = .conditionalVarible then .getWait else .getUnlockEmpty
          else .getTmp }
  | .getWait => { t with pc := .getAsleep }
  | .getAsleep => { t with pc := .getRelock }
  | .getRelock => { t with pc := .getEmpty }
  | .getUnlockEmpty => t.ret C (.get none)
  | .getTmp => { t with pc := .getVal, tmp := memory.queue.first }
  | .getVal => { t with pc := .getNext, val := t.tmp.elim t.val memory.val }
  | .getNext => { t with pc := .load .getLength }
  | .getBroadcast => { t with pc := .getUnlock }
  | .getUnlock => { t with pc := .getFree }
  | .getFree => t.ret C (.get (some t.val))
  | .load u => { t with pc := .store u, reg := u.load memory.queue }
  | .store u => { t with pc := u.next v }
  | .statsPrint => t.retStats C
  | .statsLock => { t with pc := .statsLockedPrint }
  | .statsLockedPrint => { t with pc := .statsUnlock }
  | .statsUnlock => t.retStats C
  | .aborted | .outOfMemory => t

end Thread

/-- The threads of one version with the client `C`. -/
def threads {κ : Type*} (v : Version) (C : Client κ) (ι : Type*) [DecidableEq ι] :
    Program ι (Memory ι) (Thread κ) Op where
  op := Thread.op C
  exec := Op.exec
  resume := Thread.resume v C

/-- A queue for `maxCount` values, which any number of threads are about to use. -/
def Starts {ι κ : Type*} (maxCount : Nat) (s : State ι (Memory ι) (Thread κ)) : Prop :=
  s.shared = .init maxCount ∧ ∀ i, ∃ client addresses, s.thread i = .start client addresses

/-- The threads of `queue-threads.c`: `i` of the writer, `expected` of the reader and
whether it has reported an error. -/
inductive Party
  | writer (i : Int)
  | reader (expected : Int) (error : Bool)
  | qmonitor
  deriving DecidableEq

/-- The loops of `writer`, `reader` and `qmonitor`. -/
def queueThreads : Client Party where
  call
    | .writer i => some (.add i)
    | .reader _ _ => some .get
    | .qmonitor => some .printStats
  answer
    | .writer _, some (.add i true) => .writer (toInt32 (i + 1))
    | .reader expected error, some (.get (some val)) =>
        .reader (toInt32 (val + 1)) (error || expected != val)
    | party, _ => party

/-- The names of the threads of `queue-threads.c`. -/
inductive Role
  | writer
  | reader
  | qmonitor
  deriving DecidableEq

/-- `main` has started the three threads. -/
def StartsMain (maxCount : Nat) (s : State Role (Memory Role) (Thread Party)) : Prop :=
  s.shared = .init maxCount ∧
    (∃ addresses, s.thread .writer = .start (.writer 0) addresses) ∧
    (∃ addresses, s.thread .reader = .start (.reader 0 false) addresses) ∧
    ∃ addresses, s.thread .qmonitor = .start .qmonitor addresses

end BoundedQueue
end OperatingSystems
