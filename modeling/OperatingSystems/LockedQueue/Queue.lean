import OperatingSystems.BoundedQueue.Queue
import OperatingSystems.Library.CriticalSections

/-!
# The queue without a lock of its own

`queue_add` and `queue_get` as they are written without any synchronisation, and the loops of
`writer` and `reader` that put a call of `my_mutex` or `my_spinlock` around them.

The queue and its memory are those of the versions that lock; their lock and condition variables
are not used here.  A step is one statement, and an increment is two: the load and the store.
`malloc` returns any address that is not in use.  `log` is a history variable: the answers that a
thread has got.
-/

namespace OperatingSystems
namespace LockedQueue

open Threads Fifo CriticalSections
open BoundedQueue (Memory Op Update)

/-- The statement a thread executes next. -/
inductive Pc
  -- the call, behind the lock
  | call
  -- `queue_add`
  | addAssert
  | addFull
  | addMalloc
  | addInit
  | addFirst
  | addSetLast
  | addSetFirst
  | addLink
  | addMoveLast
  -- `queue_get`
  | getAssert
  | getEmpty
  | getTmp
  | getVal
  | getNext
  | getFree
  -- the statistics and the count
  | load (u : Update)
  | store (u : Update)
  -- the call has returned
  | returned (answer : Event Int)
  -- an assertion has failed, `malloc` has failed
  | aborted
  | outOfMemory
  deriving DecidableEq

/-- The variables of the loops: `i` of `writer`, and `expected` of `reader` and whether it has
reported an error. -/
inductive Party
  | writer (i : Int)
  | reader (expected : Int) (error : Bool)
  deriving DecidableEq

/-- What the loops do with an answer, behind the unlock. -/
def Party.answer : Party → Event Int → Party
  | .writer i, .add _ true => .writer (toInt32 (i + 1))
  | .reader expected error, .get (some val) =>
      .reader (toInt32 (val + 1)) (error || expected != val)
  | party, _ => party

/-- The local variables of a thread; `val` is the parameter of `queue_add` and what `queue_get`
has stored, and `reg` the value that an increment has loaded. -/
structure Thread where
  pc : Pc
  party : Party
  val : Int
  new : Nat
  tmp : Option Nat
  reg : Int
  addresses : Nat → Option Nat
  log : List (Event Int)

/-- A thread that is about to run. -/
def Thread.start (party : Party) (addresses : Nat → Option Nat) : Thread :=
  ⟨.call, party, 0, 0, none, 0, addresses, []⟩

/-- The statement after an update. -/
def Thread.behind (t : Thread) : Update → Pc
  | .addAttempts => .addAssert
  | .addLength => .load .addCount
  | .addCount => .returned (.add t.val true)
  | .getAttempts => .getAssert
  | .getLength => .load .getCount
  | .getCount => .returned (.get (some t.val))

namespace Thread

/-- The access to shared memory that comes next. -/
def op (t : Thread) : Option Op :=
  match t.pc with
  | .call | .addAssert | .addFull | .addFirst | .getAssert | .getEmpty | .getTmp => some .load
  | .addMalloc => some (.malloc (t.addresses 0))
  | .addInit => some (.init t.new t.val)
  | .addSetLast => some (.setLast t.new)
  | .addSetFirst => some (.setFirst t.new t.val)
  | .addLink => some (.link t.new t.val)
  | .addMoveLast => some .moveLast
  | .getVal => some (.read t.tmp)
  | .getNext => some (.unlink t.val)
  | .getFree => some (.free t.tmp)
  | .load _ => some .load
  | .store u => some (.store u (u.apply t.reg))
  | .returned _ | .aborted | .outOfMemory => none

/-- The local state after the next access, which reads `memory`. -/
def resume {ι : Type*} (memory : Memory ι) (t : Thread) : Thread :=
  match t.pc with
  | .call =>
      match t.party with
      | .writer i => { t with pc := .load .addAttempts, val := i }
      | .reader _ _ => { t with pc := .load .getAttempts, val := -1 }
  | .addAssert =>
      { t with pc := if memory.queue.count ≤ memory.queue.maxCount then .addFull else .aborted }
  | .addFull =>
      { t with
        pc :=
          if memory.queue.count = memory.queue.maxCount then .returned (.add t.val false)
          else .addMalloc }
  | .addMalloc =>
      match t.addresses 0 with
      | none => { t with pc := .outOfMemory }
      | some a => { t with pc := .addInit, new := a, addresses := fun n => t.addresses (n + 1) }
  | .addInit => { t with pc := .addFirst }
  | .addFirst => { t with pc := if memory.queue.first = none then .addSetLast else .addLink }
  | .addSetLast => { t with pc := .addSetFirst }
  | .addSetFirst => { t with pc := .load .addLength }
  | .addLink => { t with pc := .addMoveLast }
  | .addMoveLast => { t with pc := .load .addLength }
  | .getAssert => { t with pc := if 0 ≤ memory.queue.count then .getEmpty else .aborted }
  | .getEmpty =>
      { t with pc := if memory.queue.count = 0 then .returned (.get none) else .getTmp }
  | .getTmp => { t with pc := .getVal, tmp := memory.queue.first }
  | .getVal => { t with pc := .getNext, val := t.tmp.elim t.val memory.val }
  | .getNext => { t with pc := .getFree }
  | .getFree => { t with pc := .load .getLength }
  | .load u => { t with pc := .store u, reg := u.load memory.queue }
  | .store u => { t with pc := t.behind u }
  | .returned _ | .aborted | .outOfMemory => t

/-- Behind the unlock. -/
def next (t : Thread) : Thread :=
  match t.pc with
  | .returned e => { t with pc := .call, party := t.party.answer e, log := t.log ++ [e] }
  | _ => t

/-- `queue_add` or `queue_get` has returned. -/
def isReturned (t : Thread) : Bool :=
  match t.pc with
  | .returned _ => true
  | _ => false

end Thread

/-- The two threads. -/
inductive Role
  | writer
  | reader
  deriving DecidableEq

/-- The code between the two functions of the lock. -/
def queueBody : Body Role (Memory Role) Thread Op where
  op := Thread.op
  exec := Op.exec
  resume := Thread.resume
  returned := Thread.isReturned
  next := Thread.next

/-- `queue_init(maxCount)`, and the two threads before their loops. -/
def StartsQueue (maxCount : Nat) (d : State Role (Memory Role) Thread) : Prop :=
  d.shared = .init maxCount ∧
    (∃ addresses, d.thread .writer = .start (.writer 0) addresses) ∧
    ∃ addresses, d.thread .reader = .start (.reader 0 false) addresses

end LockedQueue
end OperatingSystems
