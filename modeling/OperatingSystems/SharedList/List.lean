import OperatingSystems.Library.Chain
import OperatingSystems.Library.Locks

/-!
# The shared list

`list_init`, `increasing_thread`, `decreasing_thread`, `equal_thread` and `swap_thread`
as run by any number of threads over one list, with a lock in every node.  The three
versions of the program differ in the kind of lock and in how a scan moves on.

A node is named by its number in the order of allocation; `0` is `l->start`.  A step is
one access to a lock, to a `next` pointer, to `stop_flag` or to a counter.  What
`rand()` decides in `swap_thread` is in the local state (`coins`).  `visited` and
`comparisons` are history variables: the nodes that the current pass of a scan has
locked after `l->start`, and the pairs that it has compared.
-/

namespace OperatingSystems
namespace SharedList

open Threads

/-- The versions, named by their directories. -/
inductive Version
  | mutex
  | rwlock
  | spinloc
  deriving DecidableEq

/-- How a scan locks a node; `swap_thread` locks for writing in every version. -/
def Version.scanMode : Version → Mode
  | .rwlock => .read
  | .mutex | .spinloc => .write

/-- The three scans. -/
inductive Scan
  | increasing
  | decreasing
  | equal
  deriving DecidableEq

/-- `current_length < next_length` and its two counterparts. -/
def Scan.compare : Scan → Nat → Nat → Bool
  | .increasing, current, next => current < next
  | .decreasing, current, next => next < current
  | .equal, current, next => current = next

/-- `increasing_iterations`, `decreasing_iterations`, `equals_iterations` and
`swap_success`. -/
inductive Counter
  | scan (kind : Scan)
  | swap (threadId : Nat)
  deriving DecidableEq

/-- The lock of a node, and the lock of a counter. -/
inductive Lock
  | node (a : Nat)
  | counter (c : Counter)
  deriving DecidableEq

/-- `strlen` is the length of the string in every node, which nobody writes. -/
structure Memory (ι : Type*) where
  next : Nat → Option Nat
  strlen : Nat → Nat
  locks : Lock → RwLock ι
  iterations : Counter → Int
  stopFlag : Bool

/-- The loop of `list_init`: node `i + 1` is linked in after node `i`. -/
def listInit : Nat → Nat → Option Nat
  | 0 => fun _ => none
  | n + 1 => Function.update (listInit n) n (some (n + 1))

/-- The list of `n` nodes after `l->start`. -/
def Memory.init {ι : Type*} (n : Nat) (strlen : Nat → Nat) : Memory ι where
  next := listInit n
  strlen := strlen
  locks := fun _ => .unlocked
  iterations := fun _ => 0
  stopFlag := false

/-- The statement a thread executes next. -/
inductive Pc
  -- `increasing_thread`, `decreasing_thread`, `equal_thread`
  | scanStop
  | scanLockStart
  | scanFirst
  | scanUnlockEmpty
  | scanLockFirst
  | scanTest
  | scanUnlockPrev
  | scanNext
  | scanLockNext
  | scanCompare
  | scanAdvance
  | scanUnlockCurrent
  | scanUnlockLast
  | scanCountLock
  | scanCount
  | scanCountUnlock
  -- `swap_thread`
  | swapOuter
  | swapInner
  | swapLockPrev
  | swapCurrent
  | swapUnlockEmpty
  | swapLockCurrent
  | swapNext
  | swapUnlockEnd
  | swapUnlockEndPrev
  | swapLockNext
  | swapCheckPrev
  | swapCheckCurrent
  | swapNextNext
  | swapWritePrev
  | swapWriteCurrent
  | swapWriteNext
  | swapCountLock
  | swapCount
  | swapCountUnlock
  | swapUnlockNext
  | swapUnlockCurrent
  | swapUnlockPrev
  | skipUnlockCurrent
  | skipUnlockPrev
  | skipPrev
  -- `main`
  | setStop
  | returned
  -- a null pointer has been dereferenced
  | crashed
  deriving DecidableEq

/-- The local variables of a thread. -/
structure Thread where
  pc : Pc
  kind : Scan
  threadId : Nat
  prev : Nat
  current : Nat
  next : Nat
  nextNext : Option Nat
  counter : Nat
  coins : Nat → Bool
  visited : List Nat
  comparisons : Nat

namespace Thread

/-- A thread that is about to run. -/
def start (pc : Pc) (kind : Scan) (threadId : Nat) (coins : Nat → Bool) : Thread :=
  ⟨pc, kind, threadId, 0, 0, 0, none, 0, coins, [], 0⟩

/-- One of the three scans. -/
def scanThread (kind : Scan) : Thread :=
  start .scanStop kind 0 fun _ => false

/-- `increasing_thread`. -/
def increasingThread : Thread := scanThread .increasing

/-- `decreasing_thread`. -/
def decreasingThread : Thread := scanThread .decreasing

/-- `equal_thread`. -/
def equalThread : Thread := scanThread .equal

/-- `swap_thread`; `coins` says when `rand() % 25` is `0`. -/
def swapThread (threadId : Nat) (coins : Nat → Bool) : Thread :=
  start .swapOuter .equal threadId coins

/-- `main`, which sets `stop_flag`. -/
def mainThread : Thread :=
  start .setStop .equal 0 fun _ => false

end Thread

/-- The accesses to shared memory. -/
inductive Op
  | load
  | store (a : Nat) (next : Option Nat)
  | acquire (l : Lock) (m : Mode)
  | release (l : Lock) (m : Mode)
  | count (c : Counter)
  | setStop
  deriving DecidableEq

namespace Thread

/-- The access to shared memory that comes next. -/
def op (v : Version) (t : Thread) : Option Op :=
  match t.pc with
  | .scanStop | .scanFirst | .scanTest | .scanNext | .scanCompare | .scanAdvance => some .load
  | .scanLockStart => some (.acquire (.node t.prev) v.scanMode)
  | .scanUnlockEmpty => some (.release (.node t.prev) v.scanMode)
  | .scanLockFirst => some (.acquire (.node t.current) v.scanMode)
  | .scanUnlockPrev => some (.release (.node t.prev) v.scanMode)
  | .scanLockNext => some (.acquire (.node t.next) v.scanMode)
  | .scanUnlockCurrent => some (.release (.node t.current) v.scanMode)
  | .scanUnlockLast => some (.release (.node t.prev) v.scanMode)
  | .scanCountLock => some (.acquire (.counter (.scan t.kind)) .write)
  | .scanCount => some (.count (.scan t.kind))
  | .scanCountUnlock => some (.release (.counter (.scan t.kind)) .write)
  | .swapOuter | .swapInner | .swapCurrent | .swapNext => some .load
  | .swapLockPrev => some (.acquire (.node t.prev) .write)
  | .swapUnlockEmpty => some (.release (.node t.prev) .write)
  | .swapLockCurrent => some (.acquire (.node t.current) .write)
  | .swapUnlockEnd => some (.release (.node t.current) .write)
  | .swapUnlockEndPrev => some (.release (.node t.prev) .write)
  | .swapLockNext => some (.acquire (.node t.next) .write)
  | .swapCheckPrev | .swapCheckCurrent | .swapNextNext => some .load
  | .swapWritePrev => some (.store t.prev (some t.next))
  | .swapWriteCurrent => some (.store t.current t.nextNext)
  | .swapWriteNext => some (.store t.next (some t.current))
  | .swapCountLock => some (.acquire (.counter (.swap t.threadId)) .write)
  | .swapCount => some (.count (.swap t.threadId))
  | .swapCountUnlock => some (.release (.counter (.swap t.threadId)) .write)
  | .swapUnlockNext => some (.release (.node t.next) .write)
  | .swapUnlockCurrent => some (.release (.node t.current) .write)
  | .swapUnlockPrev => some (.release (.node t.prev) .write)
  | .skipUnlockCurrent => some (.release (.node t.current) .write)
  | .skipUnlockPrev => some (.release (.node t.prev) .write)
  | .skipPrev => some .load
  | .setStop => some .setStop
  | .returned | .crashed => none

/-- `current = current->next`; the `rwlock` version writes `current = next`. -/
def advance (v : Version) (next : Nat → Option Nat) (t : Thread) : Option Nat :=
  match v with
  | .rwlock => some t.next
  | .mutex | .spinloc => next t.current

/-- The local state after the next access, which reads `memory`. -/
def resume {ι : Type*} (v : Version) (memory : Memory ι) (t : Thread) : Thread :=
  match t.pc with
  | .scanStop =>
      if memory.stopFlag then { t with pc := .returned }
      else { t with pc := .scanLockStart, prev := 0, visited := [], comparisons := 0 }
  | .scanLockStart => { t with pc := .scanFirst }
  | .scanFirst =>
      match memory.next t.prev with
      | none => { t with pc := .scanUnlockEmpty }
      | some a => { t with pc := .scanLockFirst, current := a }
  | .scanUnlockEmpty => { t with pc := .scanCountLock }
  | .scanLockFirst =>
      { t with pc := .scanTest, counter := 0, visited := t.visited ++ [t.current] }
  | .scanTest =>
      { t with pc := if memory.next t.current = none then .scanUnlockCurrent else .scanUnlockPrev }
  | .scanUnlockPrev => { t with pc := .scanNext }
  | .scanNext =>
      match memory.next t.current with
      | none => { t with pc := .crashed }
      | some a => { t with pc := .scanLockNext, next := a }
  | .scanLockNext => { t with pc := .scanCompare, visited := t.visited ++ [t.next] }
  | .scanCompare =>
      { t with
        pc := .scanAdvance
        counter :=
          if t.kind.compare (memory.strlen t.current) (memory.strlen t.next) then t.counter + 1
          else 0
        comparisons := t.comparisons + 1 }
  -- The next statement reads `current->next`.
  | .scanAdvance =>
      match t.advance v memory.next with
      | none => { t with pc := .crashed }
      | some a => { t with pc := .scanTest, prev := t.current, current := a }
  | .scanUnlockCurrent => { t with pc := .scanUnlockLast }
  | .scanUnlockLast => { t with pc := .scanCountLock }
  | .scanCountLock => { t with pc := .scanCount }
  | .scanCount => { t with pc := .scanCountUnlock }
  | .scanCountUnlock => { t with pc := .scanStop }
  | .swapOuter =>
      if memory.stopFlag then { t with pc := .returned } else { t with pc := .swapInner, prev := 0 }
  | .swapInner => { t with pc := if memory.stopFlag then .swapOuter else .swapLockPrev }
  | .swapLockPrev => { t with pc := .swapCurrent }
  | .swapCurrent =>
      match memory.next t.prev with
      | none => { t with pc := .swapUnlockEmpty }
      | some a => { t with pc := .swapLockCurrent, current := a }
  | .swapUnlockEmpty => { t with pc := .swapOuter }
  | .swapLockCurrent => { t with pc := .swapNext }
  | .swapNext =>
      match memory.next t.current with
      | none => { t with pc := .swapUnlockEnd }
      | some a =>
          { t with
            pc := if t.coins 0 then .swapLockNext else .skipUnlockCurrent
            next := a
            coins := fun n => t.coins (n + 1) }
  | .swapUnlockEnd => { t with pc := .swapUnlockEndPrev }
  | .swapUnlockEndPrev => { t with pc := .swapOuter }
  | .swapLockNext => { t with pc := .swapCheckPrev }
  | .swapCheckPrev =>
      { t with
        pc := if memory.next t.prev = some t.current then .swapCheckCurrent else .swapUnlockNext }
  | .swapCheckCurrent =>
      { t with
        pc := if memory.next t.current = some t.next then .swapNextNext else .swapUnlockNext }
  | .swapNextNext => { t with pc := .swapWritePrev, nextNext := memory.next t.next }
  | .swapWritePrev => { t with pc := .swapWriteCurrent }
  | .swapWriteCurrent => { t with pc := .swapWriteNext }
  | .swapWriteNext => { t with pc := .swapCountLock }
  | .swapCountLock => { t with pc := .swapCount }
  | .swapCount => { t with pc := .swapCountUnlock }
  | .swapCountUnlock => { t with pc := .swapUnlockNext }
  | .swapUnlockNext => { t with pc := .swapUnlockCurrent }
  | .swapUnlockCurrent => { t with pc := .swapUnlockPrev }
  | .swapUnlockPrev => { t with pc := .swapInner }
  | .skipUnlockCurrent => { t with pc := .skipUnlockPrev }
  | .skipUnlockPrev => { t with pc := .skipPrev }
  -- This read is not protected by a lock.
  | .skipPrev =>
      match memory.next t.prev with
      | none => { t with pc := .swapOuter }
      | some a => { t with pc := .swapInner, prev := a }
  | .setStop => { t with pc := .returned }
  | .returned | .crashed => t

end Thread

section Program

variable {ι : Type*} [DecidableEq ι]

/-- The effect of an access of thread `i`; `none` while it blocks. -/
def Op.exec (i : ι) (o : Op) (memory : Memory ι) : Option (Memory ι) :=
  match o with
  | .load => some memory
  | .store a next => some { memory with next := Function.update memory.next a next }
  | .acquire l m =>
      ((memory.locks l).acquire i m).map fun l' =>
        { memory with locks := Function.update memory.locks l l' }
  | .release l m =>
      some { memory with locks := Function.update memory.locks l ((memory.locks l).release i m) }
  | .count c =>
      some { memory with iterations := Function.update memory.iterations c (memory.iterations c + 1) }
  | .setStop => some { memory with stopFlag := true }

/-- The threads of one version. -/
def threads (v : Version) (ι : Type*) [DecidableEq ι] : Program ι (Memory ι) Thread Op where
  op := Thread.op v
  exec := Op.exec
  resume := Thread.resume v

end Program

/-- A list of `n` nodes, scans, swapping threads and `main`, in any numbers. -/
def Starts {ι : Type*} (n : Nat) (s : State ι (Memory ι) Thread) : Prop :=
  (∃ strlen, s.shared = .init n strlen) ∧ ∀ i, s.thread i = .increasingThread ∨
    s.thread i = .decreasingThread ∨ s.thread i = .equalThread ∨
    (∃ threadId coins, s.thread i = .swapThread threadId coins) ∨ s.thread i = .mainThread

end SharedList
end OperatingSystems
