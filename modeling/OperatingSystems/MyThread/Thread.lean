import Mathlib.Data.List.Basic
import OperatingSystems.Library.Machine

/-!
# `my_thread`

`my_thread_create`, `my_thread_join`, `my_thread_detach` and the two functions that run
on a new stack, `thread_func` and `cleanup_thread_func`.  A step is one statement of one
thread.  Which thread goes on, what the program does with its threads and whether `mmap`
and `clone` succeed are inputs.

A stack region and the descriptor at its upper end are one thing here, named by the
number of its `mmap`, so that a region whose address is handed out again is another
region.  Of the descriptor only the fields appear that decide a branch: `futex` is only
ever `0`, a wait on it may return at any time, and nobody looks at its value.  A waiter
on `cleanup_cond` may wake up at any time, too.

`stored`, `taken` and `unmaps` are history variables: the handle has been returned by
`my_thread_create`, it has been given to `my_thread_join` or `my_thread_detach`, and how
often the region has been unmapped.
-/

namespace OperatingSystems
namespace MyThread

/-- `my_thread_t`, and the stack region that it points into. -/
abbrev Handle := Nat

/-- A thread: one that the program starts with, or the one that runs on a region. -/
inductive Tid
  | outside (n : Nat)
  | worker (r : Handle)
  deriving DecidableEq

/-- `start_routine`: a function of the program, or `cleanup_thread_func`. -/
inductive Routine
  | program
  | cleanupThreadFunc
  deriving DecidableEq

/-- A stack region with its descriptor. -/
structure Region where
  startRoutine : Routine
  isFinished : Bool
  joinable : Bool
  stored : Bool
  taken : Bool
  unmaps : Nat

/-- A region that has just been mapped: zeroes. -/
def Region.zero : Region :=
  ⟨.program, false, false, false, false, 0⟩

/-! ### Statements -/

/-- The statements of `my_thread_create`. -/
inductive CreatePc
  | mmap
  | init (r : Handle)
  | clone (r : Handle)
  | cloneFailed (r : Handle)
  | setTid (r : Handle)
  | store (r : Handle)
  deriving DecidableEq

/-- The statements of `my_thread_join`. -/
inductive JoinPc
  | check
  | test
  | wait
  | retval
  | reset
  | unmap
  deriving DecidableEq

/-- The statements of `my_thread_detach`; the creation of the cleanup thread is a call of
`my_thread_create`. -/
inductive DetachPc
  | check
  | set
  | exchange
  | lock
  | push
  | unlock
  | signal
  deriving DecidableEq

/-- The statements of `thread_func`. -/
inductive ThreadPc
  | enter
  | storeRetval
  | finish
  | wake
  | exit
  | exited
  deriving DecidableEq

/-- The statements of `cleanup_thread_func`. -/
inductive CleanupPc
  | lock
  | test
  | wait
  | pop
  | unlock (r : Handle)
  | sleepTest (r : Handle)
  | unmap (r : Handle)
  | free
  deriving DecidableEq

/-- What a thread executes next.  A call of `my_thread_create` knows the region whose
`my_thread_detach` it belongs to, and a call of `my_thread_join` whether its `retval` is
not `NULL`. -/
inductive Pc
  | unborn
  | idle
  | create (detached : Option Handle) (pc : CreatePc)
  | join (r : Handle) (retval : Bool) (pc : JoinPc)
  | detach (r : Handle) (pc : DetachPc)
  | threadFunc (pc : ThreadPc)
  | cleanup (pc : CleanupPc)
  deriving DecidableEq

/-- The thread does not run: it does not exist yet, or it has executed `SYS_exit`. -/
def Pc.halted : Pc → Bool
  | .unborn | .threadFunc .exited => true
  | _ => false

/-- The descriptors that the next statement reads or writes, apart from the one at the
end of the thread's own stack. -/
def Pc.touches : Pc → List Handle
  | .create _ (.init r) | .create _ (.setTid r) => [r]
  | .join r _ _ => [r]
  | .detach r .check | .detach r .set => [r]
  | .cleanup (.sleepTest r) | .cleanup (.unmap r) => [r]
  | _ => []

/-- The region that a call of `my_thread_create` has mapped. -/
def CreatePc.made : CreatePc → Option Handle
  | .mmap => none
  | .init r | .clone r | .cloneFailed r | .setTid r | .store r => some r

/-- The regions which a thread has still to unmap or to hand on. -/
def Pc.due : Pc → List Handle
  | .create detached pc => pc.made.toList ++ detached.toList
  | .join r _ _ => [r]
  | .detach _ .unlock | .detach _ .signal => []
  | .detach r _ => [r]
  | .cleanup (.unlock r) | .cleanup (.sleepTest r) | .cleanup (.unmap r) => [r]
  | _ => []

/-- What a thread does next: the next statement, whose system call succeeds or fails,
or, in a function of the program, a call or the return from `start_routine`. -/
inductive Choice
  | go (succeeds : Bool)
  | create
  | join (r : Handle) (retval : Bool)
  | detach (thread : Option Handle)
  | done

/-- The state of the process.  `mapped` is the number of stack regions so far. -/
structure Process where
  thread : Tid → Pc
  region : Handle → Region
  mapped : Nat
  cleanupList : List Handle
  cleanupMutex : Option Tid
  cleanupThreadStarted : Bool

namespace Process

/-- A process that has not used the library yet. -/
def start : Process where
  thread := fun
    | .outside _ => .idle
    | .worker _ => .unborn
  region := fun _ => .zero
  mapped := 0
  cleanupList := []
  cleanupMutex := none
  cleanupThreadStarted := false

variable (s : Process)

/-- Thread `i` moves on to a statement. -/
def goto (i : Tid) (pc : Pc) : Process :=
  { s with thread := Function.update s.thread i pc }

/-- A write to a region. -/
def setRegion (r : Handle) (x : Region) : Process :=
  { s with region := Function.update s.region r x }

/-- `mmap`. -/
def map : Process :=
  { s with
    region := Function.update s.region s.mapped .zero
    mapped := s.mapped + 1 }

/-- `munmap`. -/
def unmap (r : Handle) : Process :=
  s.setRegion r { s.region r with unmaps := (s.region r).unmaps + 1 }

/-- `pthread_mutex_lock(&cleanup_mutex)`; `none` while it blocks. -/
def lock (i : Tid) : Option Process :=
  if s.cleanupMutex = none then some { s with cleanupMutex := some i } else none

/-- `pthread_mutex_unlock(&cleanup_mutex)`. -/
def unlock : Process :=
  { s with cleanupMutex := none }

/-- A handle is given to `my_thread_join` or `my_thread_detach`. -/
def take (r : Handle) : Process :=
  s.setRegion r { s.region r with taken := true }

/-- `my_thread_create`; `detached` is the region whose `my_thread_detach` calls it. -/
def create (i : Tid) (detached : Option Handle) (succeeds : Bool) : CreatePc → Option Process
  | .mmap =>
      if succeeds then some (s.map.goto i (.create detached (.init s.mapped)))
      else some (s.goto i .idle)
  | .init r =>
      let x := { s.region r with
        startRoutine := if detached.isSome then .cleanupThreadFunc else .program
        isFinished := false
        joinable := true }
      some ((s.setRegion r x).goto i (.create detached (.clone r)))
  | .clone r =>
      if succeeds then
        some ((s.goto i (.create detached (.setTid r))).goto (.worker r) (.threadFunc .enter))
      else some (s.goto i (.create detached (.cloneFailed r)))
  | .cloneFailed r => some ((s.unmap r).goto i .idle)
  | .setTid r => some (s.goto i (.create detached (.store r)))
  | .store r =>
      match detached with
      | none => some ((s.setRegion r { s.region r with stored := true }).goto i .idle)
      | some d => some (s.goto i (.detach d .lock))

/-- `my_thread_join`. -/
def join (i : Tid) (r : Handle) (retval : Bool) : JoinPc → Option Process
  | .check =>
      if (s.region r).joinable then some (s.goto i (.join r retval .test))
      else some (s.goto i .idle)
  | .test =>
      if (s.region r).isFinished then
        some (s.goto i (.join r retval (if retval then .retval else .reset)))
      else some (s.goto i (.join r retval .wait))
  | .wait => some (s.goto i (.join r retval .test))
  | .retval => some (s.goto i (.join r retval .reset))
  | .reset => some (s.goto i (.join r retval .unmap))
  | .unmap => some ((s.unmap r).goto i .idle)

/-- `my_thread_detach`. -/
def detach (i : Tid) (r : Handle) : DetachPc → Option Process
  | .check =>
      if (s.region r).joinable then some (s.goto i (.detach r .set)) else some (s.goto i .idle)
  | .set =>
      some ((s.setRegion r { s.region r with joinable := false }).goto i (.detach r .exchange))
  | .exchange =>
      let s' := { s with cleanupThreadStarted := true }
      if s.cleanupThreadStarted then some (s'.goto i (.detach r .lock))
      else some (s'.goto i (.create (some r) .mmap))
  | .lock => (s.lock i).map fun s' => s'.goto i (.detach r .push)
  | .push =>
      some ({ s with cleanupList := r :: s.cleanupList }.goto i (.detach r .unlock))
  | .unlock => some (s.unlock.goto i (.detach r .signal))
  | .signal => some (s.goto i .idle)

/-- `thread_func` on the region `r`. -/
def threadFunc (r : Handle) : ThreadPc → Option Process
  | .enter =>
      match (s.region r).startRoutine with
      | .program => some (s.goto (.worker r) .idle)
      | .cleanupThreadFunc => some (s.goto (.worker r) (.cleanup .lock))
  | .storeRetval => some (s.goto (.worker r) (.threadFunc .finish))
  | .finish =>
      some ((s.setRegion r { s.region r with isFinished := true }).goto (.worker r)
        (.threadFunc .wake))
  | .wake => some (s.goto (.worker r) (.threadFunc .exit))
  | .exit => some (s.goto (.worker r) (.threadFunc .exited))
  | .exited => none

/-- `cleanup_thread_func`. -/
def cleanupThreadFunc (i : Tid) : CleanupPc → Option Process
  | .lock => (s.lock i).map fun s' => s'.goto i (.cleanup .test)
  | .test =>
      if s.cleanupList = [] then some (s.unlock.goto i (.cleanup .wait))
      else some (s.goto i (.cleanup .pop))
  | .wait => (s.lock i).map fun s' => s'.goto i (.cleanup .test)
  | .pop =>
      match s.cleanupList with
      | [] => none
      | r :: rest => some ({ s with cleanupList := rest }.goto i (.cleanup (.unlock r)))
  | .unlock r => some (s.unlock.goto i (.cleanup (.sleepTest r)))
  | .sleepTest r =>
      if (s.region r).isFinished then some (s.goto i (.cleanup (.unmap r)))
      else some (s.goto i (.cleanup (.sleepTest r)))
  | .unmap r => some ((s.unmap r).goto i (.cleanup .free))
  | .free => some (s.goto i (.cleanup .lock))

/-- A step of thread `i`. -/
def next (i : Tid) (c : Choice) : Option Process :=
  match i, s.thread i, c with
  | i, .idle, .create => some (s.goto i (.create none .mmap))
  | i, .idle, .join r retval => some ((s.take r).goto i (.join r retval .check))
  -- `*thread == NULL`
  | _, .idle, .detach none => some s
  | i, .idle, .detach (some r) => some ((s.take r).goto i (.detach r .check))
  | .worker r, .idle, .done => some (s.goto (.worker r) (.threadFunc .storeRetval))
  | i, .create detached pc, .go succeeds => s.create i detached succeeds pc
  | i, .join r retval pc, .go _ => s.join i r retval pc
  | i, .detach r pc, .go _ => s.detach i r pc
  | .worker r, .threadFunc pc, .go _ => s.threadFunc r pc
  | i, .cleanup pc, .go _ => s.cleanupThreadFunc i pc
  | _, _, _ => none

/-- The regions that the next statement of thread `i` reads or writes: a thread that
runs uses its own stack. -/
def accesses (i : Tid) : List Handle :=
  match i with
  | .outside _ => (s.thread i).touches
  | .worker r => (if (s.thread i).halted then [] else [r]) ++ (s.thread i).touches

/-- The thread runs on a stack that was made for `cleanup_thread_func`. -/
def isCleaner : Tid → Bool
  | .outside _ => false
  | .worker r => (s.region r).startRoutine = .cleanupThreadFunc

/-- Thread `i` is in `cleanup_thread_func`, or it is about to create the thread that will
be. -/
def serves (i : Tid) : Bool :=
  match s.thread i with
  | .create (some _) .mmap | .create (some _) (.init _) | .create (some _) (.clone _) => true
  | .threadFunc .enter => s.isCleaner i
  | .cleanup _ => true
  | _ => false

end Process

/-- The process, one statement of one thread after the other. -/
def myThread : Machine Process (Tid × Choice) where
  step s a := s.next a.1 a.2
end MyThread
end OperatingSystems
