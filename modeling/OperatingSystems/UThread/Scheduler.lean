import OperatingSystems.Library.Ring

/-!
# Green threads

`u_thread_create`, `u_thread_usleep` and `u_thread_scheduler`, and what happens when the
function of a thread returns.  A thread is named by the address of its structure, here
its number in the order of allocation; `0` is the main thread, and structures are never
freed.

A continuation is named by the thread whose code it continues and by the number of the
`swapcontext` that saved it; `0` stands for `getcontext` and `makecontext`.  `running`
is the continuation that executes.  `suspended`, `swaps` and `sleeping` are history
variables: the latest suspension of every thread, the number of calls of `swapcontext`,
and whether the latest call of a thread was `u_thread_usleep`.

Times are integers of any size: it is assumed that `now_us()` and `now_us() + usec` fit into a
`long long`.
-/

namespace OperatingSystems
namespace UThread

/-- A point at which the code of a thread can be resumed. -/
structure Cont where
  owner : Nat
  swap : Nat
  deriving DecidableEq

/-- `u_thread_struct_t`; `link` is the thread whose context is `u_ctx.uc_link`, and
`mapped` says that the stack has not been unmapped. -/
structure Thread where
  uThreadId : Int
  finished : Bool
  sleepUntil : Int
  ctx : Cont
  link : Nat
  mapped : Bool
  next : Nat
  prev : Nat

/-- The manager, the threads, the static counter of `u_thread_create`, the last reading
of the clock, and whether `exit(1)` was called. -/
structure State where
  thread : Nat → Thread
  head : Nat
  cur : Nat
  count : Int
  created : Nat
  uThreadId : Int
  clock : Int
  exited : Bool
  running : Cont
  suspended : Nat → Cont
  swaps : Nat
  sleeping : Nat → Bool

namespace State

def next (s : State) (j : Nat) : Nat := (s.thread j).next

def prev (s : State) (j : Nat) : Nat := (s.thread j).prev

/-- Writes one field of one thread. -/
def modify (s : State) (j : Nat) (f : Thread → Thread) : State :=
  { s with thread := Function.update s.thread j (f (s.thread j)) }

/-- The call of a library function by the code that runs. -/
def call (s : State) (usleep : Bool) : State :=
  { s with sleeping := Function.update s.sleeping s.running.owner usleep }

/-- A finished thread is taken off the ring and its stack is unmapped. -/
def unlink (s : State) (toDelete : Nat) : State :=
  let cur := s.next toDelete
  let s := s.modify (s.prev toDelete) ({ · with next := s.next toDelete })
  let s := s.modify (s.next toDelete) ({ · with prev := s.prev toDelete })
  let s := if s.head = toDelete then { s with head := cur } else s
  { s.modify toDelete ({ · with mapped := false }) with count := s.count - 1 }

/-- The `do … while` loop of `u_thread_scheduler`, `none` when the fuel runs out. -/
def schedulerLoop (t : Int) : Nat → State → Nat → Option (State × Nat)
  | 0, _, _ => none
  | fuel + 1, s, cur =>
      let cur := s.next cur
      if (s.thread cur).finished = true ∧ cur ≠ s.head then
        let toDelete := cur
        let cur := s.next cur
        let s := s.unlink toDelete
        if s.count = 0 then some ({ s with exited := true }, cur)
        -- `continue` goes to the test of the loop: `cur` itself is not looked at.
        else if cur ≠ s.cur then schedulerLoop t fuel s cur
        else some (s, cur)
      else if (s.thread cur).finished = false ∧ (s.thread cur).sleepUntil ≤ t then some (s, cur)
      else if cur ≠ s.cur then schedulerLoop t fuel s cur
      else some (s, cur)

/-- `mgr->cur = cur` and `swapcontext(&old->u_ctx, &cur->u_ctx)`. -/
def switch (s : State) (cur : Nat) : State :=
  let saved : Cont := ⟨s.running.owner, s.swaps + 1⟩
  let s' := s.modify s.cur ({ · with ctx := saved })
  { s' with
    cur := cur
    running := (s'.thread cur).ctx
    suspended := Function.update s.suspended s.running.owner saved
    swaps := s.swaps + 1 }

/-- `u_thread_scheduler(mgr)`, which reads `t` off the clock. -/
def uThreadScheduler (fuel : Nat) (t : Int) (s : State) : Option State :=
  match schedulerLoop t fuel { s with clock := t } s.cur with
  | none => none
  | some (s', cur) =>
      if s'.exited then some s'
      else if cur ≠ s'.cur then some (s'.switch cur)
      else some s'

/-- `u_thread_usleep(mgr, usec)`, which reads `now` off the clock before the scheduler
reads `t`. -/
def uThreadUsleep (fuel : Nat) (usec now t : Int) (s : State) : Option State :=
  if (s.thread s.cur).uThreadId = 0 then s.uThreadScheduler fuel t
  else (s.modify s.cur ({ · with sleepUntil := now + usec })).uThreadScheduler fuel t

/-- `u_thread_create(out, mgr, func, arg)`; `ok` says that the stack and the context
could be had. -/
def uThreadCreate (ok : Bool) (s : State) : State :=
  let s := { s with uThreadId := s.uThreadId + 1 }
  if ok then
    let thr := s.created
    let after := s.next s.cur
    let s := { s with
      created := s.created + 1
      suspended := Function.update s.suspended thr ⟨thr, 0⟩
      thread := Function.update s.thread thr
        { uThreadId := s.uThreadId, finished := false, sleepUntil := 0, ctx := ⟨thr, 0⟩,
          link := s.head, mapped := true, next := after, prev := s.cur } }
    let s := s.modify s.cur ({ · with next := thr })
    let s := s.modify after ({ · with prev := thr })
    { s with uThreadId := s.uThreadId + 1, count := s.count + 1 }
  else s

/-- The end of `u_thread_startup`: the function of the running thread has returned, and
control passes to `uc_link`. -/
def uThreadReturn (s : State) : State :=
  let thr := s.running.owner
  let s := s.modify thr ({ · with finished := true })
  { s with running := (s.thread (s.thread thr).link).ctx }

end State

/-- What the running code does next. -/
inductive Call
  | create (ok : Bool)
  | usleep (usec now t : Int)
  | scheduler (t : Int)
  | finish
  deriving DecidableEq

namespace State

/-- One call. The clock never goes backwards, and the main thread has no function that
`u_thread_startup` runs. -/
def run (fuel : Nat) (s : State) : Call → Option State
  | .create ok => some ((s.call false).uThreadCreate ok)
  | .usleep usec now t =>
      if s.clock ≤ now ∧ now ≤ t then (s.call true).uThreadUsleep fuel usec now t else none
  | .scheduler t => if s.clock ≤ t then (s.call false).uThreadScheduler fuel t else none
  | .finish => if s.running.owner ≠ 0 then some s.uThreadReturn else none

/-- One call, with no assumption on the clock: `gettimeofday` reads the time of day, which can
be set. -/
def perform (fuel : Nat) (s : State) : Call → Option State
  | .create ok => some ((s.call false).uThreadCreate ok)
  | .usleep usec now t => (s.call true).uThreadUsleep fuel usec now t
  | .scheduler t => (s.call false).uThreadScheduler fuel t
  | .finish => if s.running.owner ≠ 0 then some s.uThreadReturn else none

/-- `s` makes the call and comes to `s'`. -/
def Step (s : State) (c : Call) (s' : State) : Prop :=
  s.exited = false ∧ ∃ fuel, s.run fuel c = some s'

end State

/-- `init_thread`; `sleep_until_us` of the main thread is what `malloc` left there. -/
def initThread (sleepUntil clock : Int) : State where
  thread := fun j =>
    { uThreadId := 0, finished := false, sleepUntil := sleepUntil, ctx := ⟨j, 0⟩, link := 0,
      mapped := true, next := 0, prev := 0 }
  head := 0
  cur := 0
  count := 1
  created := 1
  uThreadId := 0
  clock := clock
  exited := false
  running := ⟨0, 0⟩
  suspended := fun j => ⟨j, 0⟩
  swaps := 0
  sleeping := fun _ => false

/-- The states of the runs all of whose steps satisfy `ok`. -/
inductive Reaches (ok : State → Call → Prop) : State → Prop
  | start (sleepUntil clock : Int) : Reaches ok (initThread sleepUntil clock)
  | step {s s' : State} {c : Call} : Reaches ok s → ok s c → s.Step c s' → Reaches ok s'

/-- The invariant rule. -/
theorem Reaches.induction {ok : State → Call → Prop} {I : State → Prop}
    (hinit : ∀ sleepUntil clock, I (initThread sleepUntil clock))
    (hstep : ∀ s c s', I s → ok s c → s.Step c s' → I s') {s : State} (hs : Reaches ok s) : I s := by
  induction hs with
  | start sleepUntil clock => exact hinit sleepUntil clock
  | step _ hok hstep' ih => exact hstep _ _ _ ih hok hstep'

/-- A list of calls, every one of which passes the test. -/
def runCalls (fuel : Nat) (test : State → Call → Bool) (s : State) : List Call → Option State
  | [] => some s
  | c :: calls =>
      if s.exited = false ∧ test s c = true then
        match s.run fuel c with
        | none => none
        | some s' => runCalls fuel test s' calls
      else none

theorem Reaches.runCalls {ok : State → Call → Prop} {fuel : Nat} {test : State → Call → Bool}
    (htest : ∀ s c, test s c = true → ok s c) {s s' : State} {calls : List Call}
    (hs : Reaches ok s) (hrun : runCalls fuel test s calls = some s') : Reaches ok s' := by
  induction calls generalizing s with
  | nil =>
      simp only [UThread.runCalls, Option.some.injEq] at hrun
      exact hrun ▸ hs
  | cons c calls ih =>
      simp only [UThread.runCalls] at hrun
      split at hrun
      · next hpass =>
        cases hstep : s.run fuel c with
        | none => simp [hstep] at hrun
        | some next =>
            rw [hstep] at hrun
            exact ih (.step hs (htest s c hpass.2) ⟨hpass.1, fuel, hstep⟩) hrun
      · simp at hrun

/-- A list of calls whose last state passes a test that can be computed. -/
theorem Reaches.exists_runCalls {ok : State → Call → Prop} {fuel : Nat}
    {test : State → Call → Bool} (htest : ∀ s c, test s c = true → ok s c) {s : State}
    (hs : Reaches ok s) (goal : State → Prop) [DecidablePred goal] {calls : List Call}
    (h : (UThread.runCalls fuel test s calls).any (fun s => goal s) = true) :
    ∃ s' ∈ UThread.runCalls fuel test s calls, Reaches ok s' ∧ goal s' := by
  obtain ⟨s', hrun, hgoal⟩ := (Option.any_eq_true _ _).mp h
  exact ⟨s', hrun, hs.runCalls htest hrun, of_decide_eq_true hgoal⟩

end UThread
end OperatingSystems
