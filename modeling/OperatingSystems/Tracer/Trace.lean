import Mathlib.Algebra.Ring.Parity
import OperatingSystems.Tracer.SyscallNames

/-!
# The lines of a trace

The loop of the tracer's `main`: each turn waits for the child twice, and prints the number of a
system call after the first wait and what it has returned after the second.

The loop does not ask why the child has stopped.  A stop for a signal is taken for the entry or the
return of a system call, and from there on the halves of the turns are the wrong way round, up to
the next such stop.

* `traceLoop_append` — the loop on a list of stops and what comes behind.
* `traceLoop_call` — where in the turns a system call begins.
* `main_prints` — the lines of a system call.
-/

namespace OperatingSystems.Tracer

/-- `regs[8]` and `regs[0]` of `user_pt_regs`. -/
structure UserPtRegs where
  regs8 : BitVec 64
  regs0 : BitVec 64
  deriving DecidableEq

/-- What a wait finds: the child has exited, or it has not, and then `PTRACE_GETREGSET` gives its
registers or fails, as it does when a signal has killed the child. -/
inductive Status
  | exited
  | unreadable
  | stopped (regs : UserPtRegs)
  deriving DecidableEq

/-- The two halves of a turn. -/
inductive Half
  | enter
  | exit
  deriving DecidableEq

def enterLine (list : SyscallList) (regs : UserPtRegs) : List Byte :=
  bytes "[ENTER] Syscall " ++ printNumber 10 regs.regs8.toNat ++ bytes " (" ++
    getSyscallName list regs.regs8.toNat ++ bytes ")\n"

def exitLine (regs : UserPtRegs) : List Byte :=
  bytes "[EXIT ] Return: " ++ printSigned regs.regs0.toInt ++ bytes "\n"

namespace Half

def line (list : SyscallList) : Half → UserPtRegs → List Byte
  | enter => enterLine list
  | exit => exitLine

def other : Half → Half
  | enter => exit
  | exit => enter

theorem other_involutive : Function.Involutive other := by
  rintro (_ | _) <;> rfl

end Half

/-- The loop, with what its waits find. -/
def traceLoop (list : SyscallList) : Half → List Status → List (List Byte)
  | half, .stopped regs :: statuses =>
      half.line list regs :: traceLoop list half.other statuses
  | _, .exited :: _ => []
  | _, .unreadable :: _ => []
  | _, [] => []

/-- `main`: what it returns and the lines it prints; `none` is undefined behaviour.  The child is
`none` when `fork` fails.

The first wait is for the `SIGTRAP` of `execl`, and its status is not looked at.  When the child
has exited instead there is nothing more to wait for, and the next wait leaves the status as it
is. -/
def main (file : Option (List Byte)) (child : Option (List Status)) :
    Option (Nat × List (List Byte)) :=
  match loadSyscallNames syscallList file with
  | .returns list =>
      match child with
      | none => some (1, [])
      | some (.exited :: _) => some (0, [])
      | some (_ :: statuses) => some (0, traceLoop list .enter statuses)
      | some [] => some (0, [])
  | _ => none

/-! ### What the child does -/

/-- A system call with its number, its first argument and its result, or a signal, with the
registers at that time. -/
inductive Deed
  | call (number argument result : BitVec 64)
  | signal (regs : UserPtRegs)

namespace Deed

/-- A child that goes on with `PTRACE_SYSCALL` stops at the entry and at the return of a call, and
before a signal is delivered. -/
def stops : Deed → List UserPtRegs
  | call number argument result => [⟨number, argument⟩, ⟨number, result⟩]
  | signal regs => [regs]

def isSignal : Deed → Bool
  | call .. => false
  | signal _ => true

/-- The lines that a system call should have. -/
def lines (list : SyscallList) : Deed → List (List Byte)
  | call number argument result => [enterLine list ⟨number, argument⟩, exitLine ⟨number, result⟩]
  | signal _ => []

end Deed

def statuses (deeds : List Deed) : List Status :=
  (deeds.flatMap Deed.stops).map .stopped

theorem statuses_append (deeds more : List Deed) :
    statuses (deeds ++ more) = statuses deeds ++ statuses more := by
  simp [statuses]

section Loop

variable {list : SyscallList}

theorem traceLoop_append (half : Half) (stops : List UserPtRegs) (rest : List Status) :
    traceLoop list half (stops.map .stopped ++ rest) =
      traceLoop list half (stops.map .stopped) ++
        traceLoop list (Half.other^[stops.length] half) rest := by
  induction stops generalizing half with
  | nil => rfl
  | cons regs stops ih =>
      rw [List.length_cons, Function.iterate_succ_apply]
      exact congrArg (half.line list regs :: ·) (ih half.other)

theorem length_traceLoop (half : Half) (stops : List UserPtRegs) :
    (traceLoop list half (stops.map .stopped)).length = stops.length := by
  induction stops generalizing half with
  | nil => rfl
  | cons regs stops ih => exact congrArg (· + 1) (ih half.other)

/-- A system call takes a whole turn, a signal half a turn. -/
theorem iterate_other_stops (deeds : List Deed) (half : Half) :
    Half.other^[(deeds.flatMap Deed.stops).length] half =
      Half.other^[deeds.countP Deed.isSignal] half := by
  induction deeds generalizing half with
  | nil => rfl
  | cons deed deeds ih =>
      rw [List.flatMap_cons, List.length_append, Nat.add_comm, Function.iterate_add_apply, ih]
      cases deed with
      | call number argument result =>
          rw [List.countP_cons_of_neg (by simp [Deed.isSignal])]
          exact congrArg _ (Half.other_involutive half)
      | signal regs =>
          rw [List.countP_cons_of_pos rfl]
          rfl

/-- The half that the stop behind these falls to. -/
def halfAfter (deeds : List Deed) : Half :=
  if Even (deeds.countP Deed.isSignal) then .enter else .exit

theorem iterate_other_enter (deeds : List Deed) :
    Half.other^[deeds.countP Deed.isSignal] .enter = halfAfter deeds := by
  rw [halfAfter]
  split
  next heven => rw [Half.other_involutive.iterate_even heven, id]
  next hodd => rw [Half.other_involutive.iterate_odd (Nat.not_even_iff_odd.mp hodd)]; rfl

theorem traceLoop_statuses_append (deeds : List Deed) (rest : List Status) :
    traceLoop list .enter (statuses deeds ++ rest) =
      traceLoop list .enter (statuses deeds) ++ traceLoop list (halfAfter deeds) rest := by
  rw [statuses, traceLoop_append, iterate_other_stops, iterate_other_enter]

theorem traceLoop_call (before : List Deed) (number argument result : BitVec 64)
    (rest : List Status) :
    traceLoop list .enter
        (statuses before ++ (statuses [.call number argument result] ++ rest)) =
      traceLoop list .enter (statuses before) ++
        ((halfAfter before).line list ⟨number, argument⟩ ::
          (halfAfter before).other.line list ⟨number, result⟩ ::
            traceLoop list (halfAfter before) rest) := by
  rw [traceLoop_statuses_append]
  refine congrArg (traceLoop list .enter (statuses before) ++ ·) ?_
  show _ :: _ :: traceLoop list (halfAfter before).other.other rest = _
  rw [Half.other_involutive]

/-- Without a signal the halves are the right way round. -/
theorem traceLoop_calls {deeds : List Deed} (hcalls : ∀ deed ∈ deeds, deed.isSignal = false)
    (rest : List Status) :
    traceLoop list .enter (statuses deeds ++ rest) =
      deeds.flatMap (Deed.lines list) ++ traceLoop list .enter rest := by
  induction deeds with
  | nil => rfl
  | cons deed deeds ih =>
      obtain ⟨hcall, hbehind⟩ := List.forall_mem_cons.mp hcalls
      cases deed with
      | signal regs => cases hcall
      | call number argument result =>
          exact congrArg (Deed.lines list (.call number argument result) ++ ·) (ih hbehind)

end Loop

/-- A program that no signal is sent to has its system calls listed one by one.  Of any other
program a system call is listed as it should be when the number of the signals before it is even;
otherwise its first argument is printed as a result, and then its number as that of a call that is
entered. -/
theorem main_prints {file : Option (List Byte)} {list : SyscallList}
    (hload : loadSyscallNames syscallList file = .returns list)
    {first : Status} (hfirst : first ≠ .exited) (rest : List Status) :
    (∀ deeds : List Deed, (∀ deed ∈ deeds, deed.isSignal = false) →
      main file (some (first :: (statuses deeds ++ rest))) =
        some (0, deeds.flatMap (Deed.lines list) ++ traceLoop list .enter rest)) ∧
    ∀ (before after : List Deed) (number argument result : BitVec 64),
      ∃ earlier later, earlier.length = (statuses before).length ∧
        main file (some (first ::
            (statuses (before ++ .call number argument result :: after) ++ rest))) =
          some (0, earlier ++
            ((if Even (before.countP Deed.isSignal) then
                [enterLine list ⟨number, argument⟩, exitLine ⟨number, result⟩]
              else [exitLine ⟨number, argument⟩, enterLine list ⟨number, result⟩]) ++ later)) := by
  have hmain (statuses : List Status) :
      main file (some (first :: statuses)) = some (0, traceLoop list .enter statuses) := by
    rw [main, hload]
    cases first with
    | exited => exact absurd rfl hfirst
    | unreadable => rfl
    | stopped regs => rfl
  refine ⟨fun deeds hcalls => ?_, fun before after number argument result => ?_⟩
  · rw [hmain, traceLoop_calls hcalls]
  · refine ⟨traceLoop list .enter (statuses before),
      traceLoop list (halfAfter before) (statuses after ++ rest), ?_, ?_⟩
    · rw [statuses, length_traceLoop, List.length_map]
    · rw [hmain, ← List.singleton_append, statuses_append, statuses_append, List.append_assoc,
        List.append_assoc, traceLoop_call, halfAfter]
      split <;> rfl

/-- A signal, and then `write` of 12 bytes to the standard output; the header file is not there. -/
theorem main_prints_signal :
    ∃ earlier later, earlier.length = 1 ∧
      main none (some [.stopped ⟨0, 0⟩, .stopped ⟨62, 7⟩, .stopped ⟨64, 1⟩, .stopped ⟨64, 12⟩,
          .exited]) =
        some (0, earlier ++ ([exitLine ⟨64, 1⟩, enterLine syscallList ⟨64, 12⟩] ++ later)) :=
  (@main_prints none syscallList rfl (.stopped ⟨0, 0⟩) nofun [.exited]).2
    [.signal ⟨62, 7⟩] [] 64 1 12

end OperatingSystems.Tracer
