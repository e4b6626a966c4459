import Mathlib.Logic.Function.Basic
import OperatingSystems.Library.Printf

/-!
# The names of the system calls

`load_syscall_names` of the tracer: it reads the lines of a header file with `fgets` into a buffer
of 256 bytes, and stores the name that a line defines under its number.  `get_syscall_name` looks
it up.

`sscanf` writes up to 64 bytes and a NUL into `name`, which has 64: a longer word is undefined
behaviour, and the loop ends there.

`loadLoop` is given the number of calls of `fgets` it may make, one more than the file has bytes.
-/

namespace OperatingSystems.Tracer

/-- `MAX_SYSCALLS` -/
def maxSyscalls : Nat := 512

/-- `syscall_entry` -/
structure SyscallEntry where
  name : List Byte
  length_name : name.length = 64

/-- `syscall_list` -/
abbrev SyscallList := Fin maxSyscalls → SyscallEntry

/-- A global array, as it is before `main`. -/
def syscallList : SyscallList :=
  fun _ => ⟨List.replicate 64 0, List.length_replicate⟩

/-- `strncpy(name, s, sizeof(name) - 1)`, and a NUL in the last byte. -/
def SyscallEntry.set (entry : SyscallEntry) (s : List Byte) : SyscallEntry where
  name := (strncpy entry.name s (64 - 1)).set (64 - 1) 0
  length_name := by
    have hlength := entry.length_name
    rw [List.length_set, length_strncpy (by omega), hlength]

def nrMark : List Byte := bytes "__NR_"

def nr3264Mark : List Byte := bytes "__NR3264_"

/-- `"#define __NR_%64s %lu"`, and the same with `__NR3264_`. -/
def defineFormat (mark : List Byte) : List Directive :=
  literals (bytes "#define " ++ mark) ++ [.word 64, .space, .number 10]

/-- One call of `sscanf`: the name and the number if both were assigned; `none` when the name does
not fit. -/
def scanDefine (mark line : List Byte) : Option (Option (List Byte × Nat)) :=
  match sscanf (defineFormat mark) (cstr line) with
  | .text name :: more =>
      if 64 ≤ name.length then none
      else
        match more with
        | [.number num] => some (some (name, num))
        | _ => some none
  | _ => some none

/-- The condition of the loop: the second call is made when the first does not assign both. -/
def scanLine (line : List Byte) : Option (Option (List Byte × Nat)) :=
  match scanDefine nrMark line with
  | some none => scanDefine nr3264Mark line
  | result => result

/-- The body of the loop. -/
def loadLine (list : SyscallList) (line : List Byte) : Option SyscallList :=
  (scanLine line).map fun
    | none => list
    | some (name, num) =>
        if h : num < maxSyscalls then Function.update list ⟨num, h⟩ ((list ⟨num, h⟩).set name)
        else list

/-- How a call of `load_syscall_names` ends; `running` stands for a loop that was not given calls
enough. -/
inductive Outcome
  | undefined
  | running
  | returns (list : SyscallList)

def loadLoop : Nat → SyscallList → List Byte → Outcome
  | 0, _, _ => .running
  | calls + 1, list, file =>
      match fgets 256 file with
      | none => .returns list
      | some (line, file) =>
          match loadLine list line with
          | none => .undefined
          | some list => loadLoop calls list file

/-- `load_syscall_names`; a file that cannot be opened leaves the list as it is. -/
def loadSyscallNames (list : SyscallList) (file : Option (List Byte)) : Outcome :=
  match file with
  | none => .returns list
  | some file => loadLoop (file.length + 1) list file

/-- `get_syscall_name` -/
def getSyscallName (list : SyscallList) (num : Nat) : List Byte :=
  if h : num < maxSyscalls then cstr (list ⟨num, h⟩).name else bytes "unknown"

/-! ### Entries -/

theorem getSyscallName_syscallList {num : Nat} (h : num < maxSyscalls) :
    getSyscallName syscallList num = [] := by
  rw [getSyscallName, dif_pos h]
  rfl

/-- A name that fits is stored whole. -/
theorem cstr_set (entry : SyscallEntry) {s : List Byte} (hlength : s.length < 64) (hs : 0 ∉ s) :
    cstr (entry.set s).name = s := by
  have hentry := entry.length_name
  have hcopy : (entry.set s).name =
      s ++ 0 :: List.replicate (64 - 1 - s.length) 0 := by
    have hrest : entry.name.drop (64 - 1) = [entry.name[63]] := by
      rw [List.drop_eq_getElem_cons (by omega), List.drop_of_length_le (by omega)]
    have htake : (s ++ List.replicate (64 - 1) (0 : Byte)).take (64 - 1) =
        s ++ List.replicate (64 - 1 - s.length) 0 := by
      rw [List.take_append, List.take_of_length_le (by omega), List.take_replicate,
        Nat.min_eq_left (by omega)]
    have hend : (s ++ List.replicate (64 - 1 - s.length) (0 : Byte)).length = 64 - 1 := by
      simp only [List.length_append, List.length_replicate]
      omega
    show (strncpy entry.name s (64 - 1)).set (64 - 1) 0 = _
    rw [strncpy, htake, hrest, List.set_append_right _ _ (by omega), hend, Nat.sub_self,
      List.set_cons_zero, List.append_assoc, ← List.replicate_succ, ← List.replicate_succ']
  rw [hcopy, cstr_append_nul hs]

theorem getSyscallName_update (list : SyscallList) (n : Fin maxSyscalls) {s : List Byte}
    (hlength : s.length < 64) (hs : 0 ∉ s) (num : Nat) :
    getSyscallName (Function.update list n ((list n).set s)) num =
      if num = n then s else getSyscallName list num := by
  unfold getSyscallName
  by_cases hnum : num < maxSyscalls
  · rw [dif_pos hnum, dif_pos hnum]
    by_cases heq : num = n
    · obtain rfl : ⟨num, hnum⟩ = n := Fin.ext heq
      rw [Function.update_self, cstr_set _ hlength hs, if_pos rfl]
    · rw [Function.update_of_ne fun h => heq (congrArg Fin.val h), if_neg heq]
  · have hne : num ≠ n := fun heq => hnum (heq ▸ n.isLt)
    rw [dif_neg hnum, dif_neg hnum, if_neg hne]

end OperatingSystems.Tracer
