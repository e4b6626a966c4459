import OperatingSystems.FsManager.Rmdir
import OperatingSystems.Library.Links
import OperatingSystems.Library.Printf

/-!
# The commands

`main` of `fs_manager.c` and the functions for its commands, each with what it prints to the
standard output.

A `Disk` has the permissions of its nodes beside the files: `mkdir` and `touch` set them for what
they make, `chmod` changes them, and `lsl` prints them.  Which calls they forbid, and to whom, is not
spelled out: the calls that are refused may depend on them in any way (`Setting.env`).
-/

namespace OperatingSystems
namespace FsManager

open Files

/-- `SUCCESS` and `USAGE_ERROR` -/
def success : Int := 0

def usageError : Int := 1

/-- The permission bits of `st_mode`. -/
abbrev Mode := BitVec 12

/-- The files and the permissions of the nodes; those of a symbolic link are never asked for. -/
structure Disk extends System where
  mode : Nat → Mode

/-- What the runs of the program depend on: its calls, given the permissions, and the mask for the
permissions of new files. -/
structure Setting where
  env : (Nat → Mode) → Env
  umask : Mode

/-- Behind calls that leave the permissions alone. -/
def Disk.ran (d : Disk) (s : System) : Disk :=
  { d with toSystem := s }

/-- Behind a call that has set the permissions of a node. -/
def Disk.setMode (d : Disk) (s : System) (i : Nat) (mode : Mode) : Disk :=
  ⟨s, Function.update d.mode i mode⟩

section Calls

variable (env : Env) (n : Nat) (s : System)

def myLs (path : List Byte) : List Byte × System :=
  match s.opendir env n path with
  | (none, s) => ([], s)
  | (some dir, s) => ((s.readdir env dir).flatMap fun name => name ++ [10], s)

def myCat (path : List Byte) : List Byte × System :=
  match s.fopenRead env n path with
  | (none, s) => ([], s)
  | (some file, s) => s.fgetcs env file

def myRm (path : List Byte) : System :=
  (s.remove env path).2

def mySymLn (destPath linkPath : List Byte) : System :=
  (s.symlink env destPath linkPath).2

def myReadlink (path : List Byte) : List Byte × System :=
  match s.readlink env path (size - 1) with
  | (none, s) => ([], s)
  | (some buf, s) => (cstr (buf ++ [0]) ++ [10], s)

def catLinkContent (path : List Byte) : List Byte × System :=
  match s.readlink env path (size - 1) with
  | (none, s) => ([], s)
  | (some buf, s) => myCat env n s (cstr (buf ++ [0]))

def myLn (destPath linkPath : List Byte) : System :=
  (s.link env destPath linkPath).2

end Calls

/-- `st_nlink`: the entries that name a node, and `.` and `..` in the directories. -/
def linkCount (fs : FileSystem) (i : Nat) : Nat :=
  let named := ((List.range fs.fresh).map fun d => match fs.node d with
    | some (.dir _ es) => es.countP fun e => e.2 = i
    | _ => 0).sum
  match fs.node i with
  | some (.dir p es) => named + 1 + (es.countP fun e => fs.isDir e.2) + if p = i then 1 else 0
  | _ => named

/-- `S_IRUSR`, `S_IWUSR` and so on, with the letter for each of them. -/
def permissionBits : List (Mode × List Byte) :=
  [(0o400#12, bytes "r"), (0o200#12, bytes "w"), (0o100#12, bytes "x"),
    (0o040#12, bytes "r"), (0o020#12, bytes "w"), (0o010#12, bytes "x"),
    (0o004#12, bytes "r"), (0o002#12, bytes "w"), (0o001#12, bytes "x")]

section Modes

variable (env : Env) (n : Nat) (umask : Mode) (d : Disk)

/-- A directory does not get the bits that set a user or a group. -/
def myMkdir (path : List Byte) (mode : BitVec 32) : Disk :=
  match d.toSystem.mkdir env path with
  | (0, s) => d.setMode s d.files.fresh (mode.setWidth 12 &&& 0o1777#12 &&& ~~~umask)
  | (_, s) => d.ran s

/-- `fopen` makes a file with the permissions `0666`. -/
def myTouch (path : List Byte) : Disk :=
  match d.toSystem.fopenWrite env n path with
  | (some i, s) =>
      if i = d.files.fresh then d.setMode s i (0o666#12 &&& ~~~umask) else d.ran s
  | (none, s) => d.ran s

/-- What `lsl` prints of a node. -/
def lslText (i : Nat) : List Byte :=
  bytes "Permissions: " ++ printNumber 8 (d.mode i &&& 0o777#12).toNat ++
    bytes "\nFile Permissions: \t" ++ (if d.files.isDir i then bytes "d" else bytes "-") ++
    permissionBits.flatMap (fun bit => if d.mode i &&& bit.1 = 0 then bytes "-" else bit.2) ++
    bytes "\n\nNumber of hard links: " ++ printNumber 10 (linkCount d.files i) ++ [10]

def myLsl (path : List Byte) : List Byte × Disk :=
  match d.toSystem.stat env path with
  | (none, s) => ([], d.ran s)
  | (some i, s) => (lslText d i, d.ran s)

/-- `chmod` finds the node as `stat` does. -/
def myChmod (path : List Byte) (mode : BitVec 32) : Disk :=
  match d.toSystem.stat env path with
  | (none, s) => d.ran s
  | (some i, s) => d.setMode s i (mode.setWidth 12)

end Modes

/-- `basename`: the last name in a path. -/
def basename (path : List Byte) : List Byte :=
  (components path).getLast?.getD (if path = [] then dot else [slash])

/-- The argument as a `mode_t`. -/
def modeArgument (text : List Byte) : BitVec 32 :=
  BitVec.ofInt 32 (strtol 8 text)

variable (setting : Setting) (n : Nat) (d : Disk)

/-- The exit status, the standard output and the disk behind the command. -/
def main (argv : List (List Byte)) : Int × List Byte × Disk :=
  let env := setting.env d.mode
  let s := d.toSystem
  let silent (s : System) : Int × List Byte × Disk := (success, [], d.ran s)
  let printed (r : List Byte × System) : Int × List Byte × Disk := (success, r.1, d.ran r.2)
  match argv with
  | program :: path :: more =>
      let action := basename program
      if action = bytes "mkdir" then
        match more with
        | [mode] => (success, [], myMkdir env setting.umask d path (modeArgument mode))
        | _ => (usageError, [], d)
      else if action = bytes "ls" then printed (myLs env n s path)
      else if action = bytes "rmdir" then silent (myRmdir env n s path).2
      else if action = bytes "touch" then (success, [], myTouch env n setting.umask d path)
      else if action = bytes "cat" then printed (myCat env n s path)
      else if action = bytes "rm" then silent (myRm env s path)
      else if action = bytes "lnSym" then
        match more with
        | [linkPath] => silent (mySymLn env s path linkPath)
        | _ => (usageError, [], d)
      else if action = bytes "readlink" then printed (myReadlink env s path)
      else if action = bytes "catLinkContent" then printed (catLinkContent env n s path)
      else if action = bytes "rmSymLink" then silent (myRm env s path)
      else if action = bytes "ln" then
        match more with
        | [linkPath] => silent (myLn env s path linkPath)
        | _ => (usageError, [], d)
      else if action = bytes "rmHardLink" then silent (myRm env s path)
      else if action = bytes "lsl" then (success, myLsl env d path)
      else if action = bytes "chmod" then
        match more with
        | [mode] => (success, [], myChmod env d path (modeArgument mode))
        | _ => (usageError, [], d)
      else (usageError, [], d)
  | _ => (usageError, [], d)

/-- One run of the program after the other. -/
def runs (d : Disk) (commands : List (List (List Byte))) : Disk :=
  commands.foldl (fun d argv => (main setting n d argv).2.2) d

end FsManager
end OperatingSystems
