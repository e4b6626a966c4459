import OperatingSystems.Library.FileCalls

/-!
# The directory reverser

The program makes a copy of a directory in which every name, and the bytes of every file, are in
reverse order; the copy stands beside the directory, under its reversed name.

The functions are those of `reverse.c`.  `n` is the number of descriptors that are free: a directory
that is read keeps one, so the recursion ends.  A `FILE *` is the number of its file.
-/

namespace OperatingSystems
namespace DirReverser

open Files

/-! ### `enum ERRORS` -/

def success : Int := 1
def alreadyExist : Int := 0
def fseekError : Int := 2
def argsError : Int := 3
def dirOpenError : Int := 7
def fileOpenError : Int := 9
def reverseError : Int := 10
def pathError : Int := 11

/-- `BUF_SIZE` -/
def bufSize : Nat := 1024

variable (env : Env)

/-! ### The reversed directory -/

def checkExist (n : Nat) (s : System) (reversedPath : List Byte) : Int × System :=
  match s.opendir env n reversedPath with
  | (some _, s) => (1, s)
  | (none, s) => (0, s)

def createReverseDir (n : Nat) (s : System) (path : List Byte) : Int × System :=
  match checkExist env n s path with
  | (exist, s) => if exist ≠ 0 then (alreadyExist, s) else s.mkdir env path

/-- The loop in `reverseDir`: down from an index to a slash, or to 0. -/
def lastSlash (srcPath : List Byte) : Nat → Nat
  | 0 => 0
  | i + 1 => if srcPath[i + 1]? = some slash then i + 1 else lastSlash srcPath i

/-- The bytes behind `lastSlash` are taken from the last to the first. -/
def reverseDirName (srcPath : List Byte) (lastSlash : Nat) : List Byte :=
  srcPath.take (lastSlash + 1) ++ (srcPath.drop (lastSlash + 1)).reverse

/-- The path that `reverseDir` gives to the reversed directory. -/
def reversedPathOf (srcPath : List Byte) : List Byte :=
  reverseDirName srcPath (lastSlash srcPath srcPath.length)

def reverseDir (n : Nat) (s : System) (srcPath : List Byte) : Option (List Byte) × System :=
  match s.malloc env with
  | (false, s) => (none, s)
  | (true, s) =>
      match createReverseDir env n s (reversedPathOf srcPath) with
      | (created, s) => if created ≠ 0 then (none, s) else (some (reversedPathOf srcPath), s)

/-! ### One file -/

/-- An error is a number like a size. -/
def fileSize (s : System) (f : Nat) : Int × System :=
  match s.fseek env with
  | (false, s) => (fseekError, s)
  | (true, s) =>
      match s.ftell env f with
      | (size, s) =>
          match s.fseek env with
          | (false, s) => (fseekError, s)
          | (true, s) => (size, s)

def createReverseName (fileName : List Byte) : List Byte :=
  fileName.reverse

/-- `tmp = buffer[i]; buffer[i] = buffer[j]; buffer[j] = tmp` -/
def swapBytes (buffer : List Byte) (i j : Nat) : List Byte :=
  (buffer.set i (buffer.getD j 0)).set j (buffer.getD i 0)

/-- The loop over the first half of the buffer. -/
def reverseBuffer (buffer : List Byte) : List Byte :=
  (List.range (buffer.length / 2)).foldl
    (fun b i => swapBytes b i (buffer.length - i - 1)) buffer

/-- The loop of `copyContent`, which makes at most `fuel` rounds. -/
def copyLoop (source destination : Nat) : Nat → Nat → System → System
  | 0, _, s => s
  | fuel + 1, remaining, s =>
      if remaining = 0 then s
      else
        let toRead := if remaining ≥ bufSize then bufSize else remaining
        let pos := remaining - toRead
        match s.fseek env with
        | (false, s) => s
        | (true, s) =>
            match s.fread env source pos toRead with
            | (none, s) => s
            | (some buffer, s) =>
                match s.fwrite env destination (reverseBuffer buffer) with
                | (false, s) => s
                | (true, s) => copyLoop source destination fuel (remaining - toRead) s

/-- Every round takes at least one byte, so `size` rounds are enough. -/
def copyContent (s : System) (source destination : Nat) : System :=
  match fileSize env s source with
  | (size, s) =>
      if size = fseekError then s
      else copyLoop env source destination size.toNat size.toNat s

/-- `snprintf(full, len, "%s/%s", path, name)` -/
def getPath (path name : List Byte) (len : Nat) : List Byte :=
  (path ++ slash :: name).take (len - 1)

def createReverseFile (n : Nat) (s : System)
    (srcPath srcName reversedPath reversedName : List Byte) : Int × System :=
  let source := getPath srcPath srcName (srcPath.length + srcName.length + 2)
  let destination :=
    getPath reversedPath reversedName (reversedPath.length + reversedName.length + 2)
  match s.fopenRead env n source with
  | (none, s) => (fileOpenError, s)
  | (some f, s) =>
      match s.fopenWrite env (n - 1) destination with
      | (none, s) => (fileOpenError, s)
      | (some g, s) => (success, copyContent env s f g)

/-! ### The directory -/

/-- The body of the loop in `reverseFiles`; `reverseSub` is the recursive call. -/
def reverseEntry (reverseSub : System → List Byte → List Byte → Int × System) (n : Nat)
    (srcPath reversedPath : List Byte) (s : System) (name : List Byte) : System :=
  if name = dot ∨ name = dotDot then s
  else
    let len := srcPath.length + name.length + 2
    let fullSrcPath := getPath srcPath name len
    match s.stat env fullSrcPath with
    | (none, s) => s
    | (some i, s) =>
        if s.files.isFile i then
          (createReverseFile env n s srcPath name reversedPath (createReverseName name)).2
        else if s.files.isDir i then
          let newDestPath := getPath reversedPath (createReverseName name) len
          match createReverseDir env n s newDestPath with
          | (created, s) => if created ≠ 0 then s else (reverseSub s fullSrcPath newDestPath).2
        else s

def reverseFiles : Nat → System → List Byte → List Byte → Int × System
  | 0, s, srcPath, _ => (dirOpenError, (s.opendir env 0 srcPath).2)
  | n + 1, s, srcPath, reversedPath =>
      match s.opendir env (n + 1) srcPath with
      | (none, s) => (dirOpenError, s)
      | (some dir, s) =>
          (success, (s.readdir env dir).foldl
            (reverseEntry env (reverseFiles n) n srcPath reversedPath) s)

/-- The arguments are those behind the name of the program. -/
def main (n : Nat) (s : System) (args : List (List Byte)) : Int × System :=
  match args with
  | [path] =>
      match s.realpath env path with
      | (none, s) => (pathError, s)
      | (some absSrcPath, s) =>
          match reverseDir env n s absSrcPath with
          | (none, s) => (reverseError, s)
          | (some reversePath, s) =>
              match reverseFiles env n s absSrcPath reversePath with
              | (r, s) => if r ≠ success then (reverseError, s) else (success, s)
  | _ => (argsError, s)

end DirReverser
end OperatingSystems
