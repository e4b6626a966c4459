import OperatingSystems.Library.Scanf
import OperatingSystems.Library.StringBuffer

/-!
# The memory map of a process

`parse_maps` of the pagemap reader: it reads the lines of a maps file with `fgets` into a buffer
of 1024 bytes, takes each apart with `sscanf`, and writes what it found into the next entry of an
array of 1024, which `malloc` gave it with any content.

An array that `malloc` refused has no entries.  A write to an entry that the array does not have
is undefined behaviour, and the loop ends there.

`parseLoop` is given the number of calls of `fgets` it may make; a file never asks for more than
one call a byte and the one that finds its end.
-/

namespace OperatingSystems.Pagemap

/-- `Mapping`; `stop` is its `end`. -/
structure Mapping where
  start : Nat
  stop : Nat
  pathname : List Byte
  length_pathname : pathname.length = 256

/-- What `malloc(sizeof(Mapping) * 1024)` returns when it is not refused. -/
structure Block where
  entries : List Mapping
  length_entries : entries.length = 1024

/-- The entries behind the pointer that `malloc` returns. -/
def Block.mappings : Option Block → List Mapping
  | none => []
  | some block => block.entries

/-- How a call of `parse_maps` ends: with `exit`, with a write past the array, or with the array
and `*mapping_count`.  `running` stands for a loop that was not given calls enough. -/
inductive Outcome
  | exits
  | undefined
  | running
  | returns (mappings : List Mapping) (count : Nat)

/-- `"%lx-%lx %4s %lx %5s %lu %255[^\n]"` -/
def mapsFormat : List Directive :=
  [.number 16, .literal 45, .number 16, .space, .word 4, .space, .number 16, .space, .word 5,
    .space, .number 10, .space, .upTo 10 255]

/-- `start`, `end`, and `mapname` if all seven fields matched; `none` when fewer than six did. -/
def scanLine (line : List Byte) : Option (Nat × Nat × Option (List Byte)) :=
  match sscanf mapsFormat (cstr line) with
  | [.number start, .number stop, _, _, _, _] => some (start, stop, none)
  | [.number start, .number stop, _, _, _, _, .text mapname] => some (start, stop, some mapname)
  | _ => none

/-- `strncpy(pathname, mapname, sizeof(pathname) - 1)`, or `strcpy(pathname, "[unknown]")`, for
which a pathname always has room. -/
def setPathname (pathname : List Byte) : Option (List Byte) → List Byte
  | some mapname => strncpy pathname mapname (256 - 1)
  | none => (strcpy pathname (bytes "[unknown]")).getD pathname

theorem setPathname_none {pathname : List Byte} (h : pathname.length = 256) :
    HoldsString (setPathname pathname none) (bytes "[unknown]") 256 := by
  obtain ⟨written, hcopy, hholds⟩ :=
    strcpy_holds h (show strlen (bytes "[unknown]") < 256 by decide)
  rw [setPathname, hcopy, Option.getD_some]
  exact hholds

theorem length_setPathname {pathname : List Byte} (h : pathname.length = 256)
    (mapname : Option (List Byte)) : (setPathname pathname mapname).length = 256 := by
  cases mapname with
  | none => exact (setPathname_none h).length
  | some mapname => rw [setPathname, length_strncpy (by omega), h]

/-- The assignments to one entry. -/
def Mapping.set (mapping : Mapping) (start stop : Nat) (mapname : Option (List Byte)) : Mapping where
  start := start
  stop := stop
  pathname := setPathname mapping.pathname mapname
  length_pathname := length_setPathname mapping.length_pathname mapname

/-- The body of the loop: the array and `count` behind it, or `none` when it writes past the
array. -/
def parseLine (mappings : List Mapping) (count : Nat) (line : List Byte) :
    Option (List Mapping × Nat) :=
  match scanLine line with
  | none => some (mappings, count)
  | some (start, stop, mapname) =>
      mappings[count]?.map fun mapping =>
        (mappings.set count (mapping.set start stop mapname), count + 1)

def parseLoop : Nat → List Mapping → Nat → List Byte → Outcome
  | 0, _, _, _ => .running
  | calls + 1, mappings, count, file =>
      match fgets 1024 file with
      | none => .returns mappings count
      | some (line, file) =>
          match parseLine mappings count line with
          | none => .undefined
          | some (mappings, count) => parseLoop calls mappings count file

/-- `parse_maps`: `none` for a file that cannot be opened, and for a `malloc` that is refused. -/
def parseMaps (mapsFile : Option (List Byte)) (malloced : Option Block) : Outcome :=
  match mapsFile with
  | none => .exits
  | some file => parseLoop (file.length + 1) (Block.mappings malloced) 0 file

end OperatingSystems.Pagemap
