import OperatingSystems.Library.Printf
import OperatingSystems.Pagemap.ParseMaps

/-!
# The pages of a process

`read_pagemap` goes through the addresses of each mapping page by page; for each it seeks the entry
of the page in the pagemap file and prints a line.  The first `lseek` or `read` that fails ends the
program.

What a read finds may depend on the time, so a `PagemapFile` is asked with the number of the read.
`walkPages` is given the number of tests of its loop that it may make: addresses are unsigned and
wrap around, so there are mappings for which the loop does not end.
-/

namespace OperatingSystems.Pagemap

/-- `lseek` to this offset and `read` of an entry, which fail or give the entry. -/
abbrev PagemapFile := Nat → Nat → Option (BitVec 64)

/-- `(entry >> 63) & 1` -/
def present (entry : BitVec 64) : BitVec 64 := (entry >>> 63) &&& 1

/-- `(entry >> 62) & 1` -/
def swapped (entry : BitVec 64) : BitVec 64 := (entry >>> 62) &&& 1

/-- `entry & ((1ULL << 55) - 1)` -/
def pfn (entry : BitVec 64) : BitVec 64 := entry &&& ((1 <<< 55) - 1)

/-- `print_entry` -/
def printEntry (addr : Nat) (entry : BitVec 64) (pathname : List Byte) : List Byte :=
  bytes "Virtual Address: 0x" ++ padZeros 12 (printNumber 16 addr) ++
    bytes " | present: " ++ printNumber 10 (present entry).toNat ++
    bytes " | swapped: " ++ printNumber 10 (swapped entry).toNat ++
    bytes " | Page Frame Nmber: 0x" ++ padBlanks 10 (printNumber 16 (pfn entry).toNat) ++
    bytes " | => " ++ cstr pathname ++ bytes "\n"

/-- How a walk ends: with `exit`, or behind the last page; `running` stands for a loop that was not
given tests enough.  Each has the lines that were printed. -/
inductive Walk
  | running (lines : List (List Byte))
  | exits (lines : List (List Byte))
  | returns (lines : List (List Byte))
  deriving DecidableEq

/-- `(addr / page_size) * 8` -/
def entryOffset (pageSize addr : Nat) : Nat := addr / pageSize * 8

/-- The loop over the pages of a mapping. -/
def walkPages (pagemap : PagemapFile) (pageSize : Nat) (mapping : Mapping) :
    Nat → Nat → List (List Byte) → Walk
  | 0, _, lines => .running lines
  | tests + 1, addr, lines =>
      if addr < mapping.stop then
        match pagemap lines.length (entryOffset pageSize addr) with
        | none => .exits lines
        | some entry =>
            walkPages pagemap pageSize mapping tests ((addr + pageSize) % 2 ^ 64)
              (lines ++ [printEntry addr entry mapping.pathname])
      else .returns lines

/-- The loop over the mappings. -/
def walkMappings (pagemap : PagemapFile) (pageSize tests : Nat) :
    List Mapping → List (List Byte) → Walk
  | [], lines => .returns lines
  | mapping :: mappings, lines =>
      match walkPages pagemap pageSize mapping tests mapping.start lines with
      | .returns lines => walkMappings pagemap pageSize tests mappings lines
      | walk => walk

/-- `read_pagemap`, with `none` for a file that cannot be opened. -/
def readPagemap (pagemap : Option PagemapFile) (pageSize tests : Nat) (mappings : List Mapping)
    (count : Nat) : Walk :=
  match pagemap with
  | none => .exits []
  | some pagemap => walkMappings pagemap pageSize tests (mappings.take count) []

/-! ### `main` -/

/-- `snprintf` of one of the two paths. -/
def procPath (argument file : List Byte) : List Byte :=
  if argument = bytes "self" then bytes "/proc/self/" ++ file
  else (bytes "/proc/" ++ argument ++ bytes "/" ++ file).take 255

/-- The files of the system, by their paths: the maps files and the pagemap files. -/
structure Proc where
  maps : List Byte → Option (List Byte)
  pagemap : List Byte → Option PagemapFile

/-- `main`, or `none` when `parse_maps` has written past its array, behind which nothing is known;
`exit` in `parse_maps` prints nothing. -/
def mainWalk (proc : Proc) (pageSize tests : Nat) (malloced : Option Block) (argument : List Byte) :
    Option Walk :=
  match parseMaps (proc.maps (procPath argument (bytes "maps"))) malloced with
  | .exits => some (.exits [])
  | .undefined => none
  | .running => some (.running [])
  | .returns mappings count =>
      some (readPagemap (proc.pagemap (procPath argument (bytes "pagemap"))) pageSize tests
        mappings count)

end OperatingSystems.Pagemap
