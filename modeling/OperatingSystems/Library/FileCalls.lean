import OperatingSystems.Library.Paths

/-!
# Calls of the system

The calls that a program makes on a file system, one after the other.  Any call may be refused, for
reasons that the file system does not show (permissions, memory, a full disk); `Env` says which
ones, and what is also not determined by the file system: the order in which a directory lists its
names, the part of its bytes that a refused `fwrite` has stored, and the result of `realpath`.

* `FileSystem.mkdir`, `FileSystem.unlink`, `FileSystem.rmdir`, `FileSystem.openForWriting` — what a
  call does when it is not refused.
* `System` — the file system and the number of calls so far; the calls.
* `System.opendir_some`, `System.attempt_zero` and so on — what is known behind a call.
-/

namespace OperatingSystems
namespace Files

namespace FileSystem

variable (fs : FileSystem)

/-- A new directory. -/
def mkdir (path : List Byte) : Option FileSystem :=
  match fs.place path with
  | some (d, name) => fs.create d name (.dir d []) (.inr rfl)
  | none => none

/-- The entry is taken away; it may be a link, whatever the link leads to. -/
def unlink (path : List Byte) : Option FileSystem :=
  if endsInSlash path then none
  else
    match fs.place path with
    | some (d, name) =>
        match fs.entry d name with
        | some i => if fs.isDir i then none else some (fs.remove d name)
        | none => none
    | none => none

/-- The entry of an empty directory is taken away. -/
def rmdir (path : List Byte) : Option FileSystem :=
  match fs.place path with
  | some (d, name) =>
      match fs.entry d name with
      | some i => if fs.isEmptyDir i then some (fs.remove d name) else none
      | none => none
  | none => none

/-- The file is emptied, or made when it is not there: mode `"w+"`. -/
def openForWriting (path : List Byte) : Option (Nat × FileSystem) :=
  match fs.resolve path with
  | some (.node i) => if fs.isDir i then none else some (i, fs.write i [])
  | some (.missing d name) =>
      (fs.create d name (.file []) (.inl rfl)).map fun files => (fs.fresh, files)
  | none => none

variable {fs} {fs' : FileSystem} {path : List Byte}

theorem mkdir_eq_some (h : fs.mkdir path = some fs') :
    ∃ d name, fs.place path = some (d, name) ∧ fs.Created d name (.dir d []) fs' := by
  unfold mkdir at h
  split at h
  case h_1 d name hplace => exact ⟨d, name, hplace, created_of_create h⟩
  case h_2 => cases h

theorem unlink_eq_some_iff : fs.unlink path = some fs' ↔ endsInSlash path = false ∧
    ∃ d name i, fs.place path = some (d, name) ∧ fs.entry d name = some i ∧
      fs.isDir i = false ∧ fs' = fs.remove d name := by
  unfold unlink
  constructor
  · intro h
    split at h
    case isTrue => cases h
    case isFalse hslash =>
        split at h
        case h_2 => cases h
        case h_1 d name hplace =>
            split at h
            case h_2 => cases h
            case h_1 i hi =>
                split at h
                case isTrue => cases h
                case isFalse hdir =>
                    exact ⟨by simpa using hslash, d, name, i, hplace, hi, by simpa using hdir,
                      (Option.some.inj h).symm⟩
  · rintro ⟨hslash, d, name, i, hplace, hi, hdir, rfl⟩
    simp [hslash, hplace, hi, hdir]

theorem rmdir_eq_some_iff : fs.rmdir path = some fs' ↔
    ∃ d name i, fs.place path = some (d, name) ∧ fs.entry d name = some i ∧
      fs.isEmptyDir i = true ∧ fs' = fs.remove d name := by
  unfold rmdir
  constructor
  · intro h
    split at h
    case h_2 => cases h
    case h_1 d name hplace =>
        split at h
        case h_2 => cases h
        case h_1 i hi =>
            split at h
            case isFalse => cases h
            case isTrue hempty => exact ⟨d, name, i, hplace, hi, hempty, (Option.some.inj h).symm⟩
  · rintro ⟨d, name, i, hplace, hi, hempty, rfl⟩
    simp [hplace, hi, hempty]

theorem openForWriting_eq_some {i : Nat} (h : fs.openForWriting path = some (i, fs')) :
    fs.resolve path = some (.node i) ∧ fs.isDir i = false ∧ fs' = fs.write i [] ∨
    ∃ d name, fs.resolve path = some (.missing d name) ∧ i = fs.fresh ∧
      fs.Created d name (.file []) fs' := by
  unfold openForWriting at h
  split at h
  case h_1 j hj =>
      split at h
      case isTrue => cases h
      case isFalse hdir =>
          obtain ⟨rfl, rfl⟩ := Prod.mk.inj (Option.some.inj h)
          exact .inl ⟨hj, by simpa using hdir, rfl⟩
  case h_2 d name hmissing =>
      obtain ⟨files, hfiles, hpair⟩ := Option.map_eq_some_iff.mp h
      obtain ⟨rfl, rfl⟩ := Prod.mk.inj hpair
      exact .inr ⟨d, name, hmissing, rfl, created_of_create hfiles⟩
  case h_3 => cases h

section Free

variable {d p : Nat} {es : List (List Byte × Nat)} {name : List Byte}

/-- A directory is made where the name is free. -/
theorem mkdir_of_free (hname : IsName name) (hplace : fs.place path = some (d, name))
    (hd : fs.node d = some (.dir p es)) (hfree : lookup es name = none) :
    ∃ fs', fs.mkdir path = some fs' ∧ fs.Created d name (.dir d []) fs' := by
  obtain ⟨fs', hfs'⟩ := create_of_free hname hd hfree (.dir d []) (.inr rfl)
  refine ⟨fs', ?_, created_of_create hfs'⟩
  rw [mkdir, hplace]
  exact hfs'

/-- A file is made where the name is free. -/
theorem openForWriting_of_free (hname : IsName name) (hplace : fs.place path = some (d, name))
    (hslash : endsInSlash path = false) (hd : fs.node d = some (.dir p es))
    (hfree : lookup es name = none) :
    ∃ fs', fs.openForWriting path = some (fs.fresh, fs') ∧ fs.Created d name (.file []) fs' := by
  obtain ⟨fs', hfs'⟩ := create_of_free hname hd hfree (.file []) (.inl rfl)
  obtain ⟨links, hresolve⟩ := resolve_of_place hplace
  rw [hslash, if_neg Bool.false_ne_true, walk_missing links hd hname.2.2 hfree, if_pos rfl]
    at hresolve
  refine ⟨fs', ?_, created_of_create hfs'⟩
  rw [openForWriting, hresolve]
  exact Option.map_eq_some_iff.mpr ⟨fs', hfs', rfl⟩

end Free

end FileSystem

/-- What the calls depend on besides the file system; the calls are numbered. -/
structure Env where
  refuses : Nat → Bool
  listing : Nat → FileSystem → Nat → List (List Byte)
  stored : Nat → Nat
  realpath : FileSystem → List Byte → Option (List Byte)
  listing_isName : ∀ call fs d, ∀ name ∈ listing call fs d,
    name = dot ∨ name = dotDot ∨ IsName name
  realpath_absolute : ∀ fs path real, realpath fs path = some real → real.head? = some slash

/-- A directory lists `.`, `..` and the names that it has when it is opened, in some order. -/
def Env.ListsAll (env : Env) : Prop :=
  ∀ call fs d, (env.listing call fs d).Perm (dot :: dotDot :: fs.names d)

/-- What `readdir` returns are names that the directory had when it was opened. -/
def Env.ListsOnly (env : Env) : Prop :=
  ∀ call fs d, ∀ name ∈ env.listing call fs d, name = dot ∨ name = dotDot ∨ name ∈ fs.names d

theorem Env.ListsAll.listsOnly {env : Env} (h : env.ListsAll) : env.ListsOnly := by
  intro call fs d name hname
  simpa using (h call fs d).subset hname

/-- Nothing is refused, and an absolute path is its own real path. -/
def Env.plain : Env where
  refuses _ := false
  listing _ fs d := dot :: dotDot :: fs.names d
  stored _ := 0
  realpath fs path :=
    if path.head? = some slash ∧ (fs.find path).isSome then some path else none
  listing_isName call fs d name hname := by
    rcases List.mem_cons.mp hname with hname | hname
    · exact .inl hname
    · rcases List.mem_cons.mp hname with hname | hname
      · exact .inr (.inl hname)
      · exact .inr (.inr (FileSystem.isName_of_mem_names hname))
  realpath_absolute fs path real h := by
    split at h
    case isTrue habs =>
        obtain rfl := Option.some.inj h
        exact habs.1
    case isFalse => cases h

/-- The file system, and how many calls there were. -/
structure System where
  files : FileSystem
  calls : Nat

namespace System

/-- Behind a call that has left these files. -/
def after (s : System) (files : FileSystem) : System :=
  ⟨files, s.calls + 1⟩

variable (env : Env) (s : System)

/-- A call that changes the files, or fails. -/
def attempt (change : Option FileSystem) : Int × System :=
  if env.refuses s.calls then (-1, s.after s.files)
  else
    match change with
    | some files => (0, s.after files)
    | none => (-1, s.after s.files)

def mkdir (path : List Byte) : Int × System :=
  s.attempt env (s.files.mkdir path)

def unlink (path : List Byte) : Int × System :=
  s.attempt env (s.files.unlink path)

def rmdir (path : List Byte) : Int × System :=
  s.attempt env (s.files.rmdir path)

/-- A call that needs one of `n` free descriptors. -/
def refusesOpen (n : Nat) : Bool :=
  env.refuses s.calls || n = 0

def opendir (n : Nat) (path : List Byte) : Option Nat × System :=
  (if s.refusesOpen env n then none else (s.files.find path).filter fun d => s.files.isDir d,
    s.after s.files)

/-- The names that one `readdir` after the other returns for an open directory. -/
def readdir (d : Nat) : List (List Byte) :=
  env.listing s.calls s.files d

def stat (path : List Byte) : Option Nat × System :=
  (if env.refuses s.calls then none else s.files.find path, s.after s.files)

def malloc : Bool × System :=
  (!env.refuses s.calls, s.after s.files)

/-- `fopen` in mode `"r"`. -/
def fopenRead (n : Nat) (path : List Byte) : Option Nat × System :=
  (if s.refusesOpen env n then none else s.files.find path, s.after s.files)

/-- `fopen` in mode `"w+"`. -/
def fopenWrite (n : Nat) (path : List Byte) : Option Nat × System :=
  if s.refusesOpen env n then (none, s.after s.files)
  else
    match s.files.openForWriting path with
    | some (i, files) => (some i, s.after files)
    | none => (none, s.after s.files)

def realpath (path : List Byte) : Option (List Byte) × System :=
  (if env.refuses s.calls then none else env.realpath s.files path, s.after s.files)

def fseek : Bool × System :=
  (!env.refuses s.calls, s.after s.files)

/-- `ftell` at the end of a file. -/
def ftell (i : Nat) : Int × System :=
  (if env.refuses s.calls then -1 else (s.files.content i).length, s.after s.files)

/-- `count` bytes from a position on, when so many are read. -/
def fread (i position count : Nat) : Option (List Byte) × System :=
  let bytes := ((s.files.content i).drop position).take count
  (if env.refuses s.calls || bytes.length ≠ count then none else some bytes, s.after s.files)

/-- The bytes are stored at the end of the file. -/
def fwrite (i : Nat) (bytes : List Byte) : Bool × System :=
  if env.refuses s.calls then
    (false, s.after (s.files.write i (s.files.content i ++ bytes.take (env.stored s.calls))))
  else (true, s.after (s.files.write i (s.files.content i ++ bytes)))

section Specs

variable {env s} {n d i position count : Nat} {path bytes : List Byte} {s' : System}
  {change : Option FileSystem} {r : Int} {done : Bool}

/-- Behind a call that changes nothing. -/
theorem files_of_unchanged {α : Type*} {x y : α} (h : (x, s.after s.files) = (y, s')) :
    s'.files = s.files := by
  obtain ⟨-, rfl⟩ := Prod.mk.inj h
  rfl

theorem attempt_zero (h : s.attempt env change = (0, s')) :
    ∃ files, change = some files ∧ s' = s.after files ∧ env.refuses s.calls = false := by
  unfold attempt at h
  split at h
  case isTrue => cases h
  case isFalse hallowed =>
      split at h
      case h_1 files =>
          obtain ⟨-, rfl⟩ := Prod.mk.inj h
          exact ⟨files, rfl, rfl, by simpa using hallowed⟩
      case h_2 => cases h

theorem attempt_ne_zero (h : s.attempt env change = (r, s')) (hr : r ≠ 0) :
    r = -1 ∧ s' = s.after s.files := by
  unfold attempt at h
  split at h
  case isTrue =>
      obtain ⟨rfl, rfl⟩ := Prod.mk.inj h
      exact ⟨rfl, rfl⟩
  case isFalse =>
      split at h
      case h_1 =>
          obtain ⟨rfl, -⟩ := Prod.mk.inj h
          exact absurd rfl hr
      case h_2 =>
          obtain ⟨rfl, rfl⟩ := Prod.mk.inj h
          exact ⟨rfl, rfl⟩

theorem attempt_some {files : FileSystem} (hallowed : env.refuses s.calls = false) :
    s.attempt env (some files) = (0, s.after files) := by
  simp [attempt, hallowed]

theorem opendir_some (h : s.opendir env n path = (some d, s')) :
    s.files.find path = some d ∧ s.files.isDir d = true ∧ s.refusesOpen env n = false := by
  have hdir := congrArg Prod.fst h
  simp only [opendir] at hdir
  split at hdir
  case isTrue => cases hdir
  case isFalse hallowed =>
      obtain ⟨hfind, hisDir⟩ := Option.filter_eq_some_iff.mp hdir
      exact ⟨hfind, hisDir, by simpa using hallowed⟩

theorem opendir_eq (hallowed : env.refuses s.calls = false) (hn : n ≠ 0)
    (hfind : s.files.find path = some d) (hdir : s.files.isDir d = true) :
    s.opendir env n path = (some d, s.after s.files) := by
  simp [opendir, refusesOpen, hallowed, hn, hfind, hdir]

/-- There is no directory to open. -/
theorem opendir_none (hfind : s.files.find path = none) :
    s.opendir env n path = (none, s.after s.files) := by
  simp [opendir, hfind]

theorem malloc_eq (hallowed : env.refuses s.calls = false) :
    s.malloc env = (true, s.after s.files) := by
  simp [malloc, hallowed]

theorem fopenRead_eq (hallowed : env.refuses s.calls = false) (hn : n ≠ 0)
    (hfind : s.files.find path = some i) :
    s.fopenRead env n path = (some i, s.after s.files) := by
  simp [fopenRead, refusesOpen, hallowed, hn, hfind]

theorem fopenWrite_eq {files : FileSystem} (hallowed : env.refuses s.calls = false) (hn : n ≠ 0)
    (hopen : s.files.openForWriting path = some (i, files)) :
    s.fopenWrite env n path = (some i, s.after files) := by
  simp [fopenWrite, refusesOpen, hallowed, hn, hopen]

theorem stat_eq (hallowed : env.refuses s.calls = false) (hfind : s.files.find path = some i) :
    s.stat env path = (some i, s.after s.files) := by
  simp [stat, hallowed, hfind]

theorem stat_some (h : s.stat env path = (some i, s')) :
    s.files.find path = some i ∧ env.refuses s.calls = false := by
  have hfound := congrArg Prod.fst h
  simp only [stat] at hfound
  split at hfound
  case isTrue => cases hfound
  case isFalse hallowed => exact ⟨hfound, by simpa using hallowed⟩

theorem fseek_eq (hallowed : env.refuses s.calls = false) :
    s.fseek env = (true, s.after s.files) := by
  simp [fseek, hallowed]

theorem fread_eq (hallowed : env.refuses s.calls = false)
    (hlength : position + count ≤ (s.files.content i).length) :
    s.fread env i position count =
      (some (((s.files.content i).drop position).take count), s.after s.files) := by
  have hcount : (((s.files.content i).drop position).take count).length = count := by
    rw [List.length_take, List.length_drop]
    omega
  simp [fread, hallowed, hcount]

theorem fwrite_eq (hallowed : env.refuses s.calls = false) :
    s.fwrite env i bytes = (true, s.after (s.files.write i (s.files.content i ++ bytes))) := by
  simp [fwrite, hallowed]

theorem fopenWrite_some (h : s.fopenWrite env n path = (some i, s')) :
    ∃ files, s.files.openForWriting path = some (i, files) ∧ s' = s.after files := by
  unfold fopenWrite at h
  split at h
  case isTrue => cases h
  case isFalse =>
      split at h
      case h_1 j files hopen =>
          obtain ⟨hij, rfl⟩ := Prod.mk.inj h
          obtain rfl := Option.some.inj hij
          exact ⟨files, hopen, rfl⟩
      case h_2 => cases h

theorem fopenWrite_none (h : s.fopenWrite env n path = (none, s')) : s' = s.after s.files := by
  unfold fopenWrite at h
  split at h
  case isTrue => exact (Prod.mk.inj h).2.symm
  case isFalse =>
      split at h
      case h_1 => cases h
      case h_2 => exact (Prod.mk.inj h).2.symm

theorem fwrite_files (h : s.fwrite env i bytes = (done, s')) :
    ∃ bytes', s'.files = s.files.write i bytes' := by
  unfold fwrite at h
  split at h
  · obtain ⟨-, rfl⟩ := Prod.mk.inj h
    exact ⟨_, rfl⟩
  · obtain ⟨-, rfl⟩ := Prod.mk.inj h
    exact ⟨_, rfl⟩

end Specs

end System
end Files
end OperatingSystems
