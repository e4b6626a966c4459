import OperatingSystems.Library.Pruning

/-!
# Recursive removal

`myRmdir` of `fs_manager.c`: the entries of a directory are removed one after the other, those that
`stat` shows as directories by the same function, and then the directory itself.  `n` is the number
of descriptors that are free; every directory that is open takes one, so the recursion ends.

* `Keeps.myRmdir` — a property of the files that `unlink` and `rmdir` keep on the paths which the
  recursion comes to holds behind the whole run.
-/

namespace OperatingSystems
namespace FsManager

open Files

/-- `SIZE` -/
def size : Nat := 4096

variable (env : Env)

/-- `snprintf(fullPath, sizeof(fullPath), "%s/%s", path, files->d_name)` -/
def fullPath (path name : List Byte) : List Byte :=
  (path ++ slash :: name).take (size - 1)

/-- The body of the loop, with `success` and the system; `rmdirSub` is the recursive call. -/
def removeEntry (rmdirSub : System → List Byte → Int × System) (path : List Byte)
    (acc : Int × System) (name : List Byte) : Int × System :=
  if name = dot ∨ name = dotDot then acc
  else
    match acc.2.stat env (fullPath path name) with
    | (none, s) => (-1, s)
    | (some i, s) =>
        if s.files.isDir i then
          match rmdirSub s (fullPath path name) with
          | (r, s) => (if r = -1 then -1 else acc.1, s)
        else
          match s.unlink env (fullPath path name) with
          | (r, s) => (if r = -1 then -1 else acc.1, s)

def myRmdir : Nat → System → List Byte → Int × System
  | 0, s, path => (-1, (s.opendir env 0 path).2)
  | n + 1, s, path =>
      match s.opendir env (n + 1) path with
      | (none, s) => (-1, s)
      | (some dir, s) =>
          match (s.readdir env dir).foldl (removeEntry env (myRmdir n) path) (0, s) with
          | (success, s) =>
              if success = 0 then
                match s.rmdir env path with
                | (r, s) => if r = -1 then (-1, s) else (success, s)
              else (success, s)

/-! ### Runs -/

variable {env}

/-- A property `P` of the files that every removal keeps, when the recursion comes to the paths `V`
and finds the names `N` there. -/
structure Keeps (env : Env) (P : FileSystem → Prop) (V : List Byte → Prop)
    (N : List Byte → List Byte → Prop) : Prop where
  listed : ∀ call fs p d name, V p → P fs → fs.find p = some d → name ∈ env.listing call fs d →
    name = dot ∨ name = dotDot ∨ N p name
  descend : ∀ fs p name i, V p → N p name → P fs → fs.find (fullPath p name) = some i →
    fs.isDir i = true → V (fullPath p name)
  unlink : ∀ fs new p name i, V p → N p name → P fs → fs.find (fullPath p name) = some i →
    fs.isDir i = false → fs.unlink (fullPath p name) = some new → P new
  rmdir : ∀ fs new p, V p → P fs → fs.rmdir p = some new → P new

namespace Keeps

variable {P : FileSystem → Prop} {V : List Byte → Prop} {N : List Byte → List Byte → Prop}
  {path name : List Byte}

theorem removeEntry (h : Keeps env P V N) {rmdirSub : System → List Byte → Int × System}
    (hsub : ∀ s p, V p → P s.files → P (rmdirSub s p).2.files) (hpath : V path)
    (hname : name = dot ∨ name = dotDot ∨ N path name) {acc : Int × System}
    (hacc : P acc.2.files) : P (removeEntry env rmdirSub path acc name).2.files := by
  unfold FsManager.removeEntry
  by_cases hdots : name = dot ∨ name = dotDot
  · rw [if_pos hdots]
    exact hacc
  · rw [if_neg hdots]
    have hN : N path name := by tauto
    split
    case h_1 t hstat =>
        rw [← System.files_of_unchanged hstat] at hacc
        exact hacc
    case h_2 i t hstat =>
        have hfind := (System.stat_some hstat).1
        rw [← System.files_of_unchanged hstat] at hacc hfind
        split
        case isTrue hdir =>
            exact hsub t _ (h.descend t.files path name i hpath hN hacc hfind hdir) hacc
        case isFalse hdir =>
            rcases hr : t.unlink env (fullPath path name) with ⟨r, u⟩
            show P u.files
            by_cases hzero : r = 0
            · subst hzero
              obtain ⟨files, hfiles, rfl, -⟩ := System.attempt_zero hr
              exact h.unlink t.files files path name i hpath hN hacc hfind (by simpa using hdir)
                hfiles
            · obtain ⟨-, rfl⟩ := System.attempt_ne_zero hr hzero
              exact hacc

theorem loop (h : Keeps env P V N) {rmdirSub : System → List Byte → Int × System}
    (hsub : ∀ s p, V p → P s.files → P (rmdirSub s p).2.files) (hpath : V path)
    {names : List (List Byte)} (hnames : ∀ name ∈ names, name = dot ∨ name = dotDot ∨ N path name)
    {acc : Int × System} (hacc : P acc.2.files) :
    P (names.foldl (FsManager.removeEntry env rmdirSub path) acc).2.files := by
  apply List.foldlRecOn (motive := fun acc : Int × System => P acc.2.files)
  · exact hacc
  · intro acc hacc name hname
    exact h.removeEntry hsub hpath (hnames name hname) hacc

theorem finish (h : Keeps env P V N) (hpath : V path) {success r : Int} {s s' : System}
    (hs : P s.files) (hr : (if success = 0 then
      match s.rmdir env path with
      | (r, s) => if r = -1 then (-1, s) else (success, s)
      else (success, s)) = (r, s')) : P s'.files := by
  split at hr
  case isFalse =>
      obtain ⟨-, rfl⟩ := Prod.mk.inj hr
      exact hs
  case isTrue =>
      rcases hremove : s.rmdir env path with ⟨r', u⟩
      have hu : P u.files := by
        by_cases hzero : r' = 0
        · subst hzero
          obtain ⟨files, hfiles, rfl, -⟩ := System.attempt_zero hremove
          exact h.rmdir s.files files path hpath hs hfiles
        · obtain ⟨-, rfl⟩ := System.attempt_ne_zero hremove hzero
          exact hs
      rw [hremove] at hr
      dsimp only at hr
      split at hr
      · obtain ⟨-, rfl⟩ := Prod.mk.inj hr
        exact hu
      · obtain ⟨-, rfl⟩ := Prod.mk.inj hr
        exact hu

/-- What every removal keeps holds behind the whole run. -/
theorem myRmdir (h : Keeps env P V N) : ∀ n (s : System) p, V p → P s.files →
    P (myRmdir env n s p).2.files
  | 0, _, _, _, hs => hs
  | n + 1, s, p, hp, hs => by
      unfold FsManager.myRmdir
      split
      case h_1 t hopen =>
          rw [← System.files_of_unchanged hopen] at hs
          exact hs
      case h_2 d t hopen =>
          have hfind := (System.opendir_some hopen).1
          have hfiles := System.files_of_unchanged hopen
          rw [← hfiles] at hs hfind
          have hloop : P ((t.readdir env d).foldl
              (FsManager.removeEntry env (FsManager.myRmdir env n) p) (0, t)).2.files :=
            h.loop (h.myRmdir n) hp (fun name => h.listed t.calls t.files p d name hp hs hfind) hs
          split
          case h_1 success u hu =>
              rw [hu] at hloop
              exact h.finish hp hloop rfl

end Keeps

end FsManager
end OperatingSystems
