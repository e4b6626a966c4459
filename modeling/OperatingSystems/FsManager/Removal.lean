import Mathlib.Data.List.Induction
import OperatingSystems.FsManager.Tree
import OperatingSystems.Library.Trees

/-!
# What one removal does

`myRmdir` goes on behind a failure: what it does for an entry depends on the system that it finds
when the entry has its turn, and not on the results so far.

* `entryResult`, `removeEntry_eq` — one entry by itself.
* `myRmdir_cases` — how a removal ends.
* `myRmdir_zero` — a removal that reports success has removed its directory.
* `myRmdir_full` — a path that fills the buffer is its own full path, so nothing is removed.
* `myRmdir_onlyBelow` — nothing is removed but what is below the directory, and the directory.
-/

namespace OperatingSystems
namespace FsManager

open Files

variable {env : Env} {n m : Nat} {s s' t u v w : System} {fs cur new : FileSystem}
  {path p q name : List Byte} {d e i j x y : Nat} {r flag : Int} {names : List (List Byte)}

/-! ### One entry -/

/-- What the loop does for one entry: the result, and the system behind it. -/
def entryResult (env : Env) (rmdirSub : System → List Byte → Int × System) (path : List Byte)
    (s : System) (name : List Byte) : Int × System :=
  if name = dot ∨ name = dotDot then (0, s)
  else
    match s.stat env (fullPath path name) with
    | (none, s) => (-1, s)
    | (some i, s) =>
        if s.files.isDir i then rmdirSub s (fullPath path name)
        else s.unlink env (fullPath path name)

/-- The results so far make no difference to what happens. -/
theorem removeEntry_eq (rmdirSub : System → List Byte → Int × System) (path : List Byte)
    (acc : Int × System) (name : List Byte) :
    removeEntry env rmdirSub path acc name =
      (if (entryResult env rmdirSub path acc.2 name).1 = -1 then -1 else acc.1,
        (entryResult env rmdirSub path acc.2 name).2) := by
  unfold removeEntry entryResult
  split
  · rfl
  · rcases acc.2.stat env (fullPath path name) with ⟨_ | i, s⟩
    · rfl
    · dsimp only
      split <;> rfl

/-- How an entry that is no dot is dealt with. -/
inductive EntryCase (env : Env) (rmdirSub : System → List Byte → Int × System) (path : List Byte)
    (s : System) (name : List Byte) : Int × System → Prop
  | lost (hstat : s.stat env (fullPath path name) = (none, s.after s.files)) :
      EntryCase env rmdirSub path s name (-1, s.after s.files)
  | file {i : Nat} (hstat : s.stat env (fullPath path name) = (some i, s.after s.files))
      (hdir : s.files.isDir i = false) : EntryCase env rmdirSub path s name
        ((s.after s.files).unlink env (fullPath path name))
  | dir {i : Nat} (hstat : s.stat env (fullPath path name) = (some i, s.after s.files))
      (hdir : s.files.isDir i = true) : EntryCase env rmdirSub path s name
        (rmdirSub (s.after s.files) (fullPath path name))

theorem entryResult_cases (rmdirSub : System → List Byte → Int × System) (path : List Byte)
    (s : System) (hname : IsName name) :
    EntryCase env rmdirSub path s name (entryResult env rmdirSub path s name) := by
  unfold entryResult
  rw [if_neg (not_or.mpr hname.2.2)]
  rcases hstat : s.stat env (fullPath path name) with ⟨_ | i, t⟩
  · obtain rfl : t = s.after s.files := (congrArg Prod.snd hstat).symm
    exact .lost hstat
  · obtain rfl : t = s.after s.files := (congrArg Prod.snd hstat).symm
    dsimp only
    split
    case isTrue hdir => exact .dir hstat hdir
    case isFalse hdir => exact .file hstat (Bool.eq_false_iff.mpr hdir)

theorem entryResult_dots (rmdirSub : System → List Byte → Int × System) (path : List Byte)
    (s : System) (hdots : name = dot ∨ name = dotDot) :
    entryResult env rmdirSub path s name = (0, s) :=
  if_pos hdots

/-! ### The results -/

theorem attempt_result (env : Env) (s : System) (change : Option FileSystem) :
    (s.attempt env change).1 = 0 ∨ (s.attempt env change).1 = -1 := by
  unfold System.attempt
  split
  · exact .inr rfl
  · split
    · exact .inl rfl
    · exact .inr rfl

/-- The loop of `myRmdir` for the directory `d` under the path `p`. -/
def rmdirLoop (env : Env) (n : Nat) (p : List Byte) (t : System) (names : List (List Byte)) :
    Int × System :=
  names.foldl (removeEntry env (myRmdir env n) p) (0, t)

theorem rmdirLoop_concat (n : Nat) (p : List Byte) (t : System) (names : List (List Byte))
    (name : List Byte) :
    rmdirLoop env n p t (names ++ [name]) =
      (if (entryResult env (myRmdir env n) p (rmdirLoop env n p t names).2 name).1 = -1 then -1
        else (rmdirLoop env n p t names).1,
        (entryResult env (myRmdir env n) p (rmdirLoop env n p t names).2 name).2) := by
  rw [rmdirLoop, List.foldl_concat, removeEntry_eq]
  rfl

theorem rmdirLoop_result (env : Env) (n : Nat) (p : List Byte) (t : System) (names : List (List Byte)) :
    (rmdirLoop env n p t names).1 = 0 ∨ (rmdirLoop env n p t names).1 = -1 := by
  induction names using List.reverseRecOn with
  | nil => exact .inl rfl
  | append_singleton names name ih =>
      rw [rmdirLoop_concat]
      dsimp only
      split
      · exact .inr rfl
      · exact ih

/-- How a removal ends: the directory cannot be opened, an entry is left, or the directory itself
is removed. -/
inductive Ends (env : Env) (n : Nat) (s : System) (p : List Byte) : Int × System → Prop
  | closed (hopen : (s.opendir env n p).1 = none) : Ends env n s p (-1, s.after s.files)
  | left {m d : Nat} {u : System} (hn : n = m + 1)
      (hopen : s.opendir env (m + 1) p = (some d, s.after s.files))
      (hloop : rmdirLoop env m p (s.after s.files) ((s.after s.files).readdir env d) = (-1, u)) :
      Ends env n s p (-1, u)
  | done {m d : Nat} {u : System} (hn : n = m + 1)
      (hopen : s.opendir env (m + 1) p = (some d, s.after s.files))
      (hloop : rmdirLoop env m p (s.after s.files) ((s.after s.files).readdir env d) = (0, u)) :
      Ends env n s p (u.rmdir env p)

theorem myRmdir_cases (env : Env) (n : Nat) (s : System) (p : List Byte) :
    Ends env n s p (myRmdir env n s p) := by
  cases n with
  | zero => exact .closed (by simp [System.opendir, System.refusesOpen])
  | succ n =>
      unfold myRmdir
      rcases hopen : s.opendir env (n + 1) p with ⟨_ | d, t⟩
      · obtain rfl : t = s.after s.files := (congrArg Prod.snd hopen).symm
        exact .closed (congrArg Prod.fst hopen)
      · obtain rfl : t = s.after s.files := (congrArg Prod.snd hopen).symm
        dsimp only
        rcases hloop : (((s.after s.files).readdir env d).foldl (removeEntry env (myRmdir env n) p)
          (0, s.after s.files)) with ⟨success, u⟩
        dsimp only
        have hresult := rmdirLoop_result env n p (s.after s.files)
          ((s.after s.files).readdir env d)
        rw [rmdirLoop, hloop] at hresult
        rcases hresult with rfl | rfl
        · rw [if_pos rfl]
          have hrmdir : (if (u.rmdir env p).1 = -1 then (-1, (u.rmdir env p).2)
              else (0, (u.rmdir env p).2)) = u.rmdir env p := by
            rcases attempt_result env u (u.files.rmdir p) with hzero | hminus
            · exact (if_neg (by rw [System.rmdir, hzero]; decide)).trans (Prod.ext hzero.symm rfl)
            · exact (if_pos hminus).trans (Prod.ext hminus.symm rfl)
          rw [hrmdir]
          exact .done rfl hopen hloop
        · rw [if_neg (by decide)]
          exact .left rfl hopen hloop

theorem myRmdir_result (env : Env) (n : Nat) (s : System) (p : List Byte) :
    (myRmdir env n s p).1 = 0 ∨ (myRmdir env n s p).1 = -1 := by
  have hends := myRmdir_cases env n s p
  generalize myRmdir env n s p = out at hends ⊢
  cases hends with
  | closed => exact .inr rfl
  | left => exact .inr rfl
  | done => exact attempt_result _ _ _

/-! ### Entries only go away -/

/-- Nothing but entries has gone. -/
def Shrunk (fs cur : FileSystem) : Prop :=
  Pruned (fun _ _ => True) fs cur

theorem keeps_shrunk (env : Env) (fs : FileSystem) :
    Keeps env (Shrunk fs) (fun _ => True) (fun _ _ => True) where
  listed _ _ _ _ _ _ _ _ _ := .inr (.inr trivial)
  descend _ _ _ _ _ _ _ _ _ := trivial
  unlink cur new p name i _ _ hcur _ _ hunlink := by
    obtain ⟨-, x, last, j, -, hj, -, rfl⟩ := FileSystem.unlink_eq_some_iff.mp hunlink
    exact hcur.remove hj trivial
  rmdir cur new p _ hcur hrmdir := by
    obtain ⟨x, last, y, -, hy, -, rfl⟩ := FileSystem.rmdir_eq_some_iff.mp hrmdir
    exact hcur.remove hy trivial

theorem myRmdir_shrunk (env : Env) (n : Nat) (s : System) (p : List Byte) (h : Shrunk fs s.files) :
    Shrunk fs (myRmdir env n s p).2.files :=
  (keeps_shrunk env fs).myRmdir n s p trivial h

theorem rmdirLoop_shrunk (env : Env) (n : Nat) (p : List Byte) (t : System)
    (names : List (List Byte)) (h : Shrunk fs t.files) : Shrunk fs (rmdirLoop env n p t names).2.files :=
  (keeps_shrunk env fs).loop (fun s p _ hs => myRmdir_shrunk env n s p hs) trivial
    (fun _ _ => .inr (.inr trivial)) h

theorem entryResult_shrunk (env : Env) (n : Nat) (s : System) (p name : List Byte)
    (h : Shrunk fs s.files) :
    Shrunk fs (entryResult env (myRmdir env n) p s name).2.files := by
  have hentry : Shrunk fs (removeEntry env (myRmdir env n) p (0, s) name).2.files :=
    (keeps_shrunk env fs).removeEntry (fun s p _ hs => myRmdir_shrunk env n s p hs) trivial
      (.inr (.inr trivial)) h
  rwa [removeEntry_eq] at hentry

/-- What `myRmdir` has done when it reports success. -/
structure Removed (env : Env) (n : Nat) (s : System) (p : List Byte) (d m : Nat) (u : System)
    (x : Nat) (last : List Byte) : Prop where
  succ : n = m + 1
  opens : s.opendir env (m + 1) p = (some d, s.after s.files)
  loop : rmdirLoop env m p (s.after s.files) ((s.after s.files).readdir env d) = (0, u)
  place : u.files.place p = some (x, last)
  entry : u.files.entry x last = some d
  isEmptyDir : u.files.isEmptyDir d = true
  files : (myRmdir env n s p).2.files = u.files.remove x last

/-- A removal that reports success has removed the directory. -/
theorem myRmdir_zero (h : (myRmdir env n s p).1 = 0) :
    ∃ d m u x last, Removed env n s p d m u x last := by
  have hends := myRmdir_cases env n s p
  generalize hout : myRmdir env n s p = out at hends h
  cases hends with
  | closed => cases h
  | left => cases h
  | @done m d u hn hopen hloop =>
      obtain ⟨files, hfiles, hafter, -⟩ := System.attempt_zero (Prod.ext h rfl)
      obtain ⟨x, last, y, hplace, hy, hempty, rfl⟩ := FileSystem.rmdir_eq_some_iff.mp hfiles
      -- the directory that is removed is the one that was opened
      have hshrunk : Shrunk s.files u.files := by
        have hloopShrunk := rmdirLoop_shrunk env m p (s.after s.files)
          ((s.after s.files).readdir env d) (Pruned.refl _ s.files)
        rwa [hloop] at hloopShrunk
      obtain ⟨q, hq⟩ := FileSystem.isEmptyDir_iff.mp hempty
      obtain ⟨k, es, hx, hlookup⟩ := FileSystem.entry_eq_some_iff.mp hy
      have hfind := FileSystem.find_of_place hplace hx hlookup
        (FileSystem.isDir_iff.mpr ⟨q, [], hq⟩)
      obtain rfl : d = y :=
        Option.some.inj ((System.opendir_some hopen).1.symm.trans (hshrunk.within.find hfind))
      exact ⟨d, m, u, x, last, hn, hopen, hloop, hplace, hy, hempty, by rw [hout]; exact congrArg System.files hafter⟩

theorem mem_readdir (hlists : env.ListsAll) :
    name ∈ s.readdir env d ↔ name = dot ∨ name = dotDot ∨ name ∈ s.files.names d := by
  rw [System.readdir, (hlists s.calls s.files d).mem_iff, List.mem_cons, List.mem_cons]

/-! ### Paths that fill the buffer -/

/-- The full path of an entry under a path that leaves no room for a name: this is the path again,
or the path with a slash behind it. -/
theorem find_fullPath_full (hlen : size ≤ p.length + 2) (hfind : fs.find p = some e)
    (hdir : fs.isDir e = true) (hname : IsName name) :
    fs.find (fullPath p name) = some e ∧ size ≤ (fullPath p name).length + 2 := by
  have hsize : size = 4096 := rfl
  have hshort := FileSystem.lt_of_isPath (FileSystem.find_eq_some_iff.mp hfind).1
  rcases fullPath_eq hshort hname with ⟨heq, -⟩ | ⟨piece, -, heq, -⟩
  · rw [heq]
    exact ⟨hfind, hlen⟩
  · have hle : (fullPath p name).length ≤ size - 1 := List.length_take_le _ _
    rw [heq, List.length_append, List.length_cons] at hle
    obtain rfl : piece = [] := List.eq_nil_of_length_eq_zero (by omega)
    rw [heq]
    refine ⟨FileSystem.find_dir_slash hfind hdir ?_, by rw [List.length_append]; omega⟩
    have hmax : pathMax = 4096 := rfl
    rw [List.length_nil] at hle
    omega

/-- Under such a path nothing is removed and a failure is reported, unless the directory is empty and
has this path. -/
def FullKept (env : Env) (n : Nat) : Prop :=
  ∀ (s : System) p e, size ≤ p.length + 2 → s.files.find p = some e →
    s.files.names e ≠ [] ∨ s.files.place p = none →
      (myRmdir env n s p).1 = -1 ∧ (myRmdir env n s p).2.files = s.files

/-- The loop changes nothing; it reports a failure if there is an entry. -/
theorem rmdirLoop_full (hsub : FullKept env n) (hlen : size ≤ p.length + 2)
    (hfind : t.files.find p = some e) (hdir : t.files.isDir e = true)
    (hnames : ∀ name ∈ names, name = dot ∨ name = dotDot ∨ name ∈ t.files.names e) :
    (rmdirLoop env n p t names).2.files = t.files ∧
      ((∃ name ∈ names, name ∈ t.files.names e) → (rmdirLoop env n p t names).1 = -1) := by
  induction names using List.reverseRecOn with
  | nil => exact ⟨rfl, by simp⟩
  | append_singleton names name ih =>
      obtain ⟨hfiles, hflag⟩ := ih fun other hother => hnames other (List.mem_append_left _ hother)
      rw [rmdirLoop_concat]
      generalize rmdirLoop env n p t names = acc at hfiles hflag
      by_cases hdots : name = dot ∨ name = dotDot
      · rw [entryResult_dots _ _ _ hdots]
        refine ⟨hfiles, fun ⟨other, hother, hentry⟩ => ?_⟩
        show (if (0 : Int) = -1 then -1 else acc.1) = -1
        rw [if_neg (by decide)]
        rcases List.mem_append.mp hother with hmem | hmem
        · exact hflag ⟨other, hmem, hentry⟩
        · obtain rfl := List.mem_singleton.mp hmem
          have hname := (FileSystem.isName_of_mem_names hentry).2.2
          tauto
      · have hentry : name ∈ t.files.names e := by
          have hname := hnames name (List.mem_append_right _ (List.mem_singleton_self name))
          tauto
        have hname := FileSystem.isName_of_mem_names hentry
        obtain ⟨hsame, hsameLen⟩ := find_fullPath_full hlen hfind hdir hname
        have hcase : EntryCase env (myRmdir env n) p acc.2 name
            (entryResult env (myRmdir env n) p acc.2 name) := entryResult_cases _ p acc.2 hname
        generalize entryResult env (myRmdir env n) p acc.2 name = out at hcase
        have hout : out.1 = -1 ∧ out.2.files = t.files := by
          cases hcase with
          | lost => exact ⟨rfl, hfiles⟩
          | file hstat hnodir =>
              have hi := (System.stat_some hstat).1
              rw [hfiles, hsame, Option.some.injEq] at hi
              rw [hfiles, ← hi, hdir] at hnodir
              cases hnodir
          | dir hstat =>
              have hrec := hsub (acc.2.after acc.2.files) (fullPath p name) e hsameLen
                (by rw [System.after, hfiles]; exact hsame)
                (.inl (by rw [System.after, hfiles]; exact List.ne_nil_of_mem hentry))
              exact ⟨hrec.1, hrec.2.trans hfiles⟩
        exact ⟨hout.2, fun _ => if_pos hout.1⟩

theorem myRmdir_full (hlists : env.ListsAll) : ∀ n, FullKept env n
  | 0, _, _, _, _, _, _ => ⟨rfl, rfl⟩
  | n + 1, s, p, e, hlen, hfind, hkept => by
      have hdone : ∀ {m d flag u}, n + 1 = m + 1 →
          s.opendir env (m + 1) p = (some d, s.after s.files) →
          rmdirLoop env m p (s.after s.files) ((s.after s.files).readdir env d) = (flag, u) →
          u.files = s.files ∧ (flag = 0 → s.files.place p = none) := by
        intro m d flag u hn hopen hrun
        obtain ⟨hd, hdir, -⟩ := System.opendir_some hopen
        obtain rfl := Option.some.inj (hd.symm.trans hfind)
        obtain rfl := Nat.succ.inj hn
        obtain ⟨hfiles, hflag⟩ := rmdirLoop_full (myRmdir_full hlists n) (t := s.after s.files)
          hlen hfind hdir fun name => (mem_readdir hlists).mp
        rw [hrun] at hfiles hflag
        refine ⟨hfiles, fun hzero => hkept.resolve_left fun hne => ?_⟩
        obtain ⟨name, hname⟩ := List.exists_mem_of_ne_nil _ hne
        have hminus := hflag ⟨name, (mem_readdir hlists).mpr (.inr (.inr hname)), hname⟩
        rw [hzero] at hminus
        cases hminus
      have hends := myRmdir_cases env (n + 1) s p
      generalize myRmdir env (n + 1) s p = out at hends
      cases hends with
      | closed => exact ⟨rfl, rfl⟩
      | left hn hopen hrun => exact ⟨rfl, (hdone hn hopen hrun).1⟩
      | @done m d u hn hopen hrun =>
          obtain ⟨hfiles, hplace⟩ := hdone hn hopen hrun
          have hnone : u.files.rmdir p = none := by
            rw [FileSystem.rmdir, hfiles, hplace rfl]
          have hfails : u.rmdir env p = (-1, u.after u.files) := by
            rw [System.rmdir, hnone, System.attempt]
            split <;> rfl
          rw [hfails]
          exact ⟨rfl, hfiles⟩

/-! ### What is not below the directory stays -/

/-- No link in the tree below `d` leads to a directory. -/
def NoDirLinks (fs : FileSystem) (d : Nat) : Prop :=
  ∀ p e name j target k, Inside fs d e → fs.find p = some e → fs.entry e name = some j →
    fs.node j = some (.link target) → fs.find (p ++ slash :: name) = some k → fs.isDir k = false

/-- The entries of the directories that are not below `e` are kept. -/
def OnlyBelow (fs : FileSystem) (e : Nat) (cur new : FileSystem) : Prop :=
  ∀ a name b, ¬ Inside fs e a → cur.entry a name = some b → new.entry a name = some b

theorem OnlyBelow.trans {mid : FileSystem} (h : OnlyBelow fs e cur mid)
    (h' : OnlyBelow fs e mid new) : OnlyBelow fs e cur new :=
  fun a name b ha hb => h' a name b ha (h a name b ha hb)

/-- A removal takes away what is below its directory, and this directory if it reports success. -/
def RemovesBelow (env : Env) (fs : FileSystem) (d n : Nat) : Prop :=
  ∀ (s : System) p e, Inside fs d e → Shrunk fs s.files → s.files.find p = some e →
    ∀ a name b, ¬ Inside fs e a → s.files.entry a name = some b →
      (myRmdir env n s p).2.files.entry a name = some b ∨ b = e ∧ (myRmdir env n s p).1 = 0

/-- The piece of the name that is left in the full path: a name, or dots at the end of the
buffer. -/
theorem fullPath_piece (hlen : p.length + 2 < size) (hname : IsName name) :
    ∃ piece, fullPath p name = p ++ slash :: piece ∧ (IsName piece ∨
      (piece = dot ∨ piece = dotDot) ∧ size ≤ (fullPath p name).length + 2) := by
  rcases fullPath_eq (by omega : p.length < size) hname with ⟨-, hfull⟩ | ⟨piece, hslash, heq, hpiece⟩
  · omega
  · refine ⟨piece, heq, ?_⟩
    rcases hpiece with rfl | hfull
    · exact .inl hname
    · have hnil : piece ≠ [] := by
        rintro rfl
        rw [heq, List.length_append, List.length_cons, List.length_nil] at hfull
        omega
      by_cases hdots : piece = dot ∨ piece = dotDot
      · exact .inr ⟨hdots, by omega⟩
      · exact .inl ⟨hnil, hslash, not_or.mp hdots⟩

/-- A directory that is found behind a path is the entry of the directory before it. -/
theorem entry_of_found (hlinks : NoDirLinks fs d) (he : Inside fs d e) (hcur : Shrunk fs cur)
    (hfind : fs.find p = some e) (hname : IsName name)
    (hi : cur.find (p ++ slash :: name) = some i) (hdir : cur.isDir i = true) :
    cur.entry e name = some i := by
  obtain ⟨k, hplace⟩ := FileSystem.exists_place_of_find hname hi
  obtain ⟨rfl, -⟩ := FileSystem.place_behind hname hplace hcur.within hfind
  obtain ⟨q, es, j, node, hnode, hlookup, hj, hlink⟩ := FileSystem.entry_of_find hplace hi
  have hentry := FileSystem.entry_eq_some_iff.mpr ⟨q, es, hnode, hlookup⟩
  have hno : ∀ target, node ≠ .link target := by
    rintro target rfl
    obtain ⟨node', hj', hwithin⟩ := hcur.within.node j _ hj
    obtain rfl := (hwithin.link_iff target).mp rfl
    have hnodir := hlinks p k name j target i he hfind (hcur.within.entry hentry) hj'
      (hcur.within.find hi)
    rw [hcur.within.isDir hdir] at hnodir
    cases hnodir
  rw [← hlink hno]
  exact hentry

theorem entryResult_onlyBelow (hlists : env.ListsAll) (hlinks : NoDirLinks fs d)
    (hsub : RemovesBelow env fs d n) (he : Inside fs d e) (hu : Shrunk fs u.files)
    (hfind : fs.find p = some e) (hlen : p.length + 2 < size) (hname : IsName name) :
    OnlyBelow fs e u.files (entryResult env (myRmdir env n) p u name).2.files := by
  obtain ⟨piece, hfull, hpiece⟩ := fullPath_piece hlen hname
  have hcase : EntryCase env (myRmdir env n) p u name
      (entryResult env (myRmdir env n) p u name) := entryResult_cases _ p u hname
  generalize entryResult env (myRmdir env n) p u name = out at hcase
  cases hcase with
  | lost => exact fun _ _ _ _ hb => hb
  | @file i hstat hnodir =>
      rcases hr : (u.after u.files).unlink env (fullPath p name) with ⟨r, t⟩
      by_cases hzero : r = 0
      · subst hzero
        obtain ⟨files, hfiles, rfl, -⟩ := System.attempt_zero hr
        obtain ⟨-, x, last, j, hplace, -, -, rfl⟩ := FileSystem.unlink_eq_some_iff.mp hfiles
        rw [hfull] at hplace
        rcases hpiece with hisName | ⟨hdots, -⟩
        · obtain ⟨rfl, -⟩ := FileSystem.place_behind hisName hplace hu.within hfind
          intro a other b ha hb
          have hne : ¬ (a = x ∧ other = last) := by
            rintro ⟨rfl, -⟩
            exact ha .root
          exact (FileSystem.entry_remove _ _ _ _ _).trans ((if_neg hne).trans hb)
        · rw [FileSystem.place_dots hdots] at hplace
          cases hplace
      · obtain ⟨-, rfl⟩ := System.attempt_ne_zero hr hzero
        exact fun _ _ _ _ hb => hb
  | @dir i hstat hdir =>
      have hi := (System.stat_some hstat).1
      rcases hpiece with hisName | ⟨hdots, hlong⟩
      · rw [hfull] at hi ⊢
        have hentry := entry_of_found hlinks he hu hfind hisName hi hdir
        have hold := hu.within.entry hentry
        have holdDir := hu.within.isDir hdir
        have hinside : Inside fs e i := Inside.root.child hold holdDir
        intro a other b ha hb
        have hnot : ¬ Inside fs i a := fun h => ha (hinside.trans h)
        rcases hsub (u.after u.files) _ i (he.trans hinside) hu hi a other b hnot hb with
          hkept | ⟨rfl, -⟩
        · exact hkept
        · -- the entry is one of the directory that was removed
          have hother := hu.within.entry hb
          obtain rfl := FileSystem.parent_unique holdDir hold hother
          exact absurd .root ha
      · have hnone : (u.after u.files).files.place (fullPath p name) = none := by
          rw [hfull]
          exact FileSystem.place_dots hdots p
        have hsame := (myRmdir_full hlists n (u.after u.files) _ i hlong hi (.inr hnone)).2
        intro a other b _ hb
        rw [hsame]
        exact hb

theorem rmdirLoop_onlyBelow (hlists : env.ListsAll) (hlinks : NoDirLinks fs d)
    (hsub : RemovesBelow env fs d n) (he : Inside fs d e) (ht : Shrunk fs t.files)
    (hfind : t.files.find p = some e) (hdir : t.files.isDir e = true)
    (hnames : ∀ name ∈ names, name = dot ∨ name = dotDot ∨ name ∈ t.files.names e) :
    OnlyBelow fs e t.files (rmdirLoop env n p t names).2.files := by
  by_cases hlen : p.length + 2 < size
  · induction names using List.reverseRecOn with
    | nil => exact fun _ _ _ _ hb => hb
    | append_singleton names name ih =>
        have hbefore := ih fun other hother => hnames other (List.mem_append_left _ hother)
        rw [rmdirLoop_concat]
        by_cases hdots : name = dot ∨ name = dotDot
        · rw [entryResult_dots _ _ _ hdots]
          exact hbefore
        · have hname : IsName name := by
            rcases hnames name (List.mem_append_right _ (List.mem_singleton_self name)) with
              hdot | hdot | hentry
            · exact absurd (.inl hdot) hdots
            · exact absurd (.inr hdot) hdots
            · exact FileSystem.isName_of_mem_names hentry
          exact hbefore.trans (entryResult_onlyBelow hlists hlinks hsub he
            (rmdirLoop_shrunk env n p t names ht) (ht.within.find hfind) hlen hname)
  · have hsame := (rmdirLoop_full (myRmdir_full hlists n) (by omega) hfind hdir hnames).1
    intro a name b _ hb
    rw [hsame]
    exact hb

theorem myRmdir_onlyBelow (hlists : env.ListsAll) (hlinks : NoDirLinks fs d) :
    ∀ n, RemovesBelow env fs d n
  | 0, _, _, _, _, _, _, _, _, _, _, hb => .inl hb
  | n + 1, s, p, e, he, hs, hfind, a, name, b, ha, hb => by
      have hloop : ∀ {m k flag u}, n + 1 = m + 1 →
          s.opendir env (m + 1) p = (some k, s.after s.files) →
          rmdirLoop env m p (s.after s.files) ((s.after s.files).readdir env k) = (flag, u) →
          k = e ∧ u.files.entry a name = some b := by
        intro m k flag u hn hopen hrun
        obtain ⟨hk, hdir, -⟩ := System.opendir_some hopen
        obtain rfl := Option.some.inj (hk.symm.trans hfind)
        obtain rfl := Nat.succ.inj hn
        have hbelow := rmdirLoop_onlyBelow hlists hlinks (myRmdir_onlyBelow hlists hlinks n) he
          (t := s.after s.files) hs hfind hdir fun other => (mem_readdir hlists).mp
        have hkept := hbelow a name b ha hb
        rw [hrun] at hkept
        exact ⟨rfl, hkept⟩
      by_cases hzero : (myRmdir env (n + 1) s p).1 = 0
      · obtain ⟨k, m, u, x, last, hremoved⟩ := myRmdir_zero hzero
        obtain ⟨rfl, hkept⟩ := hloop hremoved.succ hremoved.opens hremoved.loop
        rw [hremoved.files, FileSystem.entry_remove]
        by_cases hsame : a = x ∧ name = last
        · obtain ⟨rfl, rfl⟩ := hsame
          exact .inr ⟨Option.some.inj (hkept.symm.trans hremoved.entry), hzero⟩
        · rw [if_neg hsame]
          exact .inl hkept
      · left
        have hends := myRmdir_cases env (n + 1) s p
        generalize myRmdir env (n + 1) s p = out at hends hzero ⊢
        cases hends with
        | closed => exact hb
        | left hn hopen hrun => exact (hloop hn hopen hrun).2
        | @done m k u hn hopen hrun =>
            rcases hr : u.rmdir env p with ⟨r, t⟩
            rw [hr] at hzero
            obtain ⟨-, rfl⟩ := System.attempt_ne_zero hr hzero
            exact (hloop hn hopen hrun).2

end FsManager
end OperatingSystems
