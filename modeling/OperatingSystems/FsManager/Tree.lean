import Mathlib.Logic.Relation
import OperatingSystems.FsManager.Rmdir

/-!
# Where the removal can get to

`myRmdir` asks `stat` what an entry is, and `stat` follows links: an entry that is a link to a
directory is descended into, wherever the directory is.

* `Visits` — the paths that the recursion can come to in a given file system.
* `NoWayOut` — nothing that can be removed under such a path is outside the tree.
* `staysInside_iff` — this is when `myRmdir` stays inside, whatever the order of the entries and
  whichever calls are refused.
-/

namespace OperatingSystems
namespace FsManager

open Files

variable {fs cur new : FileSystem} {path p q name : List Byte} {d i j x y : Nat}

/-- The entries that may be removed: those in the tree below `d`, and the one of `d` itself. -/
def MayRemove (fs : FileSystem) (d i j : Nat) : Prop :=
  Inside fs d i ∨ j = d

/-- Nothing but entries of the tree was removed. -/
def StaysInside (fs : FileSystem) (d : Nat) (new : FileSystem) : Prop :=
  Pruned (MayRemove fs d) fs new

/-! ### The paths of the recursion -/

/-- The recursion can go on from the directory under path `p` to the one under path `q`. -/
def Descends (fs : FileSystem) (p q : List Byte) : Prop :=
  ∃ d name i, fs.find p = some d ∧ name ∈ fs.names d ∧ q = fullPath p name ∧
    fs.find q = some i ∧ fs.isDir i = true

/-- The paths that the recursion can come to. -/
def Visits (fs : FileSystem) (path : List Byte) : List Byte → Prop :=
  Relation.ReflTransGen (Descends fs) path

/-- What can be removed under the paths of the recursion is inside: what `stat` shows not to be a
directory, and the empty directories that are there under their own name. -/
structure NoWayOut (fs : FileSystem) (path : List Byte) (d : Nat) : Prop where
  file : ∀ p e name i x last, Visits fs path p → fs.find p = some e → name ∈ fs.names e →
    fs.find (fullPath p name) = some i → fs.isDir i = false →
      fs.place (fullPath p name) = some (x, last) → Inside fs d x
  dir : ∀ p x last y, Visits fs path p → fs.place p = some (x, last) →
    fs.entry x last = some y → fs.isEmptyDir y = true → y = d ∨ Inside fs d x

/-- The full path is cut off where the buffer ends. -/
theorem fullPath_eq (hlen : p.length < size) (hname : IsName name) :
    fullPath p name = p ∧ p.length + 1 = size ∨
    ∃ piece, slash ∉ piece ∧ fullPath p name = p ++ slash :: piece ∧
      (piece = name ∨ (fullPath p name).length + 1 = size) := by
  have hsize : size = 4096 := rfl
  by_cases hfull : p.length + 1 = size
  · left
    refine ⟨?_, hfull⟩
    have hcut : size - 1 = p.length := by omega
    rw [fullPath, hcut, List.take_left]
  · right
    have hcut : size - 1 = p.length + (size - 1 - p.length - 1 + 1) := by omega
    have heq : fullPath p name = p ++ slash :: name.take (size - 1 - p.length - 1) := by
      rw [fullPath, hcut, List.take_length_add_append, List.take_succ_cons]
      simp
    refine ⟨name.take (size - 1 - p.length - 1), ?_, heq, ?_⟩
    · intro hmem
      exact hname.2.1 (List.mem_of_mem_take hmem)
    · by_cases hshort : name.length ≤ size - 1 - p.length - 1
      · left
        exact List.take_of_length_le hshort
      · right
        rw [heq, List.length_append, List.length_cons, List.length_take]
        omega

/-- The names that a visited path has behind those of the first: the first one is no `.` or `..`,
or the path is full and ends in one of these. -/
structure Behind (path p : List Byte) (rest : List (List Byte)) : Prop where
  start : path <+: p
  names : components p = components path ++ rest
  first : (∀ r ∈ rest.head?, r ≠ dot ∧ r ≠ dotDot) ∨
    p.length + 1 = size ∧ ∃ r, rest.getLast? = some r ∧ (r = dot ∨ r = dotDot)

theorem Behind.refl (path : List Byte) : Behind path path [] :=
  ⟨List.prefix_rfl, by simp, .inl (by simp)⟩

theorem Behind.step {rest : List (List Byte)} (h : Behind path p rest) (hlen : p.length < size)
    (hname : IsName name) : ∃ rest', Behind path (fullPath p name) rest' := by
  rcases fullPath_eq hlen hname with ⟨heq, hfull⟩ | ⟨piece, hslash, heq, hpiece⟩
  · rw [heq]
    exact ⟨rest, h⟩
  · have hcomponents : components (fullPath p name) =
        components path ++ (rest ++ if piece = [] then [] else [piece]) := by
      rw [heq, components_slash hslash, h.names, List.append_assoc]
    have hstart : path <+: fullPath p name := by
      rw [heq]
      exact h.start.trans (List.prefix_append _ _)
    have hfirst : ∀ r ∈ rest.head?, r ≠ dot ∧ r ≠ dotDot := by
      rcases h.first with hfirst | ⟨hfull, -⟩
      · exact hfirst
      · have hlonger : (fullPath p name).length ≤ size - 1 := List.length_take_le _ _
        rw [heq, List.length_append, List.length_cons] at hlonger
        omega
    refine ⟨_, hstart, hcomponents, ?_⟩
    by_cases hnil : piece = []
    · rw [if_pos hnil, List.append_nil]
      exact .inl hfirst
    · rw [if_neg hnil]
      by_cases hdots : piece = dot ∨ piece = dotDot
      · right
        refine ⟨?_, piece, by simp, hdots⟩
        rcases hpiece with rfl | hfull
        · have hnot := hname.2.2
          tauto
        · exact hfull
      · left
        cases rest with
        | nil =>
            intro r hr
            obtain rfl : piece = r := by simpa using hr
            exact not_or.mp hdots
        | cons r rest => simpa using hfirst

theorem behind_of_visits (h : Visits fs path p) : ∃ rest, Behind path p rest := by
  induction h with
  | refl => exact ⟨[], Behind.refl path⟩
  | tail _ hstep ih =>
      obtain ⟨e, name, i, hfind, hname, rfl, -, -⟩ := hstep
      obtain ⟨rest, hrest⟩ := ih
      have hpath := (FileSystem.find_eq_some_iff.mp hfind).1
      exact hrest.step (FileSystem.lt_of_isPath hpath) (FileSystem.isName_of_mem_names hname)

/-! ### Nothing outside is removed -/

/-- When the directory is empty, a visited path that names a directory is a path to it. -/
theorem eq_of_emptied (hpath : fs.find path = some d) (hvisits : Visits fs path p)
    (hwithin : cur.Within fs) (hempty : cur.isEmptyDir d = true)
    (hplace : cur.place p = some (x, name)) (hy : cur.entry x name = some y)
    (hdir : cur.isDir y = true) : y = d := by
  obtain ⟨rest, hstart, hnames, hfirst⟩ := behind_of_visits hvisits
  obtain ⟨q, es, hx, hlookup⟩ := FileSystem.entry_eq_some_iff.mp hy
  have hfind := FileSystem.find_of_place hplace hx hlookup hdir
  have hwalk := FileSystem.walk_components hfind
  have hsame : cur.startIn cur.cwd p = fs.startIn fs.cwd path := by
    obtain ⟨more, rfl⟩ := hstart
    have hne := FileSystem.ne_nil_of_isPath (FileSystem.find_eq_some_iff.mp hpath).1
    rw [FileSystem.startIn_append hne, hwithin.startIn, hwithin.cwd]
  rw [hnames, hsame] at hwalk
  obtain ⟨e, m, -, he, hmore⟩ := FileSystem.walk_append hwalk
  -- the names of `path` lead to `d` now as they did before
  obtain rfl : d = e := by
    have hd := (FileSystem.walk_components hpath).symm.trans (hwithin.walk he)
    simpa using hd
  rw [hmore] at hwalk
  cases rest with
  | nil =>
      rw [FileSystem.walk_nil] at hwalk
      simpa using hwalk.symm
  | cons r rest =>
      obtain ⟨k, hd⟩ := FileSystem.isEmptyDir_iff.mp hempty
      obtain ⟨-, hlast, hnotdots, -⟩ := FileSystem.place_eq_some_iff.mp hplace
      have hr : r ≠ dot ∧ r ≠ dotDot := by
        rcases hfirst with hfirst | ⟨-, last, hlast', hdots⟩
        · exact hfirst r rfl
        · rw [hnames, List.getLast?_append, hlast', Option.some_or, Option.some.injEq] at hlast
          subst hlast
          tauto
      have hmissing := FileSystem.walk_missing m hd hr rfl rest
      rw [hmissing] at hwalk
      split at hwalk <;> cases hwalk

/-- What has been removed so far may be removed; when the entry of the directory itself is gone, it
is empty. -/
def Sound (fs : FileSystem) (d : Nat) (cur : FileSystem) : Prop :=
  Pruned (fun i j => MayRemove fs d i j ∧ (j = d → cur.isEmptyDir d = true)) fs cur

theorem Sound.remove (h : Sound fs d cur) (hy : cur.entry x name = some y)
    (hmay : MayRemove fs d x y) (hempty : y = d → cur.isEmptyDir d = true) :
    Sound fs d (cur.remove x name) := by
  have hmono : Pruned (fun i j => MayRemove fs d i j ∧
      (j = d → (cur.remove x name).isEmptyDir d = true)) fs cur :=
    Pruned.mono h fun i j hij => ⟨hij.1, fun hjd => FileSystem.isEmptyDir_remove (hij.2 hjd)⟩
  exact hmono.remove hy ⟨hmay, fun hyd => FileSystem.isEmptyDir_remove (hempty hyd)⟩

/-- A directory that is empty now and has its own entry may be removed. -/
theorem mayRemove_of_empty (hpath : fs.find path = some d) (hno : NoWayOut fs path d)
    (hvisits : Visits fs path p) (h : Sound fs d cur) (hplace : cur.place p = some (x, name))
    (hy : cur.entry x name = some y) (hempty : cur.isEmptyDir y = true) :
    MayRemove fs d x y := by
  have hwithin := h.within
  obtain ⟨k, hk⟩ := FileSystem.isEmptyDir_iff.mp hempty
  obtain ⟨es, hes, -⟩ := hwithin.dir hk
  have hyold := hwithin.entry hy
  cases es with
  | nil =>
      have hold := hno.dir p x name y hvisits (hwithin.place hplace) hyold
        (FileSystem.isEmptyDir_iff.mpr ⟨k, hes⟩)
      exact hold.symm
  | cons e es =>
      -- an entry of `y` is gone, so it is inside or named the directory itself
      obtain ⟨es', hes', -, hallowed⟩ := h.dir y k _ hes
      obtain ⟨-, rfl⟩ := Node.dir.inj (Option.some.inj (hes'.symm.trans hk))
      obtain ⟨hinside | hed, hemptied⟩ := hallowed e List.mem_cons_self List.not_mem_nil
      · obtain ⟨q, more, hx, hlookup⟩ := FileSystem.entry_eq_some_iff.mp hyold
        exact (hinside.parent hx (mem_of_lookup hlookup)).symm
      · have hdir : cur.isDir y = true := FileSystem.isDir_iff.mpr ⟨k, [], hk⟩
        exact .inr (eq_of_emptied hpath hvisits hwithin (hemptied hed) hplace hy hdir)

theorem keeps_sound {env : Env} (henv : env.ListsOnly) (hpath : fs.find path = some d)
    (hd : fs.isDir d = true) (hno : NoWayOut fs path d) :
    Keeps env (Sound fs d) (Visits fs path)
      (fun p name => ∃ e, fs.find p = some e ∧ name ∈ fs.names e) where
  listed call cur p e name _ hcur he hname := by
    have hwithin := hcur.within
    have hfind := hwithin.find he
    exact (henv call cur e name hname).imp_right
      (Or.imp_right fun hmem => ⟨e, hfind, hwithin.names hmem⟩)
  descend cur p name i hvisits hname hcur hi hdir := by
    obtain ⟨e, he, hmem⟩ := hname
    have hwithin := hcur.within
    exact hvisits.tail ⟨e, name, i, he, hmem, rfl, hwithin.find hi, hwithin.isDir hdir⟩
  unlink cur new p name i hvisits hname hcur hi hdir hunlink := by
    obtain ⟨e, he, hmem⟩ := hname
    have hwithin := hcur.within
    obtain ⟨-, x, last, j, hplace, hj, hjdir, rfl⟩ := FileSystem.unlink_eq_some_iff.mp hunlink
    have hinside := hno.file p e name i x last hvisits he hmem (hwithin.find hi)
      (hcur.isDir_false hdir) (hwithin.place hplace)
    have hne : j ≠ d := by
      rintro rfl
      rw [hcur.isDir_of hd] at hjdir
      cases hjdir
    exact hcur.remove hj (.inl hinside) fun hjd => absurd hjd hne
  rmdir cur new p hvisits hcur hrmdir := by
    obtain ⟨x, last, y, hplace, hy, hempty, rfl⟩ := FileSystem.rmdir_eq_some_iff.mp hrmdir
    refine hcur.remove hy (mayRemove_of_empty hpath hno hvisits hcur hplace hy hempty) ?_
    rintro rfl
    exact hempty

theorem staysInside_of_noWayOut {env : Env} (henv : env.ListsOnly)
    (hpath : fs.find path = some d) (hd : fs.isDir d = true) (hno : NoWayOut fs path d)
    (n call : Nat) : StaysInside fs d (myRmdir env n ⟨fs, call⟩ path).2.files := by
  have hsound := (keeps_sound henv hpath hd hno).myRmdir n ⟨fs, call⟩ path .refl
    (Pruned.refl _ fs)
  exact Pruned.mono hsound fun i j hij => hij.1

/-! ### A way out is taken -/

/-- An entry that must not be removed is gone. -/
def Spoils (fs : FileSystem) (d : Nat) (new : FileSystem) : Prop :=
  ∃ x last y, fs.entry x last = some y ∧ ¬ MayRemove fs d x y ∧ new.entry x last = none

theorem not_staysInside_of_spoils (h : Spoils fs d new) : ¬ StaysInside fs d new := by
  rintro hstays
  obtain ⟨x, last, y, hy, hnot, hnone⟩ := h
  obtain ⟨k, es, hx, hlookup⟩ := FileSystem.entry_eq_some_iff.mp hy
  obtain ⟨es', hx', -, hallowed⟩ := hstays.dir x k es hx
  have hlost : (last, y) ∉ es' := by
    intro hmem
    have hentry := lookup_of_mem (new.entries x k es' hx').nodup hmem
    rw [FileSystem.entry_eq_some_iff.mpr ⟨k, es', hx', hentry⟩] at hnone
    cases hnone
  exact hnot (hallowed _ (mem_of_lookup hlookup) hlost)

theorem Spoils.of_within (h : Spoils fs d cur) (hwithin : new.Within cur) : Spoils fs d new := by
  obtain ⟨x, last, y, hy, hnot, hnone⟩ := h
  refine ⟨x, last, y, hy, hnot, ?_⟩
  cases hnew : new.entry x last with
  | none => rfl
  | some j =>
      rw [hwithin.entry hnew] at hnone
      cases hnone

theorem spoils_remove (hy : fs.entry x name = some y) (hnot : ¬ MayRemove fs d x y) :
    Spoils fs d (fs.remove x name) :=
  ⟨x, name, y, hy, hnot, FileSystem.entry_remove_self fs x name⟩

/-- What is gone stays away. -/
theorem keeps_spoils (env : Env) (fs : FileSystem) (d : Nat) :
    Keeps env (Spoils fs d) (fun _ => True) (fun _ _ => True) where
  listed _ _ _ _ _ _ _ _ _ := .inr (.inr trivial)
  descend _ _ _ _ _ _ _ _ _ := trivial
  unlink cur new p name i _ _ hcur _ _ hunlink := by
    obtain ⟨-, x, last, j, -, -, -, rfl⟩ := FileSystem.unlink_eq_some_iff.mp hunlink
    exact hcur.of_within (FileSystem.remove_within cur x last)
  rmdir cur new p _ hcur hrmdir := by
    obtain ⟨x, last, y, -, -, -, rfl⟩ := FileSystem.rmdir_eq_some_iff.mp hrmdir
    exact hcur.of_within (FileSystem.remove_within cur x last)

/-- No call is refused, and the directories that are opened list these names first. -/
structure Steers (env : Env) (fs : FileSystem) (call : Nat) (names : List (List Byte)) : Prop where
  allows : ∀ c, env.refuses c = false
  listsOnly : env.ListsOnly
  first : ∀ j name e, names[j]? = some name → name ∈ fs.names e →
    ∃ rest, env.listing (call + 2 * j + 1) fs e = name :: rest

theorem Steers.tail {env : Env} {call : Nat} {names : List (List Byte)}
    (h : Steers env fs call (name :: names)) : Steers env fs (call + 2) names := by
  refine ⟨h.allows, h.listsOnly, fun j other e hother hmem => ?_⟩
  obtain ⟨rest, hrest⟩ := h.first (j + 1) other e (by simpa using hother) hmem
  have hcall : call + 2 * (j + 1) + 1 = call + 2 + 2 * j + 1 := by omega
  exact ⟨rest, hcall ▸ hrest⟩

/-- With such an order of the entries, the removal of `p` spoils something. -/
def Spoilable (fs : FileSystem) (d : Nat) (p : List Byte) (names : List (List Byte)) : Prop :=
  ∀ env call n, Steers env fs call names → names.length < n →
    Spoils fs d (myRmdir env n ⟨fs, call⟩ p).2.files

/-- What the first entry of a directory spoils. -/
theorem spoils_of_first {env : Env} {n call e : Nat} {rest : List (List Byte)}
    (hallows : ∀ c, env.refuses c = false) (he : fs.find p = some e) (hdir : fs.isDir e = true)
    (hlist : env.listing (call + 1) fs e = name :: rest)
    (hfirst : Spoils fs d
      (removeEntry env (myRmdir env n) p (0, ⟨fs, call + 1⟩) name).2.files) :
    Spoils fs d (myRmdir env (n + 1) ⟨fs, call⟩ p).2.files := by
  have hopen : (System.mk fs call).opendir env (n + 1) p = (some e, ⟨fs, call + 1⟩) :=
    System.opendir_eq (hallows call) (by omega) he hdir
  have hkeeps := keeps_spoils env fs d
  have hloop : Spoils fs d (rest.foldl (removeEntry env (myRmdir env n) p)
      (removeEntry env (myRmdir env n) p (0, ⟨fs, call + 1⟩) name)).2.files :=
    hkeeps.loop (hkeeps.myRmdir n) trivial (fun _ _ => .inr (.inr trivial)) hfirst
  simp only [myRmdir, hopen, System.readdir, hlist, List.foldl_cons]
  exact hkeeps.finish trivial hloop rfl

/-- A way out that is no directory. -/
theorem spoilable_file {e : Nat} {last : List Byte} (hd : fs.isDir d = true)
    (he : fs.find p = some e) (hname : name ∈ fs.names e) (hi : fs.find (fullPath p name) = some i)
    (hdir : fs.isDir i = false) (hplace : fs.place (fullPath p name) = some (x, last))
    (hout : ¬ Inside fs d x) : Spoilable fs d p [name] := by
  intro env call n hsteers hn
  obtain ⟨k, es, hnode⟩ := FileSystem.mem_names_iff.mp hname
  have hedir : fs.isDir e = true := FileSystem.isDir_iff.mpr ⟨k, es, hnode.choose_spec.1⟩
  obtain ⟨rest, hrest⟩ := hsteers.first 0 name e rfl hname
  -- the entry is no directory, whether it is a link or not
  obtain ⟨q, more, j, m, hx, hj, hm, hlink⟩ := FileSystem.entry_of_find hplace hi
  have hentry := FileSystem.entry_eq_some_iff.mpr ⟨q, more, hx, hj⟩
  have hjdir : fs.isDir j = false := by
    by_contra hno
    obtain ⟨r, es', hnode'⟩ := FileSystem.isDir_iff.mp (by simpa using hno)
    obtain rfl := Option.some.inj (hm.symm.trans hnode')
    obtain rfl := hlink (by simp)
    exact hno hdir
  have hunlink := FileSystem.unlink_eq_some_iff.mpr
    ⟨FileSystem.endsInSlash_of_find hi hdir, x, last, j, hplace, hentry, hjdir, rfl⟩
  have hnot : ¬ MayRemove fs d x j := by
    rintro (hinside | rfl)
    · exact hout hinside
    · rw [hd] at hjdir
      cases hjdir
  obtain ⟨n, rfl⟩ : ∃ m, n = m + 1 := ⟨n - 1, by simp at hn; omega⟩
  apply spoils_of_first hsteers.allows he hedir hrest
  have hisName := FileSystem.isName_of_mem_names hname
  have hstat : (System.mk fs (call + 1)).stat env (fullPath p name) =
      (some i, ⟨fs, call + 2⟩) := System.stat_eq (hsteers.allows _) hi
  have hremoved : (System.mk fs (call + 2)).unlink env (fullPath p name) =
      (0, ⟨fs.remove x last, call + 3⟩) := by
    rw [System.unlink, hunlink]
    exact System.attempt_some (hsteers.allows _)
  have hdots : ¬ (name = dot ∨ name = dotDot) := not_or.mpr hisName.2.2
  have hentryFile : (removeEntry env (myRmdir env n) p (0, ⟨fs, call + 1⟩) name).2.files =
      fs.remove x last := by
    simp [removeEntry, hdots, hstat, hdir, hremoved]
  rw [hentryFile]
  exact spoils_remove hentry hnot

/-- A way out that is an empty directory. -/
theorem spoilable_dir {last : List Byte} (hplace : fs.place p = some (x, last))
    (hy : fs.entry x last = some y) (hempty : fs.isEmptyDir y = true)
    (hnot : ¬ MayRemove fs d x y) : Spoilable fs d p [] := by
  intro env call n hsteers hn
  obtain ⟨k, hk⟩ := FileSystem.isEmptyDir_iff.mp hempty
  have hdir : fs.isDir y = true := FileSystem.isDir_iff.mpr ⟨k, [], hk⟩
  obtain ⟨q, es, hx, hlookup⟩ := FileSystem.entry_eq_some_iff.mp hy
  have hfind := FileSystem.find_of_place hplace hx hlookup hdir
  obtain ⟨n, rfl⟩ : ∃ m, n = m + 1 := ⟨n - 1, by simp at hn; omega⟩
  have hopen : (System.mk fs call).opendir env (n + 1) p = (some y, ⟨fs, call + 1⟩) :=
    System.opendir_eq (hsteers.allows call) (by omega) hfind hdir
  have hnames : ∀ name ∈ env.listing (call + 1) fs y, name = dot ∨ name = dotDot := by
    intro name hname
    rcases hsteers.listsOnly _ _ _ name hname with hdots | hdots | hmem
    · exact .inl hdots
    · exact .inr hdots
    · obtain ⟨r, more, j, hnode, hj⟩ := FileSystem.mem_names_iff.mp hmem
      rw [hk, Option.some.injEq] at hnode
      obtain ⟨-, rfl⟩ := Node.dir.inj hnode
      cases hj
  have hloop : (env.listing (call + 1) fs y).foldl (removeEntry env (myRmdir env n) p)
      (0, ⟨fs, call + 1⟩) = (0, ⟨fs, call + 1⟩) := by
    apply List.foldlRecOn (motive := fun acc : Int × System => acc = (0, ⟨fs, call + 1⟩))
    · rfl
    · rintro _ rfl name hname
      rw [removeEntry, if_pos (hnames name hname)]
  have hremoved : (System.mk fs (call + 1)).rmdir env p = (0, ⟨fs.remove x last, call + 2⟩) := by
    rw [System.rmdir, FileSystem.rmdir_eq_some_iff.mpr ⟨x, last, y, hplace, hy, hempty, rfl⟩]
    exact System.attempt_some (hsteers.allows _)
  simp only [myRmdir, hopen, System.readdir, hloop, hremoved]
  exact spoils_remove hy hnot

/-- What is spoiled below is spoiled above. -/
theorem spoilable_descend {names : List (List Byte)} (hstep : Descends fs p q)
    (h : Spoilable fs d q names) : ∃ more, Spoilable fs d p more := by
  obtain ⟨e, name, i, he, hname, rfl, hi, hdir⟩ := hstep
  refine ⟨name :: names, fun env call n hsteers hn => ?_⟩
  obtain ⟨k, es, j, hnode, -⟩ := FileSystem.mem_names_iff.mp hname
  have hedir : fs.isDir e = true := FileSystem.isDir_iff.mpr ⟨k, es, hnode⟩
  obtain ⟨rest, hrest⟩ := hsteers.first 0 name e rfl hname
  obtain ⟨n, rfl⟩ : ∃ m, n = m + 1 := ⟨n - 1, by simp at hn; omega⟩
  have hsub := h env (call + 2) n hsteers.tail (by simpa using hn)
  apply spoils_of_first hsteers.allows he hedir hrest
  have hstat : (System.mk fs (call + 1)).stat env (fullPath p name) =
      (some i, ⟨fs, call + 2⟩) := System.stat_eq (hsteers.allows _) hi
  have hdots : ¬ (name = dot ∨ name = dotDot) :=
    not_or.mpr (FileSystem.isName_of_mem_names hname).2.2
  have hfiles : (removeEntry env (myRmdir env n) p (0, ⟨fs, call + 1⟩) name).2.files =
      (myRmdir env n ⟨fs, call + 2⟩ (fullPath p name)).2.files := by
    simp [removeEntry, hdots, hstat, hdir]
  rw [hfiles]
  exact hsub

theorem spoilable_of_visits {names : List (List Byte)} (hvisits : Visits fs path q)
    (h : Spoilable fs d q names) : ∃ more, Spoilable fs d path more := by
  induction hvisits using Relation.ReflTransGen.head_induction_on with
  | refl => exact ⟨names, h⟩
  | head hstep _ ih =>
      obtain ⟨more, hmore⟩ := ih
      exact spoilable_descend hstep hmore

/-- The names of a directory, this one in front if it is one of them. -/
def listFirst (first : Option (List Byte)) (fs : FileSystem) (d : Nat) : List (List Byte) :=
  match first with
  | some name =>
      if name ∈ fs.names d then name :: dot :: dotDot :: (fs.names d).erase name
      else dot :: dotDot :: fs.names d
  | none => dot :: dotDot :: fs.names d

theorem listFirst_perm (first : Option (List Byte)) (fs : FileSystem) (d : Nat) :
    (listFirst first fs d).Perm (dot :: dotDot :: fs.names d) := by
  cases first with
  | none => exact List.Perm.refl _
  | some name =>
      unfold listFirst
      dsimp only
      split
      case isFalse => exact List.Perm.refl _
      case isTrue hmem =>
          have hfront : ((name :: dot :: dotDot :: (fs.names d).erase name)).Perm
              (dot :: dotDot :: name :: (fs.names d).erase name) :=
            (List.Perm.swap ..).trans ((List.Perm.swap ..).cons dot)
          exact hfront.trans (((List.perm_cons_erase hmem).symm.cons dotDot).cons dot)

/-- The directories that are opened list these names first, one name each. -/
def steer (names : List (List Byte)) : Env where
  refuses := Env.plain.refuses
  listing call := listFirst names[call / 2]?
  stored := Env.plain.stored
  realpath := Env.plain.realpath
  listing_isName call fs d name hname :=
    Env.plain.listing_isName call fs d name ((listFirst_perm _ fs d).subset hname)
  realpath_absolute := Env.plain.realpath_absolute

theorem steer_listsAll (names : List (List Byte)) : (steer names).ListsAll :=
  fun call fs d => listFirst_perm names[call / 2]? fs d

theorem steers_steer (fs : FileSystem) (names : List (List Byte)) :
    Steers (steer names) fs 0 names := by
  refine ⟨fun _ => rfl, (steer_listsAll names).listsOnly, fun j name e hj hmem => ?_⟩
  have hcall : (0 + 2 * j + 1) / 2 = j := by omega
  refine ⟨dot :: dotDot :: (fs.names e).erase name, ?_⟩
  simp only [steer, listFirst, hcall, hj, if_pos hmem]

theorem noWayOut_of_staysInside (hd : fs.isDir d = true)
    (h : ∀ env n call, env.ListsAll →
      StaysInside fs d (myRmdir env n ⟨fs, call⟩ path).2.files) : NoWayOut fs path d := by
  have hnot : ∀ q names, Visits fs path q → ¬ Spoilable fs d q names := by
    intro q names hvisits hspoilable
    obtain ⟨more, hmore⟩ := spoilable_of_visits hvisits hspoilable
    have hspoils := hmore (steer more) 0 (more.length + 1) (steers_steer fs more) (by omega)
    exact not_staysInside_of_spoils hspoils (h _ _ _ (steer_listsAll more))
  constructor
  · intro p e name i x last hvisits he hname hi hdir hplace
    by_contra hout
    exact hnot p _ hvisits (spoilable_file hd he hname hi hdir hplace hout)
  · intro p x last y hvisits hplace hy hempty
    by_contra hout
    have hmay : ¬ MayRemove fs d x y := fun hmay => hout hmay.symm
    exact hnot p _ hvisits (spoilable_dir hplace hy hempty hmay)

/-- `myRmdir` removes nothing outside the directory, in whatever order the entries are listed and
whichever calls are refused, if and only if there is no way out; it does not help when readdir
leaves out no entry. -/
theorem staysInside_iff (hpath : fs.find path = some d) (hd : fs.isDir d = true) :
    ((∀ env n call, env.ListsOnly → StaysInside fs d (myRmdir env n ⟨fs, call⟩ path).2.files) ↔
      NoWayOut fs path d) ∧
    ((∀ env n call, env.ListsAll → StaysInside fs d (myRmdir env n ⟨fs, call⟩ path).2.files) ↔
      NoWayOut fs path d) := by
  have hstays : NoWayOut fs path d → ∀ env n call, env.ListsOnly →
      StaysInside fs d (myRmdir env n ⟨fs, call⟩ path).2.files :=
    fun hno env n call henv => staysInside_of_noWayOut henv hpath hd hno n call
  constructor
  · exact ⟨fun h => noWayOut_of_staysInside hd fun env n call henv => h env n call henv.listsOnly,
      hstays⟩
  · exact ⟨noWayOut_of_staysInside hd,
      fun hno env n call henv => hstays hno env n call henv.listsOnly⟩

/-- The directories `/a` and `/b`; in `/a` there is the link `l` to `/b`, in `/b` the file `f`. -/
def linkOut : FileSystem :=
  .ofList [.dir 0 [([97], 1), ([98], 2)], .dir 0 [([108], 3)], .dir 0 [([102], 4)],
    .link [47, 98], .file []] (by decide)

theorem staysInside_iff_linkOut :
    ((∀ env n call, env.ListsOnly →
        StaysInside linkOut 1 (myRmdir env n ⟨linkOut, call⟩ [47, 97]).2.files) ↔
      NoWayOut linkOut [47, 97] 1) ∧
    ((∀ env n call, env.ListsAll →
        StaysInside linkOut 1 (myRmdir env n ⟨linkOut, call⟩ [47, 97]).2.files) ↔
      NoWayOut linkOut [47, 97] 1) :=
  staysInside_iff (by decide +kernel) (by decide +kernel)

theorem eq_of_inside_linkOut (h : Inside linkOut 1 i) : i = 1 := by
  induction h with
  | root => rfl
  | entry _ hes hj hdir ih =>
      subst ih
      have hnode : linkOut.node 1 = some (.dir 0 [([108], 3)]) := rfl
      obtain ⟨-, rfl⟩ := Node.dir.inj (Option.some.inj (hnode.symm.trans hes))
      obtain ⟨-, rfl⟩ := Prod.mk.inj (List.mem_singleton.mp hj)
      cases hdir

/-- The removal of `/a` empties `/b`. -/
theorem staysInside_link :
    linkOut.find [47, 97] = some 1 ∧ linkOut.isDir 1 = true ∧
    linkOut.node 2 = some (.dir 0 [([102], 4)]) ∧
    (myRmdir Env.plain 8 ⟨linkOut, 0⟩ [47, 97]).2.files.node 2 = some (.dir 0 []) ∧
    ¬ StaysInside linkOut 1 (myRmdir Env.plain 8 ⟨linkOut, 0⟩ [47, 97]).2.files := by
  have hbefore : linkOut.node 2 = some (.dir 0 [([102], 4)]) := rfl
  have hbehind : (myRmdir Env.plain 8 ⟨linkOut, 0⟩ [47, 97]).2.files.node 2 =
      some (.dir 0 []) := by decide +kernel
  refine ⟨by decide +kernel, by decide +kernel, hbefore, hbehind, fun hstays => ?_⟩
  obtain ⟨es', hes', -, hallowed⟩ := hstays.dir 2 0 _ hbefore
  obtain ⟨-, rfl⟩ := Node.dir.inj (Option.some.inj (hes'.symm.trans hbehind))
  rcases hallowed _ (List.mem_singleton_self _) List.not_mem_nil with hinside | heq
  · cases eq_of_inside_linkOut hinside
  · cases heq

end FsManager
end OperatingSystems
