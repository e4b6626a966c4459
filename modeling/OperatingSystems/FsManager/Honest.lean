import OperatingSystems.FsManager.Removal

/-!
# The result of the recursive removal

`myRmdir` asks `stat` about every entry.  `stat` fails for a link that leads nowhere, although the
link could be removed; the entry, and with it every directory above, is then left.

* `Makes` — the calls that a run makes, with the systems that they find.
* `Honest` — the result says whether the directory is gone, a failure in one entry leaves the others
  to their fate, and what no failing `unlink` or `rmdir` keeps is removed.
* `honest_iff` — the last holds when every `opendir` and every `stat` of the run succeeds, too.
-/

namespace OperatingSystems
namespace FsManager

open Files

variable {env : Env} {n m : Nat} {s t u v w : System} {fs cur new : FileSystem}
  {path p q name last : List Byte} {d e i j k x y : Nat} {names before after : List (List Byte)}

/-! ### The calls of a run -/

/-- In the loop of `myRmdir` for the path `p` an entry has its turn, in this system. -/
inductive Turn (env : Env) (n : Nat) (s : System) (p : List Byte) : List Byte → System → Prop
  | intro {d : Nat} {before after : List (List Byte)} {name : List Byte}
      (hopen : s.opendir env (n + 1) p = (some d, s.after s.files))
      (hlist : (s.after s.files).readdir env d = before ++ name :: after)
      (hname : ¬ (name = dot ∨ name = dotDot)) :
      Turn env n s p name (rmdirLoop env n p (s.after s.files) before).2

theorem Turn.not_dots (h : Turn env n s p name v) : ¬ (name = dot ∨ name = dotDot) := by
  cases h
  assumption

/-- The run of `myRmdir` for `p` comes to the run for `q`, which has `m` descriptors left and starts
in the system `w`. -/
inductive Runs (env : Env) : Nat → System → List Byte → Nat → System → List Byte → Prop
  | refl (n : Nat) (s : System) (p : List Byte) : Runs env n s p n s p
  | sub {n m i : Nat} {s v w : System} {p q name : List Byte} (hturn : Turn env n s p name v)
      (hstat : v.stat env (fullPath p name) = (some i, v.after v.files))
      (hdir : v.files.isDir i = true)
      (hrun : Runs env n (v.after v.files) (fullPath p name) m w q) : Runs env (n + 1) s p m w q

inductive Call
  | opendir (n : Nat) (path : List Byte)
  | stat (path : List Byte)
  | unlink (path : List Byte)
  | rmdir (path : List Byte)

/-- The calls that the run makes, each in its system. -/
inductive Makes (env : Env) (n : Nat) (s : System) (p : List Byte) : Call → System → Prop
  | opendir {m : Nat} {w : System} {q : List Byte} (hrun : Runs env n s p m w q) :
      Makes env n s p (.opendir m q) w
  | stat {m : Nat} {w v : System} {q name : List Byte} (hrun : Runs env n s p (m + 1) w q)
      (hturn : Turn env m w q name v) : Makes env n s p (.stat (fullPath q name)) v
  | unlink {m i : Nat} {w v : System} {q name : List Byte} (hrun : Runs env n s p (m + 1) w q)
      (hturn : Turn env m w q name v)
      (hstat : v.stat env (fullPath q name) = (some i, v.after v.files))
      (hdir : v.files.isDir i = false) :
      Makes env n s p (.unlink (fullPath q name)) (v.after v.files)
  | rmdir {m d : Nat} {w u : System} {q : List Byte} (hrun : Runs env n s p (m + 1) w q)
      (hopen : w.opendir env (m + 1) q = (some d, w.after w.files))
      (hloop : rmdirLoop env m q (w.after w.files) ((w.after w.files).readdir env d) = (0, u)) :
      Makes env n s p (.rmdir q) u

/-- An `opendir` or `stat` succeeds. -/
def Answered (env : Env) (u : System) : Call → Prop
  | .opendir n path => (u.opendir env n path).1 ≠ none
  | .stat path => (u.stat env path).1 ≠ none
  | _ => True

/-- An `unlink` or `rmdir` is refused. -/
def Refused (env : Env) (u : System) : Call → Prop
  | .unlink _ => env.refuses u.calls = true
  | .rmdir _ => env.refuses u.calls = true
  | _ => False

/-- The calls of the run for an entry are calls of the run. -/
theorem Makes.sub {c : Call} (hturn : Turn env n s p name v)
    (hstat : v.stat env (fullPath p name) = (some i, v.after v.files))
    (hdir : v.files.isDir i = true)
    (h : Makes env n (v.after v.files) (fullPath p name) c u) : Makes env (n + 1) s p c u := by
  cases h with
  | opendir hrun => exact .opendir (.sub hturn hstat hdir hrun)
  | stat hrun hturn' => exact .stat (.sub hturn hstat hdir hrun) hturn'
  | unlink hrun hturn' hstat' hdir' =>
      exact .unlink (.sub hturn hstat hdir hrun) hturn' hstat' hdir'
  | rmdir hrun hopen hloop => exact .rmdir (.sub hturn hstat hdir hrun) hopen hloop

/-! ### What a success tells -/

theorem entryResult_dir (hname : ¬ (name = dot ∨ name = dotDot))
    (hstat : v.stat env (fullPath p name) = (some i, v.after v.files))
    (hdir : v.files.isDir i = true) :
    entryResult env (myRmdir env n) p v name =
      myRmdir env n (v.after v.files) (fullPath p name) := by
  rw [entryResult, if_neg hname, hstat]
  exact if_pos hdir

theorem rmdirLoop_zero_append (h : (rmdirLoop env n p t (before ++ after)).1 = 0) :
    (rmdirLoop env n p t before).1 = 0 := by
  induction after using List.reverseRecOn with
  | nil => rwa [List.append_nil] at h
  | append_singleton after name ih =>
      rw [← List.append_assoc, rmdirLoop_concat] at h
      dsimp only at h
      split at h
      · cases h
      · exact ih h

/-- No entry has failed when the loop has not. -/
theorem entryResult_of_loop (h : (rmdirLoop env n p t (before ++ name :: after)).1 = 0) :
    (entryResult env (myRmdir env n) p (rmdirLoop env n p t before).2 name).1 ≠ -1 := by
  rw [List.append_cons] at h
  have hconcat := rmdirLoop_zero_append h
  rw [rmdirLoop_concat] at hconcat
  dsimp only at hconcat
  split at hconcat
  · cases hconcat
  · assumption

/-- No entry of a directory that was removed has failed. -/
theorem entryResult_of_zero (h : (myRmdir env (n + 1) s p).1 = 0) (hturn : Turn env n s p name v) :
    (entryResult env (myRmdir env n) p v name).1 ≠ -1 := by
  obtain ⟨d, m, u, x, last, hremoved⟩ := myRmdir_zero h
  obtain rfl := Nat.succ.inj hremoved.succ
  cases hturn with
  | intro hopen hlist hname =>
      obtain ⟨hsome, -⟩ := Prod.mk.inj (hremoved.opens.symm.trans hopen)
      obtain rfl := Option.some.inj hsome
      have hloop := congrArg Prod.fst hremoved.loop
      rw [hlist] at hloop
      exact entryResult_of_loop hloop

theorem runs_zero (h : (myRmdir env n s p).1 = 0) (hrun : Runs env n s p m w q) :
    (myRmdir env m w q).1 = 0 := by
  induction hrun with
  | refl => exact h
  | @sub n m i s v w p q name hturn hstat hdir hrun ih =>
      apply ih
      have hresult := entryResult_of_zero h hturn
      rw [entryResult_dir hturn.not_dots hstat hdir] at hresult
      exact (myRmdir_result env n _ _).resolve_right hresult

/-- When the directory is removed, every `opendir` and `stat` has succeeded. -/
theorem answered_of_zero {c : Call} (h : (myRmdir env n s p).1 = 0) (hmakes : Makes env n s p c u) :
    Answered env u c := by
  cases hmakes with
  | opendir hrun =>
      obtain ⟨d, m, v, x, last, hremoved⟩ := myRmdir_zero (runs_zero h hrun)
      intro hnone
      have hopen := congrArg Prod.fst hremoved.opens
      rw [← hremoved.succ, hnone] at hopen
      cases hopen
  | @stat m w v q name hrun hturn =>
      have hresult := entryResult_of_zero (runs_zero h hrun) hturn
      intro hnone
      have hstat : u.stat env (fullPath q name) = (none, u.after u.files) := Prod.ext hnone rfl
      rw [entryResult, if_neg hturn.not_dots, hstat] at hresult
      exact hresult rfl
  | unlink => trivial
  | rmdir => trivial

/-! ### What is gone stays away -/

theorem rmdirLoop_append_shrunk (n : Nat) (p : List Byte) (t : System)
    (before after : List (List Byte)) :
    Shrunk (rmdirLoop env n p t before).2.files (rmdirLoop env n p t (before ++ after)).2.files := by
  have happend : rmdirLoop env n p t (before ++ after) =
      after.foldl (removeEntry env (myRmdir env n) p) (rmdirLoop env n p t before) :=
    List.foldl_append
  rw [happend]
  exact (keeps_shrunk env _).loop (fun s p _ hs => myRmdir_shrunk env n s p hs) trivial
    (fun _ _ => .inr (.inr trivial)) (Pruned.refl _ _)

/-- Behind the turn of an entry nothing comes back. -/
theorem turn_within (hturn : Turn env n s p name v) :
    (myRmdir env (n + 1) s p).2.files.Within (entryResult env (myRmdir env n) p v name).2.files := by
  cases hturn with
  | @intro d before after _ hopen hlist hname =>
      have hloop : ∀ {m k flag u}, n + 1 = m + 1 →
          s.opendir env (m + 1) p = (some k, s.after s.files) →
          rmdirLoop env m p (s.after s.files) ((s.after s.files).readdir env k) = (flag, u) →
          Shrunk (entryResult env (myRmdir env n) p (rmdirLoop env n p (s.after s.files) before).2
            name).2.files u.files := by
        intro m k flag u hn hopen' hrun
        obtain rfl := Nat.succ.inj hn
        obtain ⟨hsome, -⟩ := Prod.mk.inj (hopen'.symm.trans hopen)
        obtain rfl := Option.some.inj hsome
        have hshrunk : Shrunk
            (rmdirLoop env n p (s.after s.files) (before ++ [name])).2.files
            (rmdirLoop env n p (s.after s.files) (before ++ [name] ++ after)).2.files :=
          rmdirLoop_append_shrunk n p (s.after s.files) (before ++ [name]) after
        rw [← List.append_cons, ← hlist, hrun, rmdirLoop_concat] at hshrunk
        exact hshrunk
      have hends := myRmdir_cases env (n + 1) s p
      generalize myRmdir env (n + 1) s p = out at hends
      cases hends with
      | closed hnone =>
          rw [hopen] at hnone
          cases hnone
      | left hn hopen' hrun => exact (hloop hn hopen' hrun).within
      | @done m k u hn hopen' hrun =>
          have hshrunk := hloop hn hopen' hrun
          rcases hr : u.rmdir env p with ⟨r, t⟩
          by_cases hzero : r = 0
          · subst hzero
            obtain ⟨files, hfiles, rfl, -⟩ := System.attempt_zero hr
            exact ((keeps_shrunk env _).rmdir u.files files p trivial hshrunk hfiles).within
          · obtain ⟨-, rfl⟩ := System.attempt_ne_zero hr hzero
            exact hshrunk.within

theorem runs_within (hrun : Runs env n s p m w q) :
    (myRmdir env n s p).2.files.Within (myRmdir env m w q).2.files := by
  induction hrun with
  | refl => exact FileSystem.Within.refl _
  | sub hturn hstat hdir hrun ih =>
      have hwithin := turn_within hturn
      rw [entryResult_dir hturn.not_dots hstat hdir] at hwithin
      exact hwithin.trans ih

theorem fullPath_short (hlen : (p ++ slash :: name).length < size) :
    fullPath p name = p ++ slash :: name :=
  List.take_of_length_le (by omega)

/-- An entry that has not failed is gone. -/
theorem entry_of_result (hfind : fs.find p = some e) (hv : Shrunk fs v.files)
    (hshort : (p ++ slash :: name).length < size) (hname : IsName name)
    (hresult : (entryResult env (myRmdir env n) p v name).1 ≠ -1) :
    (entryResult env (myRmdir env n) p v name).2.files.entry e name = none := by
  have hfull := fullPath_short hshort
  have hcase : EntryCase env (myRmdir env n) p v name
      (entryResult env (myRmdir env n) p v name) := entryResult_cases _ p v hname
  generalize entryResult env (myRmdir env n) p v name = out at hcase hresult
  cases hcase with
  | lost => exact absurd rfl hresult
  | file hstat hdir =>
      have hzero := (attempt_result env (v.after v.files) _).resolve_right hresult
      rcases hr : (v.after v.files).unlink env (fullPath p name) with ⟨r, t⟩
      obtain rfl : r = 0 := (congrArg Prod.fst hr).symm.trans hzero
      obtain ⟨files, hfiles, rfl, -⟩ := System.attempt_zero hr
      obtain ⟨-, x, last, j, hplace, -, -, rfl⟩ := FileSystem.unlink_eq_some_iff.mp hfiles
      rw [hfull] at hplace
      obtain ⟨rfl, rfl⟩ := FileSystem.place_behind hname hplace hv.within hfind
      exact FileSystem.entry_remove_self _ _ _
  | dir hstat hdir =>
      have hzero := (myRmdir_result env n _ _).resolve_right hresult
      obtain ⟨k, m, u, x, last, hremoved⟩ := myRmdir_zero hzero
      have hu : Shrunk fs u.files := by
        have hloop := rmdirLoop_shrunk env m (fullPath p name)
          ((v.after v.files).after (v.after v.files).files)
          (((v.after v.files).after (v.after v.files).files).readdir env k) hv
        rwa [hremoved.loop] at hloop
      have hplace := hremoved.place
      rw [hfull] at hplace
      obtain ⟨rfl, rfl⟩ := FileSystem.place_behind hname hplace hu.within hfind
      rw [hremoved.files]
      exact FileSystem.entry_remove_self _ _ _

/-- In every directory that the run opens, every entry is gone in the end, or has failed itself. -/
theorem entry_gone_or_fails (hlists : env.ListsAll) (hrun : Runs env n s path (m + 1) w q)
    (hopen : w.opendir env (m + 1) q = (some e, w.after w.files))
    (hname : name ∈ w.files.names e) :
    (myRmdir env n s path).2.files.entry e name = none ∨ size ≤ (q ++ slash :: name).length ∨
      ∃ v, Turn env m w q name v ∧ (entryResult env (myRmdir env m) q v name).1 = -1 := by
  have hmem : name ∈ (w.after w.files).readdir env e := (mem_readdir hlists).mpr (.inr (.inr hname))
  have hisName := FileSystem.isName_of_mem_names hname
  obtain ⟨before, after, hlist⟩ := List.append_of_mem hmem
  have hturn := Turn.intro hopen hlist (not_or.mpr hisName.2.2)
  by_cases hfails : (entryResult env (myRmdir env m) q
      (rmdirLoop env m q (w.after w.files) before).2 name).1 = -1
  · exact .inr (.inr ⟨_, hturn, hfails⟩)
  by_cases hlong : size ≤ (q ++ slash :: name).length
  · exact .inr (.inl hlong)
  left
  have hgone := entry_of_result (System.opendir_some hopen).1
    (rmdirLoop_shrunk env m q (w.after w.files) before (Pruned.refl _ _)) (by omega) hisName hfails
  exact ((runs_within hrun).trans (turn_within hturn)).entry_eq_none hgone

/-! ### The tree -/

/-- `path` leads to the directory `d`, which is the entry `last` of the directory `x` and has no other
name; below it there is a tree of files, directories, and links that do not lead to directories. -/
structure RemovalTree (fs : FileSystem) (path : List Byte) (x : Nat) (last : List Byte) (d : Nat) :
    Prop where
  find : fs.find path = some d
  isDir : fs.isDir d = true
  entry : fs.entry x last = some d
  single : ∀ name, fs.entry x name = some d → name = last
  outside : ¬ Inside fs d x
  links : NoDirLinks fs d

/-- A directory in the tree is not below its entries. -/
theorem RemovalTree.no_loop (h : RemovalTree fs path x last d) (he : Inside fs d e) :
    ∀ {name k}, fs.entry e name = some k → fs.isDir k = true → ¬ Inside fs k e := by
  induction he with
  | root =>
      intro name k hk hdir hinside
      rcases hinside.of_entry h.entry with rfl | hx
      · obtain rfl := FileSystem.parent_unique h.isDir hk h.entry
        exact h.outside .root
      · exact h.outside ((Inside.root.child hk hdir).trans hx)
  | @entry i p j es name hi hes hj hjdir ih =>
      intro other k hk hdir hinside
      have hentry : fs.entry i name = some j := FileSystem.entry_eq_some_iff.mpr
        ⟨p, es, hes, lookup_of_mem (fs.entries i p es hes).nodup hj⟩
      apply ih hentry hjdir
      rcases hinside.of_entry hentry with rfl | hki
      · obtain rfl := FileSystem.parent_unique hjdir hentry hk
        exact .root
      · exact (Inside.root.child hk hdir).trans hki

/-- The result is 0 if and only if the directory is gone. -/
theorem RemovalTree.result_iff (h : RemovalTree s.files path x last d) (hlists : env.ListsAll)
    (n : Nat) :
    (myRmdir env n s path).1 = 0 ↔ (myRmdir env n s path).2.files.entry x last = none := by
  constructor
  · intro hzero
    obtain ⟨k, m, u, y, name, hremoved⟩ := myRmdir_zero hzero
    obtain rfl : k = d :=
      Option.some.inj ((System.opendir_some hremoved.opens).1.symm.trans h.find)
    have hu : Shrunk s.files u.files := by
      have hloop := rmdirLoop_shrunk env m path (s.after s.files)
        ((s.after s.files).readdir env k) (Pruned.refl _ s.files)
      rwa [hremoved.loop] at hloop
    have hentry := hu.within.entry hremoved.entry
    obtain rfl := FileSystem.parent_unique h.isDir hentry h.entry
    obtain rfl := h.single name hentry
    rw [hremoved.files]
    exact FileSystem.entry_remove_self _ _ _
  · intro hnone
    by_contra hne
    rcases myRmdir_onlyBelow hlists h.links n s path d .root (Pruned.refl _ _) h.find x last d
      h.outside h.entry with hkept | ⟨-, hzero⟩
    · rw [hkept] at hnone
      cases hnone
    · exact hne hzero

/-- A directory of which the entry is gone was empty. -/
structure Emptied (fs cur : FileSystem) : Prop where
  shrunk : Shrunk fs cur
  empty : ∀ i name j, fs.entry i name = some j → fs.isDir j = true → cur.entry i name = none →
    cur.isEmptyDir j = true

/-- An entry is removed that is no directory of the tree, or an empty one. -/
theorem Emptied.remove (h : Emptied fs cur) (hj : cur.entry x last = some j)
    (hempty : fs.isDir j = true → cur.isEmptyDir j = true) :
    Emptied fs (cur.remove x last) := by
  refine ⟨h.shrunk.remove hj trivial, fun a other k hk hdir hnone => ?_⟩
  rw [FileSystem.entry_remove] at hnone
  apply FileSystem.isEmptyDir_remove
  split at hnone
  case isTrue hsame =>
      obtain ⟨rfl, rfl⟩ := hsame
      obtain rfl := Option.some.inj (hk.symm.trans (h.shrunk.within.entry hj))
      exact hempty hdir
  case isFalse => exact h.empty a other k hk hdir hnone

theorem keeps_emptied (env : Env) (fs : FileSystem) :
    Keeps env (Emptied fs) (fun _ => True) (fun _ _ => True) where
  listed _ _ _ _ _ _ _ _ _ := .inr (.inr trivial)
  descend _ _ _ _ _ _ _ _ _ := trivial
  unlink cur new p name i _ _ hcur _ _ hunlink := by
    obtain ⟨-, x, last, j, -, hj, hnodir, rfl⟩ := FileSystem.unlink_eq_some_iff.mp hunlink
    refine hcur.remove hj fun hdir => ?_
    rw [hcur.shrunk.isDir_of hdir] at hnodir
    cases hnodir
  rmdir cur new p _ hcur hrmdir := by
    obtain ⟨x, last, y, -, hy, hempty, rfl⟩ := FileSystem.rmdir_eq_some_iff.mp hrmdir
    exact hcur.remove hy fun _ => hempty

/-- With the entry of a directory its whole tree is gone. -/
theorem Emptied.tree (h : Emptied fs cur) (hd : fs.entry x last = some d)
    (hdir : fs.isDir d = true) (hnone : cur.entry x last = none) (hi : Inside fs d i) :
    cur.isEmptyDir i = true := by
  induction hi with
  | root => exact h.empty x last d hd hdir hnone
  | @entry i p j es name hi hes hj hjdir ih =>
      have hentry : fs.entry i name = some j := FileSystem.entry_eq_some_iff.mpr
        ⟨p, es, hes, lookup_of_mem (fs.entries i p es hes).nodup hj⟩
      apply h.empty i name j hentry hjdir
      obtain ⟨q, hq⟩ := FileSystem.isEmptyDir_iff.mp ih
      simp [FileSystem.entry, hq, lookup]

/-! ### When nothing fails -/

/-- The paths of the tree fit into the buffer, and `path` leads to the entry of the directory, also
when entries of the tree have gone. -/
structure Removable (fs : FileSystem) (path : List Byte) (x : Nat) (last : List Byte) (d : Nat) :
    Prop where
  steady : ∀ cur, Shrunk fs cur → OnlyBelow fs d fs cur → cur.place path = some (x, last)
  short : ∀ names j, fs.descend d names = some j → (pathBelow path names).length < size

/-- The entry is removed when its calls succeed. -/
theorem entryResult_removes (hname : IsName name)
    (hfull : fullPath p name = p ++ slash :: name)
    (hstat : (v.stat env (fullPath p name)).1 ≠ none)
    (hunlink : ∀ i, v.stat env (fullPath p name) = (some i, v.after v.files) →
      v.files.isDir i = false → env.refuses (v.after v.files).calls = false)
    (hsub : ∀ i, v.stat env (fullPath p name) = (some i, v.after v.files) →
      v.files.isDir i = true → (myRmdir env n (v.after v.files) (fullPath p name)).1 = 0) :
    (entryResult env (myRmdir env n) p v name).1 ≠ -1 := by
  have hcase : EntryCase env (myRmdir env n) p v name
      (entryResult env (myRmdir env n) p v name) := entryResult_cases _ p v hname
  generalize entryResult env (myRmdir env n) p v name = out at hcase
  cases hcase with
  | lost hnone =>
      rw [hnone] at hstat
      exact absurd rfl hstat
  | @file i hfound hdir =>
      have hi := (System.stat_some hfound).1
      obtain ⟨k, hplace⟩ := FileSystem.exists_place_of_find hname (hfull ▸ hi)
      rw [← hfull] at hplace
      obtain ⟨q, es, j, node, hnode, hlookup, hj, hlink⟩ := FileSystem.entry_of_find hplace hi
      have hjdir : v.files.isDir j = false := by
        by_contra hno
        obtain ⟨r, more, hdirNode⟩ := FileSystem.isDir_iff.mp (by simpa using hno)
        obtain rfl := Option.some.inj (hj.symm.trans hdirNode)
        obtain rfl := hlink (by simp)
        exact hno hdir
      have hremoved := FileSystem.unlink_eq_some_iff.mpr
        ⟨FileSystem.endsInSlash_of_find hi hdir, k, name, j, hplace,
          FileSystem.entry_eq_some_iff.mpr ⟨q, es, hnode, hlookup⟩, hjdir, rfl⟩
      have hzero : (v.after v.files).unlink env (fullPath p name) =
          (0, (v.after v.files).after (v.files.remove k name)) := by
        rw [System.unlink]
        exact (congrArg _ hremoved).trans (System.attempt_some (hunlink i hfound hdir))
      rw [hzero]
      exact (by decide : (0 : Int) ≠ -1)
  | @dir i hfound hdir =>
      rw [hsub i hfound hdir]
      decide

/-- `myRmdir` is called for a directory of the tree, and no call of the run will fail. -/
structure Deleting (env : Env) (fs : FileSystem) (d n : Nat) (s : System) (p : List Byte)
    (e a : Nat) (last : List Byte) : Prop where
  inside : Inside fs d e
  shrunk : Shrunk fs s.files
  entry : s.files.entry a last = some e
  outside : ¬ Inside fs e a
  steady : ∀ cur, Shrunk fs cur → OnlyBelow fs e s.files cur → cur.place p = some (a, last)
  short : ∀ names j, fs.descend e names = some j → (pathBelow p names).length < size
  answered : ∀ c u, Makes env n s p c u → Answered env u c
  allowed : ∀ c u, Makes env n s p c u → ¬ Refused env u c

namespace Deleting

variable {a : Nat}

/-- While entries below the directory go away, its path leads to it. -/
theorem find (h : Deleting env fs d n s p e a last) (hd : fs.isDir d = true)
    (hcur : Shrunk fs cur) (hbelow : OnlyBelow fs e s.files cur) : cur.find p = some e := by
  obtain ⟨q, es, hnode, hlookup⟩ :=
    FileSystem.entry_eq_some_iff.mp (hbelow a last e h.outside h.entry)
  exact FileSystem.find_of_place (h.steady cur hcur hbelow) hnode hlookup
    (hcur.isDir_of (h.inside.isDir hd))

theorem opens (h : Deleting env fs d n s p e a last) (hd : fs.isDir d = true) :
    s.opendir env n p = (some e, s.after s.files) := by
  obtain ⟨k, hk⟩ := Option.ne_none_iff_exists'.mp (h.answered _ _ (.opendir (.refl n s p)))
  have hopened : s.opendir env n p = (some k, s.after s.files) := Prod.ext hk rfl
  have hfound := h.find hd h.shrunk fun _ _ _ _ hb => hb
  obtain rfl := Option.some.inj ((System.opendir_some hopened).1.symm.trans hfound)
  exact hopened

/-- The directory that an entry is. -/
theorem sub (h : Deleting env fs d (n + 1) s p e a last) (htree : RemovalTree fs path x q d)
    (hturn : Turn env n s p name v) (hv : Shrunk fs v.files)
    (hbelow : OnlyBelow fs e s.files v.files) (hname : IsName name)
    (hlen : (p ++ slash :: name).length < size)
    (hstat : v.stat env (fullPath p name) = (some i, v.after v.files))
    (hdir : v.files.isDir i = true) :
    Deleting env fs d n (v.after v.files) (fullPath p name) i e name := by
  have hfind := h.find htree.isDir hv hbelow
  have hfull := fullPath_short hlen
  have hi := (System.stat_some hstat).1
  rw [hfull] at hi
  have hentry := entry_of_found htree.links h.inside hv (hv.within.find hfind) hname hi hdir
  have hold := hv.within.entry hentry
  have holdDir := hv.within.isDir hdir
  have hinside : Inside fs e i := Inside.root.child hold holdDir
  refine ⟨h.inside.trans hinside, hv, hentry, htree.no_loop h.inside hold holdDir,
    fun cur hcur hrest => ?_, fun names j hj => ?_, fun c u hmakes => ?_, fun c u hmakes => ?_⟩
  · rw [hfull]
    refine FileSystem.place_append (h.find htree.isDir hcur ?_) hname
      (FileSystem.isPath_slash hlen)
    exact hbelow.trans fun b other k hb => hrest b other k fun hib => hb (hinside.trans hib)
  · rw [hfull]
    exact h.short (name :: names) j ((FileSystem.descend_entry hold names).trans hj)
  · exact h.answered c u (hmakes.sub hturn hstat hdir)
  · exact h.allowed c u (hmakes.sub hturn hstat hdir)

/-- Every entry is removed when it has its turn. -/
theorem turn (h : Deleting env fs d (n + 1) s p e a last) (htree : RemovalTree fs path x q d)
    (hsub : ∀ (s : System) p e a last, Deleting env fs d n s p e a last →
      (myRmdir env n s p).1 = 0)
    (hturn : Turn env n s p name v) (hv : Shrunk fs v.files)
    (hbelow : OnlyBelow fs e s.files v.files) (hname : IsName name)
    (hlen : (p ++ slash :: name).length < size) :
    (entryResult env (myRmdir env n) p v name).1 ≠ -1 := by
  have hrun : Runs env (n + 1) s p (n + 1) s p := Runs.refl (n + 1) s p
  refine entryResult_removes hname (fullPath_short hlen)
    (h.answered _ _ (.stat hrun hturn)) (fun i hstat hdir => ?_) fun i hstat hdir => ?_
  · simpa [Refused] using h.allowed _ _ (.unlink hrun hturn hstat hdir)
  · exact hsub _ _ i e name (h.sub htree hturn hv hbelow hname hlen hstat hdir)

/-- What is listed so far is gone. -/
theorem loop (h : Deleting env fs d (n + 1) s p e a last) (htree : RemovalTree fs path x q d)
    (hlists : env.ListsAll)
    (hsub : ∀ (s : System) p e a last, Deleting env fs d n s p e a last →
      (myRmdir env n s p).1 = 0)
    (hlist : (s.after s.files).readdir env e = before ++ after) :
    (rmdirLoop env n p (s.after s.files) before).1 = 0 ∧
      OnlyBelow fs e s.files (rmdirLoop env n p (s.after s.files) before).2.files ∧
      ∀ name ∈ before,
        (rmdirLoop env n p (s.after s.files) before).2.files.entry e name = none := by
  induction before using List.reverseRecOn generalizing after with
  | nil => exact ⟨rfl, fun _ _ _ _ hb => hb, by simp⟩
  | append_singleton before name ih =>
      rw [List.append_assoc, List.singleton_append] at hlist
      obtain ⟨hflag, hbelow, hgone⟩ := ih hlist
      have hv := rmdirLoop_shrunk env n p (s.after s.files) before h.shrunk
      have hturn := Turn.intro (h.opens htree.isDir) hlist
      rw [rmdirLoop_concat]
      generalize rmdirLoop env n p (s.after s.files) before = acc at hflag hbelow hgone hv hturn
      by_cases hdots : name = dot ∨ name = dotDot
      · rw [entryResult_dots _ _ _ hdots]
        refine ⟨hflag, hbelow, fun other hother => ?_⟩
        rcases List.mem_append.mp hother with hbefore | hlast
        · exact hgone other hbefore
        · exact FileSystem.entry_dots (List.mem_singleton.mp hlast ▸ hdots) _ _
      · have hlisted : name ∈ (s.after s.files).readdir env e := by
          rw [hlist]
          exact List.mem_append_right _ List.mem_cons_self
        have hmem : name ∈ s.files.names e := by
          have hlisted := (mem_readdir hlists).mp hlisted
          tauto
        have hname := FileSystem.isName_of_mem_names hmem
        have hlen : (p ++ slash :: name).length < size := by
          obtain ⟨q, es, j, hnode, hlookup⟩ := FileSystem.mem_names_iff.mp hmem
          have hentry := FileSystem.entry_eq_some_iff.mpr ⟨q, es, hnode, hlookup⟩
          exact h.short [name] j (FileSystem.descend_entry (h.shrunk.within.entry hentry) [])
        have hfind := h.find htree.isDir hv hbelow
        have hresult := h.turn htree hsub (hturn hdots) hv hbelow hname hlen
        have hpieces : p.length + 2 < size := by
          have hpos := List.length_pos_of_ne_nil hname.1
          rw [List.length_append, List.length_cons] at hlen
          omega
        have hstep := entryResult_onlyBelow hlists htree.links
          (myRmdir_onlyBelow hlists htree.links n) h.inside hv (hv.within.find hfind) hpieces hname
        refine ⟨(if_neg hresult).trans hflag, hbelow.trans hstep, fun other hother => ?_⟩
        rcases List.mem_append.mp hother with hbefore | hlast
        · have hshrunk := entryResult_shrunk env n acc.2 p name (Pruned.refl _ acc.2.files)
          exact hshrunk.within.entry_eq_none (hgone other hbefore)
        · obtain rfl := List.mem_singleton.mp hlast
          exact entry_of_result hfind (Pruned.refl _ _) hlen hname hresult

end Deleting

theorem myRmdir_of_loop (hopen : s.opendir env (n + 1) p = (some d, s.after s.files))
    (hloop : rmdirLoop env n p (s.after s.files) ((s.after s.files).readdir env d) = (0, u)) :
    myRmdir env (n + 1) s p = u.rmdir env p := by
  have hends := myRmdir_cases env (n + 1) s p
  have hsame : ∀ {m k flag v}, n + 1 = m + 1 →
      s.opendir env (m + 1) p = (some k, s.after s.files) →
      rmdirLoop env m p (s.after s.files) ((s.after s.files).readdir env k) = (flag, v) →
      flag = 0 ∧ v = u := by
    intro m k flag v hn hopen' hrun
    obtain rfl := Nat.succ.inj hn
    obtain ⟨hsome, -⟩ := Prod.mk.inj (hopen'.symm.trans hopen)
    obtain rfl := Option.some.inj hsome
    exact Prod.mk.inj (hrun.symm.trans hloop)
  generalize myRmdir env (n + 1) s p = out at hends
  cases hends with
  | closed hnone =>
      rw [hopen] at hnone
      cases hnone
  | left hn hopen' hrun => cases (hsame hn hopen' hrun).1
  | done hn hopen' hrun => rw [(hsame hn hopen' hrun).2]

/-- The tree is removed when no call fails. -/
theorem myRmdir_removes (htree : RemovalTree fs path x q d) (hlists : env.ListsAll) :
    ∀ n (s : System) p e a last, Deleting env fs d n s p e a last → (myRmdir env n s p).1 = 0 := by
  intro n
  induction n with
  | zero =>
      intro s p e a last h
      have hopen := h.opens htree.isDir
      simp [System.opendir, System.refusesOpen] at hopen
  | succ n ih =>
      intro s p e a last h
      have hopen := h.opens htree.isDir
      have hrun : Runs env (n + 1) s p (n + 1) s p := Runs.refl (n + 1) s p
      obtain ⟨hflag, hbelow, hgone⟩ := h.loop htree hlists ih (List.append_nil _).symm
      have hu := rmdirLoop_shrunk env n p (s.after s.files)
        ((s.after s.files).readdir env e) h.shrunk
      rcases hloop : rmdirLoop env n p (s.after s.files) ((s.after s.files).readdir env e) with
        ⟨flag, u⟩
      rw [hloop] at hflag hbelow hgone hu
      obtain rfl : flag = 0 := hflag
      have hallowed : env.refuses u.calls = false := by
        simpa [Refused] using h.allowed _ _ (.rmdir hrun hopen hloop)
      -- The directory is empty now, and its entry is still there.
      have hempty : u.files.isEmptyDir e = true := by
        apply FileSystem.isEmptyDir_of_names (hu.isDir_of (h.inside.isDir htree.isDir))
        intro name hname
        obtain ⟨q, es, j, hnode, hlookup⟩ := FileSystem.mem_names_iff.mp hname
        have hentry := FileSystem.entry_eq_some_iff.mpr ⟨q, es, hnode, hlookup⟩
        have hlisted : name ∈ (s.after s.files).readdir env e := by
          have hshrunk := rmdirLoop_shrunk env n p (s.after s.files)
            ((s.after s.files).readdir env e) (Pruned.refl _ s.files)
          rw [hloop] at hshrunk
          exact (mem_readdir hlists).mpr (.inr (.inr (hshrunk.within.names hname)))
        rw [hgone name hlisted] at hentry
        cases hentry
      have hremoved : u.files.rmdir p = some (u.files.remove a last) :=
        FileSystem.rmdir_eq_some_iff.mpr ⟨a, last, e, h.steady u.files hu hbelow,
          hbelow a last e h.outside h.entry, hempty, rfl⟩
      rw [myRmdir_of_loop hopen hloop, System.rmdir, hremoved, System.attempt_some hallowed]

/-! ### The whole run -/

/-- The result of the run says whether the directory is gone; every entry of a directory that was
opened is gone too, or has failed itself; and when no `unlink` or `rmdir` is refused everything is
removed. -/
structure Honest (env : Env) (n : Nat) (s : System) (path : List Byte) (x : Nat) (last : List Byte)
    (d : Nat) : Prop where
  result : (myRmdir env n s path).1 = 0 ↔ (myRmdir env n s path).2.files.entry x last = none
  others : ∀ m w q e name, Runs env n s path (m + 1) w q →
    w.opendir env (m + 1) q = (some e, w.after w.files) → name ∈ w.files.names e →
      (myRmdir env n s path).2.files.entry e name = none ∨ size ≤ (q ++ slash :: name).length ∨
        ∃ v, Turn env m w q name v ∧ (entryResult env (myRmdir env m) q v name).1 = -1
  removed : Removable s.files path x last d →
    (∀ c u, Makes env n s path c u → ¬ Refused env u c) →
      (myRmdir env n s path).1 = 0 ∧ (myRmdir env n s path).2.files.entry x last = none ∧
        ∀ i, Inside s.files d i → (myRmdir env n s path).2.files.isEmptyDir i = true

/-- The run is honest if and only if every `opendir` and every `stat` succeeds in its system, or
some `unlink` or `rmdir` cannot. -/
theorem honest_iff (htree : RemovalTree s.files path x last d) (hlists : env.ListsAll) (n : Nat) :
    Honest env n s path x last d ↔
      (Removable s.files path x last d →
        (∀ c u, Makes env n s path c u → ¬ Refused env u c) →
          ∀ c u, Makes env n s path c u → Answered env u c) := by
  have hresult := htree.result_iff hlists n
  constructor
  · intro h hremovable hallowed c u hmakes
    exact answered_of_zero (h.removed hremovable hallowed).1 hmakes
  · intro h
    refine ⟨hresult, fun m w q e name hrun hopen hname =>
      entry_gone_or_fails hlists hrun hopen hname, fun hremovable hallowed => ?_⟩
    have hzero : (myRmdir env n s path).1 = 0 :=
      myRmdir_removes htree hlists n s path d x last
        ⟨.root, Pruned.refl _ _, htree.entry, htree.outside, hremovable.steady, hremovable.short,
          h hremovable hallowed, hallowed⟩
    have hgone := hresult.mp hzero
    have hemptied : Emptied s.files (myRmdir env n s path).2.files :=
      (keeps_emptied env s.files).myRmdir n s path trivial
        ⟨Pruned.refl _ _, fun i name j hj _ hnone => by rw [hj] at hnone; cases hnone⟩
    exact ⟨hzero, hgone, fun i hi => hemptied.tree htree.entry htree.isDir hgone hi⟩

/-- The directory `/a` with the link `l` to `x`, which is not there. -/
def dangling : FileSystem :=
  .ofList [.dir 0 [([97], 1)], .dir 0 [([108], 2)], .link [120]] (by decide)

theorem entry_dangling (h : dangling.entry 1 name = some j) : name = [108] ∧ j = 2 := by
  obtain ⟨p, es, hi, hlookup⟩ := FileSystem.entry_eq_some_iff.mp h
  have hnode : dangling.node 1 = some (.dir 0 [([108], 2)]) := rfl
  obtain ⟨-, rfl⟩ := Node.dir.inj (Option.some.inj (hnode.symm.trans hi))
  simpa using mem_of_lookup hlookup

theorem inside_dangling (h : Inside dangling 1 i) : i = 1 := by
  induction h with
  | root => rfl
  | entry _ hes hj hdir ih =>
      subst ih
      have hentry := FileSystem.entry_eq_some_iff.mpr
        ⟨_, _, hes, lookup_of_mem (dangling.entries _ _ _ hes).nodup hj⟩
      obtain ⟨-, rfl⟩ := entry_dangling hentry
      cases hdir

theorem removalTree_dangling : RemovalTree dangling [47, 97] 0 [97] 1 := by
  refine ⟨by decide +kernel, by decide, by decide, fun name hname => ?_, fun h => ?_, ?_⟩
  · obtain ⟨p, es, hi, hlookup⟩ := FileSystem.entry_eq_some_iff.mp hname
    have hnode : dangling.node 0 = some (.dir 0 [([97], 1)]) := rfl
    obtain ⟨-, rfl⟩ := Node.dir.inj (Option.some.inj (hnode.symm.trans hi))
    simpa using mem_of_lookup hlookup
  · cases inside_dangling h
  · intro p e name j target k he hp hj _ hk
    obtain rfl := inside_dangling he
    obtain ⟨rfl, -⟩ := entry_dangling hj
    -- what the link leads to is missing
    obtain ⟨m, hmore⟩ := FileSystem.walk_prefix (FileSystem.walk_components hp)
    have hslash : slash ∉ ([108] : List Byte) := by decide
    have hnil : ([108] : List Byte) ≠ [] := by decide
    have hwalk := (FileSystem.find_eq_some_iff.mp hk).2
    rw [steps, components_slash hslash, endsInSlash_slash hslash, if_neg hnil,
      decide_eq_false hnil, if_neg Bool.false_ne_true, List.append_nil,
      FileSystem.startIn_append (FileSystem.ne_nil_of_isPath (FileSystem.find_eq_some_iff.mp hp).1),
      hmore] at hwalk
    have hlink : ∀ m, dangling.walk m 1 [[108]] ≠ some (.node k) := by
      intro m
      rcases m with _ | m
      · have hnone : dangling.walk 0 1 [[108]] = none := by decide
        rw [hnone]
        simp
      · have hnode : dangling.node 1 = some (.dir 0 [([108], 2)]) := rfl
        have hname : ([120] : List Byte) ≠ dot ∧ [120] ≠ dotDot := by decide
        have hstep : dangling.walk (m + 1) 1 [[108]] = dangling.walk m 1 [[120]] := rfl
        rw [hstep, FileSystem.walk_missing m hnode hname rfl]
        simp
    exact absurd hwalk (hlink m)

theorem removable_dangling : Removable dangling [47, 97] 0 [97] 1 := by
  refine ⟨fun cur hcur _ => ?_, fun names j hj => ?_⟩
  · have hcomponents : components [47, 97] = [[97]] := by decide
    rw [FileSystem.place_eq_some_iff, hcomponents]
    refine ⟨by decide, rfl, by decide, ?_⟩
    have hroot : cur.startIn cur.cwd [47, 97] = 0 := hcur.within.root
    rw [hroot]
    exact FileSystem.walk_nil _ _
  · have hentry : ∀ name, dangling.entry 2 name = none :=
      FileSystem.entry_eq_none_of_isDir (by decide)
    rcases names with _ | ⟨name, _ | ⟨other, names⟩⟩
    · decide
    · obtain ⟨i, hi, -⟩ := Option.bind_eq_some_iff.mp hj
      obtain ⟨rfl, -⟩ := entry_dangling hi
      decide
    · obtain ⟨i, hi, hrest⟩ := Option.bind_eq_some_iff.mp hj
      obtain ⟨-, rfl⟩ := entry_dangling hi
      rw [FileSystem.descend, hentry] at hrest
      cases hrest

theorem honest_iff_dangling :
    Honest Env.plain 8 ⟨dangling, 0⟩ [47, 97] 0 [97] 1 ↔
      (Removable dangling [47, 97] 0 [97] 1 →
        (∀ c u, Makes Env.plain 8 ⟨dangling, 0⟩ [47, 97] c u → ¬ Refused Env.plain u c) →
          ∀ c u, Makes Env.plain 8 ⟨dangling, 0⟩ [47, 97] c u → Answered Env.plain u c) :=
  honest_iff (s := ⟨dangling, 0⟩) removalTree_dangling (fun _ _ _ => List.Perm.refl _) 8

/-- Nothing is refused, but the link is left, and with it the directory. -/
theorem not_honest_dangling :
    RemovalTree dangling [47, 97] 0 [97] 1 ∧ Removable dangling [47, 97] 0 [97] 1 ∧
      (∀ call, Env.plain.refuses call = false) ∧
      (myRmdir Env.plain 8 ⟨dangling, 0⟩ [47, 97]).1 = -1 ∧
      (myRmdir Env.plain 8 ⟨dangling, 0⟩ [47, 97]).2.files.entry 1 [108] = some 2 ∧
      ¬ Honest Env.plain 8 ⟨dangling, 0⟩ [47, 97] 0 [97] 1 := by
  have hminus : (myRmdir Env.plain 8 ⟨dangling, 0⟩ [47, 97]).1 = -1 := by decide +kernel
  refine ⟨removalTree_dangling, removable_dangling, fun _ => rfl, hminus, by decide +kernel,
    fun h => ?_⟩
  have hallowed : ∀ c u, Makes Env.plain 8 ⟨dangling, 0⟩ [47, 97] c u →
      ¬ Refused Env.plain u c := by
    intro c u _ hrefused
    cases c <;> cases hrefused
  have hzero := (h.removed removable_dangling hallowed).1
  rw [hminus] at hzero
  cases hzero

end FsManager
end OperatingSystems
