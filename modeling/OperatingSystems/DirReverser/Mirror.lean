import OperatingSystems.DirReverser.Untouched
import OperatingSystems.Library.Trees

/-!
# The mirrored tree

When no call fails, the reversed directory is a copy of the source directory in which every name is
reversed.

* `SourceTree` — what the source directory has to be.
* `Progress` — the invariant of the loop: the names that are done have their copies, the others have
  no entry yet.
* `reverseFiles_copies` — one directory, by induction over the descriptors that are left.
* `reverseFiles_mirrors` — the whole run.
-/

namespace OperatingSystems
namespace DirReverser

open Files

variable {env : Env} {n new root i d : Nat} {s : System} {fs cur mid last : FileSystem}
  {path src dst name parent : List Byte} {done names : List (List Byte)}

/-- A tree of files and directories with paths that are not too long; there are descriptors for the
directories that are open at the same time, and for the two files of a copy. -/
structure SourceTree (n : Nat) (fs : FileSystem) (src : List Byte) (root : Nat) : Prop where
  plain : ∀ names i, fs.descend root names = some i → fs.isFile i = true ∨ fs.isDir i = true
  short : ∀ names i, fs.descend root names = some i → (pathBelow src names).length < pathMax
  dir : ∀ names i, fs.descend root names = some i → fs.isDir i = true → names.length < n
  file : ∀ names i, fs.descend root names = some i → fs.isFile i = true → names.length + 1 < n

namespace SourceTree

theorem child (h : SourceTree (n + 1) fs src root) (hi : fs.entry root name = some i) :
    SourceTree n fs (src ++ slash :: name) i := by
  have hstep : ∀ {names j}, fs.descend i names = some j →
      fs.descend root (name :: names) = some j :=
    fun hj => (FileSystem.descend_entry hi _).trans hj
  refine ⟨fun names j hj => h.plain _ j (hstep hj), fun names j hj => h.short _ j (hstep hj),
    fun names j hj hdir => ?_, fun names j hj hfile => ?_⟩
  · exact Nat.lt_of_succ_lt_succ (h.dir _ j (hstep hj) hdir)
  · exact Nat.lt_of_succ_lt_succ (h.file _ j (hstep hj) hfile)

theorem of_file (hfile : fs.isFile i = true) (hshort : path.length < pathMax) (hn : 1 < n) :
    SourceTree n fs path i := by
  have hnil : ∀ {names j}, fs.descend i names = some j → names = [] ∧ i = j := by
    intro names j hj
    cases names with
    | nil => exact ⟨rfl, Option.some.inj hj⟩
    | cons name names =>
        rw [FileSystem.descend,
          FileSystem.entry_eq_none_of_isDir (FileSystem.isDir_of_isFile hfile)] at hj
        cases hj
  constructor <;> intro names j hj
  all_goals obtain ⟨rfl, rfl⟩ := hnil hj
  · exact .inl hfile
  · exact hshort
  · exact fun _ => Nat.lt_of_succ_lt hn
  · exact fun _ => hn

theorem of_entries (hdir : fs.isDir i = true) (hshort : path.length < pathMax)
    (h : ∀ name j, fs.entry i name = some j → SourceTree n fs (path ++ slash :: name) j) :
    SourceTree (n + 1) fs path i := by
  have hcases : ∀ {names j}, fs.descend i names = some j → names = [] ∧ i = j ∨
      ∃ name more k, names = name :: more ∧ fs.entry i name = some k ∧
        fs.descend k more = some j := by
    intro names j hj
    cases names with
    | nil => exact .inl ⟨rfl, Option.some.inj hj⟩
    | cons name more =>
        obtain ⟨k, hk, hrest⟩ := Option.bind_eq_some_iff.mp hj
        exact .inr ⟨name, more, k, rfl, hk, hrest⟩
  constructor <;> intro names j hj
  all_goals rcases hcases hj with ⟨rfl, rfl⟩ | ⟨name, more, k, rfl, hk, hrest⟩
  · exact .inr hdir
  · exact (h name k hk).plain more j hrest
  · exact hshort
  · exact (h name k hk).short more j hrest
  · exact fun _ => Nat.succ_pos n
  · exact fun hjdir => Nat.succ_lt_succ ((h name k hk).dir more j hrest hjdir)
  · exact fun hfile => absurd hdir (by rw [FileSystem.isDir_of_isFile hfile]; simp)
  · exact fun hfile => Nat.succ_lt_succ ((h name k hk).file more j hrest hfile)

theorem congr (h : SourceTree n fs src root)
    (hsame : ∀ names i, fs.descend root names = some i → cur.node i = fs.node i) :
    SourceTree n cur src root := by
  have hdescend := FileSystem.descend_congr hsame
  have hkind : ∀ {names i}, cur.descend root names = some i →
      fs.descend root names = some i ∧ fs.kind i = cur.kind i := by
    intro names i hi
    rw [hdescend] at hi
    exact ⟨hi, (FileSystem.kind_congr (hsame names i hi)).symm⟩
  refine ⟨fun names i hi => ?_, fun names i hi => h.short names i (hkind hi).1,
    fun names i hi hdir => ?_, fun names i hi hfile => ?_⟩
  all_goals
    obtain ⟨hold, hsort⟩ := hkind hi
    obtain ⟨hfileEq, hdirEq⟩ := Prod.mk.inj hsort
  · rw [← hfileEq, ← hdirEq]
    exact h.plain names i hold
  · exact h.dir names i hold (hdirEq.trans hdir)
  · exact h.file names i hold (hfileEq.trans hfile)

theorem isPath (h : SourceTree n fs src root) (hsrc : src ≠ []) (names : List (List Byte))
    (i : Nat) (hi : fs.descend root names = some i) :
    FileSystem.isPath (pathBelow src names) = true :=
  isPath_pathBelow hsrc (h.short names i hi)

/-- The directory is not below itself. -/
theorem no_cycle (h : SourceTree n fs src root) (hdir : fs.isDir root = true)
    (hcycle : fs.descend root names = some root) : names = [] := by
  by_contra hne
  have hpos : 0 < names.length := List.length_pos_of_ne_nil hne
  have hrounds : ∀ rounds, fs.descend root (List.replicate rounds names).flatten = some root := by
    intro rounds
    induction rounds with
    | zero => rfl
    | succ rounds ih =>
        rw [List.replicate_succ, List.flatten_cons, FileSystem.descend_append, hcycle]
        exact ih
  have hlt := h.dir _ root (hrounds n) hdir
  have hlength : (List.replicate n names).flatten.length = n * names.length := by simp
  have hle : n ≤ n * names.length := Nat.le_mul_of_pos_right n hpos
  omega

end SourceTree

/-! ### One entry -/

/-- `reverseFiles` is called for the directory `root` and the new directory, which is empty. -/
structure Ready (n : Nat) (fs : FileSystem) (src dst : List Byte) (root new : Nat) : Prop where
  source : fs.find src = some root
  isDir : fs.isDir root = true
  tree : SourceTree n fs src root
  old : ∀ names i, fs.descend root names = some i → i < new
  destination : fs.find dst = some new
  empty : ∃ p, fs.node new = some (.dir p [])
  newFrom : NewFrom new fs
  length : dst.length = src.length

/-- The entries of the new directory: the copies of the names that are done, under their reversed
names. -/
structure Progress (fs : FileSystem) (root new : Nat) (done : List (List Byte))
    (cur : FileSystem) : Prop where
  spares : Spares new fs cur
  copied : ∀ name ∈ done, Option.Rel
    (fun i j => (∀ names k, cur.descend j names = some k → new < k) ∧
      Copies createReverseName fs i cur j)
    (fs.entry root name) (cur.entry new (createReverseName name))
  others : ∀ name, name ∉ done → cur.entry new (createReverseName name) = none

theorem createReverseName_inj {name other : List Byte} :
    createReverseName name = createReverseName other ↔ name = other :=
  List.reverse_inj

theorem createReverseName_twice (name : List Byte) :
    createReverseName (createReverseName name) = name :=
  List.reverse_reverse name

theorem map_createReverseName_twice (names : List (List Byte)) :
    (names.map createReverseName).map createReverseName = names := by
  rw [List.map_map]
  exact (List.map_congr_left fun name _ => createReverseName_twice name).trans (List.map_id names)

theorem createReverseName_dots (h : name = dot ∨ name = dotDot) :
    createReverseName name = name := by
  rcases h with rfl | rfl <;> rfl

theorem entry_created {child : Node} (hcreated : cur.Created d name child mid)
    (hspares : Spares cur.fresh mid last) (other : List Byte) :
    last.entry d other = (cur.entry d other).or (if name = other then some cur.fresh else none) ∧
      d < cur.fresh := by
  obtain ⟨p, es, hd, -, hnode⟩ := hcreated.dir
  have hlt := FileSystem.lt_fresh hd
  have hlast : last.node d = some (.dir p (es ++ [(name, cur.fresh)])) := by
    rw [hspares.old d hlt, hnode, FileSystem.addedNode_dir hd]
  simp only [FileSystem.entry, hlast, hd, lookup_concat]
  exact ⟨trivial, hlt⟩

theorem Progress.dots (h : Progress fs root new done cur) (hdots : name = dot ∨ name = dotDot) :
    Progress fs root new (done ++ [name]) cur := by
  refine ⟨h.spares, fun other hother => ?_, fun other hother => h.others other ?_⟩
  · rcases List.mem_append.mp hother with hdone | hlast
    · exact h.copied other hdone
    · obtain rfl := List.mem_singleton.mp hlast
      rw [createReverseName_dots hdots, FileSystem.entry_dots hdots, FileSystem.entry_dots hdots]
      exact .none
  · exact fun hdone => hother (List.mem_append_left _ hdone)

/-- An entry is made for one more name, and behind it the copy. -/
theorem Progress.step {child : Node} (h : Progress fs root new done cur) (hname : name ∉ done)
    (hi : fs.entry root name = some i)
    (hcreated : cur.Created new (createReverseName name) child mid)
    (hchild : child = .file [] ∨ child = .dir new []) (hspares : Spares cur.fresh mid last)
    (hcopies : Copies createReverseName fs i last cur.fresh) :
    Progress fs root new (done ++ [name]) last := by
  obtain ⟨-, hlt⟩ := entry_created hcreated hspares []
  have hmid := h.spares.trans (Spares.create h.spares.newFrom (le_refl new) hchild hcreated)
  -- What was there is as it was, but for the directory itself.
  have hkept : ∀ k, new < k → k < cur.fresh → last.node k = cur.node k := by
    intro k hk hkf
    obtain ⟨p, es, -, -, hnode⟩ := hcreated.dir
    rw [hspares.old k hkf, hnode, FileSystem.addedNode_of_ne (by omega) (by omega)]
  refine ⟨hmid.trans (Spares.lower hmid.newFrom (by omega) hspares), fun other hother => ?_,
    fun other hother => ?_⟩
  · rw [(entry_created hcreated hspares _).1]
    rcases List.mem_append.mp hother with hdone | hlast
    · have hne : createReverseName name ≠ createReverseName other := by
        rw [Ne, createReverseName_inj]
        rintro rfl
        exact hname hdone
      have hrel := h.copied other hdone
      rw [if_neg hne, Option.or_none]
      generalize fs.entry root other = a at hrel
      generalize hentry : cur.entry new (createReverseName other) = b at hrel
      cases hrel with
      | none => exact .none
      | some hcopy =>
          rename_i a b
          obtain ⟨habove, hcopy⟩ := hcopy
          have hsame : ∀ names k, cur.descend b names = some k → last.node k = cur.node k := by
            intro names k hk
            exact hkept k (habove names k hk)
              (FileSystem.lt_fresh_of_descend (FileSystem.lt_fresh_of_entry hentry) hk)
          refine .some ⟨fun names k hk => habove names k ?_, hcopy.congr (fun _ _ _ => rfl) hsame⟩
          rwa [FileSystem.descend_congr hsame] at hk
    · obtain rfl := List.mem_singleton.mp hlast
      rw [h.others other hname, if_pos rfl, hi]
      refine .some ⟨fun names k hk => ?_, hcopies⟩
      exact lt_of_lt_of_le hlt (hspares.newFrom.descend (le_refl _) hk)
  · have hnot : other ∉ done ∧ other ≠ name := by simpa using hother
    rw [(entry_created hcreated hspares _).1, h.others other hnot.1,
      if_neg fun heq => hnot.2 (createReverseName_inj.mp heq).symm]
    rfl

theorem lookup_of_entry (hd : fs.isDir d = true) (hfree : fs.entry d name = none) :
    ∃ p es, fs.node d = some (.dir p es) ∧ lookup es name = none := by
  obtain ⟨p, es, hnode⟩ := FileSystem.isDir_iff.mp hd
  exact ⟨p, es, hnode, by simpa [FileSystem.entry, hnode] using hfree⟩

/-- There is no such directory yet, so it is made. -/
theorem createReverseDir_of_free (hallows : ∀ call, env.refuses call = false) (hname : IsName name)
    (hplace : s.files.place path = some (d, name)) (hd : s.files.isDir d = true)
    (hfree : s.files.entry d name = none) :
    ∃ mid, createReverseDir env n s path = (0, ⟨mid, s.calls + 2⟩) ∧
      s.files.Created d name (.dir d []) mid := by
  obtain ⟨p, es, hnode, hlookup⟩ := lookup_of_entry hd hfree
  obtain ⟨mid, hmkdir, hcreated⟩ := FileSystem.mkdir_of_free hname hplace hnode hlookup
  have hopen : s.opendir env n path = (none, s.after s.files) :=
    System.opendir_none (FileSystem.find_of_free hplace hnode hlookup)
  refine ⟨mid, ?_, hcreated⟩
  simp only [createReverseDir, checkExist, hopen, ne_eq, not_true_eq_false, if_false]
  rw [System.mkdir, System.after, hmkdir]
  exact System.attempt_some (hallows _)

/-- The file is made and written. -/
theorem createReverseFile_of_free {other : List Byte} (hallows : ∀ call, env.refuses call = false)
    (hn : 2 ≤ n) (hfound : s.files.find (src ++ slash :: name) = some i) (hother : IsName other)
    (hplace : s.files.place (dst ++ slash :: other) = some (d, other))
    (hd : s.files.isDir d = true) (hfree : s.files.entry d other = none) :
    ∃ mid, s.files.Created d other (.file []) mid ∧
      Spares s.files.fresh mid (createReverseFile env n s src name dst other).2.files := by
  obtain ⟨p, es, hnode, hlookup⟩ := lookup_of_entry hd hfree
  have hslash : endsInSlash (dst ++ slash :: other) = false := by
    rw [endsInSlash_slash hother.2.1]
    exact decide_eq_false hother.1
  obtain ⟨mid, hopen, hcreated⟩ :=
    FileSystem.openForWriting_of_free hother hplace hslash hnode hlookup
  have hread : s.fopenRead env n (src ++ slash :: name) = (some i, s.after s.files) :=
    System.fopenRead_eq (hallows _) (by omega) hfound
  have hwrite : (s.after s.files).fopenWrite env (n - 1) (dst ++ slash :: other) =
      (some s.files.fresh, (s.after s.files).after mid) :=
    System.fopenWrite_eq (hallows _) (by omega) hopen
  refine ⟨mid, hcreated, ?_⟩
  simp only [createReverseFile, getPath_whole _ _ (le_refl _), hread, hwrite]
  exact copyContent_spares (s := (s.after s.files).after mid) i (le_refl _)
    (hcreated.newFrom (.inl rfl))

/-- The new directory of an entry is ready. -/
theorem Ready.sub (h : Ready (n + 1) fs src dst root new) (hspares : Spares new fs cur)
    (hi : fs.entry root name = some i) (hdir : fs.isDir i = true)
    (hplace : cur.place (dst ++ slash :: createReverseName name) =
      some (new, createReverseName name))
    (hcreated : cur.Created new (createReverseName name) (.dir new []) mid) :
    Ready n mid (src ++ slash :: name) (dst ++ slash :: createReverseName name) i cur.fresh ∧
      ∀ names k, fs.descend i names = some k → mid.node k = fs.node k := by
  have hstep := FileSystem.descend_entry hi
  have hlt : new < cur.fresh := by
    obtain ⟨p, es, hnode, -⟩ := hcreated.dir
    exact FileSystem.lt_fresh hnode
  have hmid := hspares.trans (Spares.create hspares.newFrom (le_refl new) (.inr rfl) hcreated)
  have hold : ∀ names k, fs.descend i names = some k → k < new :=
    fun names k hk => h.old (name :: names) k ((hstep names).trans hk)
  have hsame : ∀ names k, fs.descend i names = some k → mid.node k = fs.node k :=
    fun names k hk => hmid.old k (hold names k hk)
  have hsrc := FileSystem.ne_nil_of_isPath (FileSystem.find_eq_some_iff.mp h.source).1
  have hfound := FileSystem.find_slash h.source hi (.inr hdir)
    (h.tree.isPath hsrc [name] i (hstep []))
  refine ⟨⟨hmid.within.find hfound, hmid.within.isDir hdir, (h.tree.child hi).congr hsame,
    fun names k hk => ?_, (FileSystem.find_mkdir hplace hcreated).1, ?_,
    hcreated.newFrom (.inr rfl), ?_⟩, hsame⟩
  · rw [FileSystem.descend_congr hsame] at hk
    exact (hold names k hk).trans hlt
  · obtain ⟨p, es, -, -, hnode⟩ := hcreated.dir
    exact ⟨new, by rw [hnode]; exact FileSystem.addedNode_fresh⟩
  · simp only [List.length_append, List.length_cons, h.length, createReverseName,
      List.length_reverse]

/-- An entry of the source is found while the new directory grows, and so is the place of its
copy. -/
theorem Ready.entry_found (h : Ready n fs src dst root new) (hspares : Spares new fs cur)
    (hi : fs.entry root name = some i) :
    cur.find (src ++ slash :: name) = some i ∧
      cur.place (dst ++ slash :: createReverseName name) = some (new, createReverseName name) ∧
      cur.isDir new = true := by
  have hdescend : fs.descend root [name] = some i := FileSystem.descend_entry hi []
  have hsrc := FileSystem.ne_nil_of_isPath (FileSystem.find_eq_some_iff.mp h.source).1
  have hreversed := isName_createReverseName (FileSystem.isName_of_entry hi)
  have hlengths : (dst ++ slash :: createReverseName name).length =
      (src ++ slash :: name).length := by
    simp only [List.length_append, List.length_cons, h.length, createReverseName,
      List.length_reverse]
  refine ⟨?_, ?_, ?_⟩
  · exact hspares.within.find (FileSystem.find_slash h.source hi
      (h.tree.plain [name] i hdescend) (h.tree.isPath hsrc [name] i hdescend))
  · apply FileSystem.place_append (hspares.within.find h.destination) hreversed
    apply FileSystem.isPath_slash
    rw [hlengths]
    exact h.tree.short [name] i hdescend
  · obtain ⟨q, hempty⟩ := h.empty
    exact hspares.within.isDir (FileSystem.isDir_iff.mpr ⟨q, [], hempty⟩)

/-- What `reverseFiles` does for a directory. -/
def Copied (env : Env) (n : Nat) : Prop :=
  ∀ (s : System) src dst root new, Ready n s.files src dst root new →
    (reverseFiles env n s src dst).1 = success ∧
      Spares new s.files (reverseFiles env n s src dst).2.files ∧
      Copies createReverseName s.files root (reverseFiles env n s src dst).2.files new

theorem reverseEntry_progress (hallows : ∀ call, env.refuses call = false) (hsub : Copied env n)
    (hready : Ready (n + 1) fs src dst root new) (h : Progress fs root new done s.files)
    (hnot : name ∉ done) (hname : name = dot ∨ name = dotDot ∨ name ∈ fs.names root) :
    Progress fs root new (done ++ [name])
      (reverseEntry env (reverseFiles env n) n src dst s name).files := by
  unfold reverseEntry
  by_cases hdots : name = dot ∨ name = dotDot
  · rw [if_pos hdots]
    exact h.dots hdots
  · rw [if_neg hdots]
    obtain ⟨p, es, i, hroot, hlookup⟩ := FileSystem.mem_names_iff.mp (by tauto : name ∈ fs.names root)
    have hi : fs.entry root name = some i := FileSystem.entry_eq_some_iff.mpr ⟨p, es, hroot, hlookup⟩
    have hdescend : fs.descend root [name] = some i := FileSystem.descend_entry hi []
    have hreversed := isName_createReverseName (FileSystem.isName_of_entry hi)
    have hlength : (createReverseName name).length = name.length := List.length_reverse
    obtain ⟨hfound, hplace, hnew⟩ := hready.entry_found h.spares hi
    have hfree := h.others name hnot
    have hsame : s.files.node i = fs.node i := h.spares.old i (hready.old [name] i hdescend)
    have hstat : s.stat env (src ++ slash :: name) = (some i, s.after s.files) :=
      System.stat_eq (hallows _) hfound
    dsimp only
    rw [getPath_whole src name (le_refl _),
      getPath_whole dst (createReverseName name) (by rw [hlength, hready.length]), hstat]
    dsimp only
    split
    case isTrue hfile =>
        have hold : fs.isFile i = true := by
          obtain ⟨bytes, hbytes⟩ := FileSystem.isFile_iff.mp hfile
          exact FileSystem.isFile_iff.mpr ⟨bytes, hsame ▸ hbytes⟩
        have hn := hready.tree.file [name] i hdescend hold
        obtain ⟨mid, hcreated, hspares⟩ := createReverseFile_of_free (s := s.after s.files)
          hallows (Nat.le_of_lt_succ hn) hfound hreversed hplace hnew hfree
        refine h.step hnot hi hcreated (.inl rfl) hspares ?_
        apply Copies.of_isFile hold
        obtain ⟨q, more, -, -, hnode⟩ := hcreated.dir
        exact hspares.within.isFile (FileSystem.isFile_iff.mpr
          ⟨[], by rw [hnode]; exact FileSystem.addedNode_fresh⟩)
    case isFalse hnofile =>
        have hdir : fs.isDir i = true := by
          rcases hready.tree.plain [name] i hdescend with hfile | hdir
          · obtain ⟨bytes, hbytes⟩ := FileSystem.isFile_iff.mp hfile
            exact absurd (FileSystem.isFile_iff.mpr ⟨bytes, hsame.trans hbytes⟩) hnofile
          · exact hdir
        have hcur : (s.after s.files).files.isDir i = true := h.spares.within.isDir hdir
        rw [if_pos hcur]
        obtain ⟨mid, hmade, hcreated⟩ := createReverseDir_of_free (n := n) (s := s.after s.files)
          hallows hreversed hplace hnew hfree
        obtain ⟨hsubReady, hkept⟩ := hready.sub h.spares hi hdir hplace hcreated
        rw [hmade]
        dsimp only
        rw [if_neg (not_not_intro rfl)]
        obtain ⟨-, hspares, hcopies⟩ := hsub ⟨mid, _⟩ _ _ _ _ hsubReady
        exact h.step hnot hi hcreated (.inr rfl) hspares
          (hcopies.congr hkept fun _ _ _ => rfl)

/-! ### The directory -/

theorem loop_progress (hallows : ∀ call, env.refuses call = false) (hsub : Copied env n)
    (hready : Ready (n + 1) fs src dst root new) (hnodup : (done ++ names).Nodup)
    (hnames : ∀ name ∈ names, name = dot ∨ name = dotDot ∨ name ∈ fs.names root)
    (h : Progress fs root new done s.files) :
    Progress fs root new (done ++ names)
      (names.foldl (reverseEntry env (reverseFiles env n) n src dst) s).files := by
  induction names generalizing done s with
  | nil => rwa [List.append_nil]
  | cons name names ih =>
      rw [List.append_cons] at hnodup ⊢
      have hnot : name ∉ done := by
        intro hdone
        have hdisjoint := (List.nodup_append.mp (List.nodup_append.mp hnodup).1).2.2
        exact hdisjoint name hdone name (List.mem_singleton_self name) rfl
      exact ih hnodup (fun other hother => hnames other (List.mem_cons_of_mem name hother))
        (reverseEntry_progress hallows hsub hready h hnot (hnames name List.mem_cons_self))

/-- Nothing is done yet. -/
theorem progress_nil (hready : Ready n fs src dst root new) : Progress fs root new [] fs := by
  obtain ⟨p, hempty⟩ := hready.empty
  refine ⟨Spares.refl hready.newFrom, fun name hname => (List.not_mem_nil hname).elim,
    fun name _ => ?_⟩
  simp [FileSystem.entry, hempty, lookup]

/-- All is done. -/
theorem Progress.copies (h : Progress fs root new done cur) (hdir : fs.isDir root = true)
    (hnew : cur.isDir new = true) (hall : ∀ name ∈ fs.names root, name ∈ done) :
    Copies createReverseName fs root cur new := by
  refine .of_entries ?_ fun name => ?_
  · have hfile : ∀ {fs : FileSystem} {i}, fs.isDir i = true → fs.kind i = (false, true) := by
      intro fs i hi
      obtain ⟨p, es, hnode⟩ := FileSystem.isDir_iff.mp hi
      simp [FileSystem.kind, FileSystem.isFile, FileSystem.isDir, hnode]
    rw [hfile hdir, hfile hnew]
  · by_cases hname : name ∈ done
    · have hrel := h.copied name hname
      generalize fs.entry root name = a, cur.entry new (createReverseName name) = b at hrel
      cases hrel with
      | some hcopy => exact .some hcopy.2
      | none => exact .none
    · have hnone : fs.entry root name = none := by
        cases hi : fs.entry root name with
        | none => rfl
        | some i =>
            obtain ⟨p, es, hnode, hlookup⟩ := FileSystem.entry_eq_some_iff.mp hi
            exact absurd (hall name (FileSystem.mem_names_iff.mpr ⟨p, es, i, hnode, hlookup⟩)) hname
      rw [hnone, h.others name hname]
      exact .none

/-- The names that are listed are different. -/
theorem nodup_listing (hlists : env.ListsAll) (call : Nat) (fs : FileSystem) (d : Nat) :
    (env.listing call fs d).Nodup := by
  rw [(hlists call fs d).nodup_iff]
  have hdots : ∀ name ∈ fs.names d, name ≠ dot ∧ name ≠ dotDot :=
    fun name hname => (FileSystem.isName_of_mem_names hname).2.2
  have hnodup : (fs.names d).Nodup := by
    unfold FileSystem.names
    split
    case h_1 p es hd => exact (fs.entries d p es hd).nodup
    case h_2 => exact List.nodup_nil
  have hne : dot ≠ dotDot := by decide
  simp only [List.nodup_cons, List.mem_cons, not_or]
  exact ⟨⟨hne, fun hmem => (hdots _ hmem).1 rfl⟩, fun hmem => (hdots _ hmem).2 rfl, hnodup⟩

theorem reverseFiles_copies (hallows : ∀ call, env.refuses call = false) (hlists : env.ListsAll) :
    ∀ n, Copied env n
  | 0, s, src, dst, root, new, hready => absurd (hready.tree.dir [] root rfl hready.isDir) (by simp)
  | n + 1, s, src, dst, root, new, hready => by
      have hopen : s.opendir env (n + 1) src = (some root, s.after s.files) :=
        System.opendir_eq (hallows _) (by omega) hready.source hready.isDir
      unfold reverseFiles
      rw [hopen]
      have hdone := loop_progress hallows (reverseFiles_copies hallows hlists n) hready
        (s := s.after s.files) (nodup_listing hlists (s.calls + 1) s.files root)
        (fun name hname => by simpa using (hlists (s.calls + 1) s.files root).subset hname)
        (progress_nil hready)
      obtain ⟨p, hempty⟩ := hready.empty
      refine ⟨rfl, hdone.spares, hdone.copies hready.isDir
        (hdone.spares.within.isDir (FileSystem.isDir_iff.mpr ⟨p, [], hempty⟩)) fun name hname => ?_⟩
      exact (hlists (s.calls + 1) s.files root).symm.subset
        (List.mem_cons_of_mem _ (List.mem_cons_of_mem _ hname))

/-! ### The whole run -/

/-- The last slash is the one in front of the name. -/
theorem lastSlash_eq (parent : List Byte) (hname : slash ∉ name) {i : Nat}
    (hi : parent.length ≤ i) : lastSlash (parent ++ slash :: name) i = parent.length := by
  induction i with
  | zero => exact (Nat.le_zero.mp hi).symm
  | succ i ih =>
      unfold lastSlash
      rcases Nat.lt_or_eq_of_le hi with hlt | heq
      · have hbehind : (parent ++ slash :: name)[i + 1]? ≠ some slash := by
          rw [List.getElem?_append_right hi]
          obtain ⟨k, hk⟩ : ∃ k, i + 1 - parent.length = k + 1 := ⟨i - parent.length, by omega⟩
          rw [hk, List.getElem?_cons_succ]
          exact fun hmem => hname (List.mem_of_getElem? hmem)
        rw [if_neg hbehind]
        exact ih (by omega)
      · rw [← heq, List.getElem?_append_right (le_refl _), Nat.sub_self, List.getElem?_cons_zero,
          if_pos rfl]

theorem reversedPathOf_slash (parent : List Byte) (hname : slash ∉ name) :
    reversedPathOf (parent ++ slash :: name) = parent ++ slash :: createReverseName name := by
  have hlength : parent.length ≤ (parent ++ slash :: name).length := by simp
  rw [reversedPathOf, lastSlash_eq parent hname hlength, reverseDirName, List.append_cons]
  have hfront : parent.length + 1 = (parent ++ [slash]).length := by simp
  rw [hfront, List.take_left, List.drop_left, ← List.append_cons]
  rfl

/-- The reversed directory stands where the directory stands. -/
theorem place_reversed (hname : IsName name)
    (hplace : fs.place (parent ++ slash :: name) = some (d, name)) :
    fs.place (parent ++ slash :: createReverseName name) = some (d, createReverseName name) := by
  have hreversed := isName_createReverseName hname
  obtain ⟨hpath, -, -, hwalk⟩ := FileSystem.place_eq_some_iff.mp hplace
  have hlengths : (parent ++ slash :: createReverseName name).length =
      (parent ++ slash :: name).length := by
    simp [createReverseName]
  have hstart : fs.startIn fs.cwd (parent ++ slash :: createReverseName name) =
      fs.startIn fs.cwd (parent ++ slash :: name) := by
    cases parent <;> rfl
  have hshort := FileSystem.lt_of_isPath hpath
  rw [components_slash hname.2.1, if_neg hname.1, List.dropLast_concat] at hwalk
  rw [FileSystem.place_eq_some_iff, components_slash hreversed.2.1, if_neg hreversed.1,
    List.dropLast_concat, hstart]
  exact ⟨FileSystem.isPath_slash (by rwa [hlengths]), List.getLast?_concat, hreversed.2.2, hwalk⟩

/-- What the program has made of a file system: next to the directory `src` there is a new
directory, and what is below it is made of the source tree by turning every name round. -/
structure Mirrored (fs last : FileSystem) (src dst : List Byte) (d root : Nat)
    (name : List Byte) : Prop where
  others : ∀ i node, fs.node i = some node → i ≠ d → last.node i = some node
  entry : ∃ p es, fs.node d = some (.dir p es) ∧
    last.node d = some (.dir p (es ++ [(createReverseName name, fs.fresh)]))
  image : pathsBelow last dst fs.fresh = {p | ∃ names i, fs.descend root names = some i ∧
    p = (pathBelow dst (names.map createReverseName), fs.kind i)}
  created : ∀ p ∈ pathsBelow last dst fs.fresh,
    fs.find p.1 = none ∧ (last.find p.1).map last.kind = some p.2
  injective : ∀ names names' i i', fs.descend root names = some i →
    fs.descend root names' = some i' → pathBelow dst (names.map createReverseName) =
      pathBelow dst (names'.map createReverseName) → names = names'
  length : ∀ names i, fs.descend root names = some i →
    (pathBelow dst (names.map createReverseName)).length = (pathBelow src names).length
  whole : ∀ names other i, fs.descend root (names ++ [other]) = some i →
    getPath (pathBelow src names) other ((pathBelow src names).length + other.length + 2) =
      pathBelow src (names ++ [other]) ∧
    getPath (pathBelow dst (names.map createReverseName)) (createReverseName other)
        ((pathBelow src names).length + other.length + 2) =
      pathBelow dst ((names ++ [other]).map createReverseName)

/-- The directory in which the source directory stands is not below it. -/
theorem ne_of_descend (htree : SourceTree n fs (parent ++ slash :: name) root)
    (hfind : fs.find (parent ++ slash :: name) = some root) (hdir : fs.isDir root = true)
    (hplace : fs.place (parent ++ slash :: name) = some (d, name))
    (hi : fs.descend root names = some i) : i ≠ d := by
  rintro rfl
  obtain ⟨p, es, j, node, hnode, hj, hn, hroot⟩ := FileSystem.entry_of_find hplace hfind
  have hcycle := FileSystem.descend_concat hi (FileSystem.entry_eq_some_iff.mpr ⟨p, es, hnode, hj⟩)
  have hlink : ∀ target, node ≠ .link target := by
    rintro target rfl
    rcases htree.plain _ j hcycle with hfile | hdir
    · simp [FileSystem.isFile, hn] at hfile
    · simp [FileSystem.isDir, hn] at hdir
  obtain rfl := hroot hlink
  have hnil := htree.no_cycle hdir hcycle
  simp at hnil

theorem image_of_copies (hcopies : Copies createReverseName fs root last new) :
    pathsBelow last dst new = {p | ∃ names i, fs.descend root names = some i ∧
      p = (pathBelow dst (names.map createReverseName), fs.kind i)} := by
  ext q
  constructor
  · rintro ⟨names, j, hj, rfl⟩
    obtain ⟨i, hi, hkind⟩ := hcopies.exists_original createReverseName_twice hj
    exact ⟨_, i, hi, by rw [map_createReverseName_twice, hkind]⟩
  · rintro ⟨names, i, hi, rfl⟩
    obtain ⟨j, hj, hkind⟩ := hcopies.exists_copy hi
    exact ⟨_, j, hj, by rw [hkind]⟩

theorem length_reversed (hlen : dst.length = src.length) (names : List (List Byte)) :
    (pathBelow dst (names.map createReverseName)).length = (pathBelow src names).length :=
  length_pathBelow_map (fun _ => List.length_reverse) hlen names

/-- What is below the new directory was not there before, and is found there now. -/
theorem created_of_copies (hlen : dst.length = src.length) (hdst : dst ≠ [])
    (htree : SourceTree n fs src root) (hnone : fs.find dst = none)
    (hslash : endsInSlash dst = false) (hdest : last.find dst = some new)
    (hcopies : Copies createReverseName fs root last new) :
    ∀ p ∈ pathsBelow last dst new, fs.find p.1 = none ∧ (last.find p.1).map last.kind = some p.2 := by
  rintro q ⟨names, j, hj, rfl⟩
  have hkinds : ∀ names j, last.descend new names = some j →
      last.isFile j = true ∨ last.isDir j = true := by
    intro names j hj
    obtain ⟨i, hi, hkind⟩ := hcopies.exists_original createReverseName_twice hj
    obtain ⟨hfile, hdir⟩ := Prod.mk.inj hkind
    rw [← hfile, ← hdir]
    exact htree.plain _ i hi
  have hpaths : ∀ names j, last.descend new names = some j →
      FileSystem.isPath (pathBelow dst names) = true := by
    intro names j hj
    obtain ⟨i, hi, -⟩ := hcopies.exists_original createReverseName_twice hj
    have hshort := htree.short _ i hi
    rw [← length_reversed hlen, map_createReverseName_twice] at hshort
    exact isPath_pathBelow hdst hshort
  refine ⟨FileSystem.find_pathBelow_none hnone hslash hdst (FileSystem.isName_of_descend hj), ?_⟩
  rw [FileSystem.find_pathBelow hdest hkinds hpaths hj]
  rfl

theorem reversed_injective (hcopies : Copies createReverseName fs root last new)
    {names names' : List (List Byte)} {i i' : Nat} (hi : fs.descend root names = some i)
    (hi' : fs.descend root names' = some i')
    (heq : pathBelow dst (names.map createReverseName) =
      pathBelow dst (names'.map createReverseName)) : names = names' := by
  have hnames : ∀ {names i}, fs.descend root names = some i →
      ∀ name ∈ names.map createReverseName, IsName name := by
    intro names i hi
    obtain ⟨j, hj, -⟩ := hcopies.exists_copy hi
    exact FileSystem.isName_of_descend hj
  have hmaps := congrArg (List.map createReverseName) (pathBelow_inj (hnames hi) (hnames hi') heq)
  rwa [map_createReverseName_twice, map_createReverseName_twice] at hmaps

theorem mirrored_of_copies (hlen : dst.length = src.length) (hsrc : src ≠ [])
    (htree : SourceTree n fs src root) (hnone : fs.find dst = none)
    (hslash : endsInSlash dst = false)
    (hcreated : fs.Created d (createReverseName name) (.dir d []) mid)
    (hdest : mid.find dst = some fs.fresh) (hspares : Spares fs.fresh mid last)
    (hcopies : Copies createReverseName fs root last fs.fresh) :
    Mirrored fs last src dst d root name := by
  obtain ⟨p, es, hd, -, hnode⟩ := hcreated.dir
  have hdst : dst ≠ [] := by
    rw [← List.length_pos_iff, hlen, List.length_pos_iff]
    exact hsrc
  have hlt := FileSystem.lt_fresh hd
  constructor
  · intro i node hi hne
    have hif := FileSystem.lt_fresh hi
    rw [hspares.old i hif, hnode, FileSystem.addedNode_of_ne hif.ne hne, hi]
  · refine ⟨p, es, hd, ?_⟩
    rw [hspares.old d hlt, hnode, FileSystem.addedNode_dir hd]
  · exact image_of_copies hcopies
  · exact created_of_copies hlen hdst htree hnone hslash (hspares.within.find hdest) hcopies
  · exact fun names names' i i' hi hi' heq => reversed_injective hcopies hi hi' heq
  · exact fun names _ _ => length_reversed hlen names
  · intro names other i hi
    have hother : (createReverseName other).length = other.length := List.length_reverse
    rw [List.map_append, List.map_singleton, pathBelow_concat, pathBelow_concat]
    exact ⟨getPath_whole _ _ (le_refl _), getPath_whole _ _ (by rw [length_reversed hlen, hother])⟩

/-- The directory that has been made is ready for the tree. -/
theorem ready_of_created (hfind : fs.find src = some root) (hdir : fs.isDir root = true)
    (htree : SourceTree n fs src root) (hlen : dst.length = src.length)
    (hne : ∀ names i, fs.descend root names = some i → i ≠ d)
    (hcreated : fs.Created d name (.dir d []) mid) (hdest : mid.find dst = some fs.fresh) :
    Ready n mid src dst root fs.fresh ∧
      ∀ names i, fs.descend root names = some i → mid.node i = fs.node i := by
  have hrootlt : root < fs.fresh := by
    obtain ⟨p, es, hroot⟩ := FileSystem.isDir_iff.mp hdir
    exact FileSystem.lt_fresh hroot
  have hold : ∀ names i, fs.descend root names = some i → i < fs.fresh :=
    fun names i hi => FileSystem.lt_fresh_of_descend hrootlt hi
  obtain ⟨p, es, -, -, hnode⟩ := hcreated.dir
  have hsame : ∀ names i, fs.descend root names = some i → mid.node i = fs.node i := by
    intro names i hi
    rw [hnode, FileSystem.addedNode_of_ne (hold names i hi).ne (hne names i hi)]
  refine ⟨⟨hcreated.within.find hfind, hcreated.within.isDir hdir, htree.congr hsame,
    fun names i hi => ?_, hdest, ?_, hcreated.newFrom (.inr rfl), hlen⟩, hsame⟩
  · rw [FileSystem.descend_congr hsame] at hi
    exact hold names i hi
  · exact ⟨d, by rw [hnode]; exact FileSystem.addedNode_fresh⟩

/-- When no call fails, the program mirrors the tree below the directory; the path is absolute and
ends in a name, as `realpath` returns it. -/
theorem reverseFiles_mirrors (hallows : ∀ call, env.refuses call = false) (hlists : env.ListsAll)
    (hname : IsName name) (hfind : s.files.find (parent ++ slash :: name) = some root)
    (hdir : s.files.isDir root = true)
    (htree : SourceTree n s.files (parent ++ slash :: name) root)
    (hplace : s.files.place (parent ++ slash :: name) = some (d, name))
    (hfree : s.files.entry d (createReverseName name) = none) :
    ∃ t, reverseDir env n s (parent ++ slash :: name) =
        (some (parent ++ slash :: createReverseName name), t) ∧
      (reverseFiles env n t (parent ++ slash :: name)
        (parent ++ slash :: createReverseName name)).1 = success ∧
      Mirrored s.files (reverseFiles env n t (parent ++ slash :: name)
        (parent ++ slash :: createReverseName name)).2.files
        (parent ++ slash :: name) (parent ++ slash :: createReverseName name) d root name := by
  have hreversed := isName_createReverseName hname
  have hplace' := place_reversed hname hplace
  have hd : s.files.isDir d = true := by
    obtain ⟨p, es, -, -, hnode, -⟩ := FileSystem.entry_of_find hplace hfind
    exact FileSystem.isDir_iff.mpr ⟨p, es, hnode⟩
  obtain ⟨mid, hmade, (hcreated : s.files.Created d (createReverseName name) (.dir d []) mid)⟩ :=
    createReverseDir_of_free (n := n) (s := s.after s.files) hallows hreversed hplace' hd hfree
  refine ⟨⟨mid, s.calls + 3⟩, ?_, ?_⟩
  · rw [reverseDir, System.malloc_eq (hallows _), reversedPathOf_slash parent hname.2.1]
    dsimp only
    rw [hmade]
    rfl
  have hne : ∀ names i, s.files.descend root names = some i → i ≠ d :=
    fun names i hi => ne_of_descend htree hfind hdir hplace hi
  have hlen : (parent ++ slash :: createReverseName name).length =
      (parent ++ slash :: name).length := by
    simp [createReverseName]
  have hdest := (FileSystem.find_mkdir hplace' hcreated).1
  obtain ⟨hready, hsame⟩ := ready_of_created hfind hdir htree hlen hne hcreated hdest
  obtain ⟨hsuccess, hspares, hcopies⟩ :=
    reverseFiles_copies hallows hlists n ⟨mid, s.calls + 3⟩ _ _ _ _ hready
  obtain ⟨p, es, hnode, hlookup⟩ := lookup_of_entry hd hfree
  have hslash : endsInSlash (parent ++ slash :: createReverseName name) = false := by
    rw [endsInSlash_slash hreversed.2.1]
    exact decide_eq_false hreversed.1
  exact ⟨hsuccess, mirrored_of_copies hlen (by simp) htree
    (FileSystem.find_of_free hplace' hnode hlookup) hslash hcreated hdest hspares
    (hcopies.congr hsame fun _ _ _ => rfl)⟩

/-- The directory `/ab` with the directory `cd`, in which there is the file `ef`. -/
def nested : System where
  files := .ofList [.dir 0 [([97, 98], 1)], .dir 0 [([99, 100], 2)], .dir 1 [([101, 102], 3)],
    .file [120]] (by decide)
  calls := 0

theorem sourceTree_nested : SourceTree 4 nested.files [47, 97, 98] 1 := by
  have hentry : ∀ {i p j name only} {fs : FileSystem}, fs.node i = some (.dir p [(only, j)]) →
      ∀ k, fs.entry i name = some k → name = only ∧ k = j := by
    intro i p j name only fs hi k hk
    obtain ⟨q, es, hnode, hlookup⟩ := FileSystem.entry_eq_some_iff.mp hk
    obtain ⟨-, rfl⟩ := Node.dir.inj (Option.some.inj (hi.symm.trans hnode))
    simpa using mem_of_lookup hlookup
  refine .of_entries (by decide) (by decide) fun name i hi => ?_
  obtain ⟨rfl, rfl⟩ := hentry rfl i hi
  refine .of_entries (by decide) (by decide) fun name i hi => ?_
  obtain ⟨rfl, rfl⟩ := hentry rfl i hi
  exact .of_file (by decide) (by decide) (by decide)

theorem reverseFiles_mirrors_nested :
    ∃ t, reverseDir Env.plain 4 nested [47, 97, 98] = (some [47, 98, 97], t) ∧
      (reverseFiles Env.plain 4 t [47, 97, 98] [47, 98, 97]).1 = success ∧
      Mirrored nested.files (reverseFiles Env.plain 4 t [47, 97, 98] [47, 98, 97]).2.files
        [47, 97, 98] [47, 98, 97] 0 1 [97, 98] :=
  @reverseFiles_mirrors Env.plain 4 1 0 nested [97, 98] [] (fun _ => rfl)
    (fun _ _ _ => List.Perm.refl _) (by decide) (by decide +kernel) (by decide)
    sourceTree_nested (by decide +kernel) (by decide)

end DirReverser
end OperatingSystems
