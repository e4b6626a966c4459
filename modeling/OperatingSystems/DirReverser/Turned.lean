import OperatingSystems.DirReverser.Content
import OperatingSystems.DirReverser.Mirror

/-!
# The content of the mirrored tree

When no call fails, every file of the reversed directory holds what `copyContent` makes of its
source: the bytes in reverse order, and nothing where the source has two bytes.

* `turned` — what `copyContent` makes of a file.
* `reverseEntry_made` — one name of a directory; `Filled` — the names that are done.
* `reverseFiles_turned` — one directory, by induction over the descriptors that are left.
* `main_turns` — the program.
-/

namespace OperatingSystems
namespace DirReverser

open Files

variable {env : Env} {n new root i j f g d : Nat} {s : System} {fs cur mid last old : FileSystem}
  {path src dst name parent : List Byte} {done names : List (List Byte)}

/-! ### One file -/

/-- What `copyContent` makes of the bytes of a file. -/
def turned (bytes : List Byte) : List Byte :=
  if bytes.length = 2 then [] else bytes.reverse

theorem copyContent_turned (hallows : ∀ call, env.refuses call = false)
    (hg : s.files.isFile g = true) (hempty : s.files.content g = []) :
    (copyContent env s f g).files.content g = turned (s.files.content f) := by
  by_cases htwo : (s.files.content f).length = 2
  · rw [copyContent_eq f g fun call _ _ => hallows call, if_neg (by simp [hallows]), if_pos htwo,
      turned, if_pos htwo, hempty]
  · rw [(copyContent_content (fun call _ => hallows call) hg hempty htwo).1, turned, if_neg htwo]

theorem content_congr (h : cur.node i = fs.node i) : cur.content i = fs.content i := by
  rw [FileSystem.content, FileSystem.content, h]

/-- The new file gets the turned bytes. -/
theorem createReverseFile_turned {other : List Byte} (hallows : ∀ call, env.refuses call = false)
    (hn : 2 ≤ n) (hfound : s.files.find (src ++ slash :: name) = some i) (hother : IsName other)
    (hplace : s.files.place (dst ++ slash :: other) = some (d, other))
    (hd : s.files.isDir d = true) (hfree : s.files.entry d other = none)
    (hfile : s.files.isFile i = true) :
    ∃ mid, s.files.Created d other (.file []) mid ∧
      Spares s.files.fresh mid (createReverseFile env n s src name dst other).2.files ∧
      (createReverseFile env n s src name dst other).2.files.content s.files.fresh =
        turned (s.files.content i) := by
  obtain ⟨p, es, hnode, hlookup⟩ := lookup_of_entry hd hfree
  have hslash : endsInSlash (dst ++ slash :: other) = false := by
    rw [endsInSlash_slash hother.2.1]
    exact decide_eq_false hother.1
  obtain ⟨mid, hopen, hcreated⟩ :=
    FileSystem.openForWriting_of_free hother hplace hslash hnode hlookup
  have hread : s.fopenRead env n (src ++ slash :: name) = (some i, s.after s.files) :=
    System.fopenRead_eq (hallows _) (by omega) hfound
  have hwrite : (s.after s.files).fopenWrite env (n - 1) (dst ++ slash :: other) =
      (some s.files.fresh, (s.after s.files).after mid) :=
    System.fopenWrite_eq (hallows _) (by omega) hopen
  refine ⟨mid, hcreated, ?_⟩
  simp only [createReverseFile, getPath_whole _ _ (le_refl _), hread, hwrite]
  refine ⟨copyContent_spares (s := (s.after s.files).after mid) i (le_refl _)
    (hcreated.newFrom (.inl rfl)), ?_⟩
  obtain ⟨q, more, -, -, hmid⟩ := hcreated.dir
  have hnew : mid.node s.files.fresh = some (.file []) := by
    rw [hmid, FileSystem.addedNode_fresh]
  -- The source is neither the new file nor its directory.
  have hsource : mid.node i = s.files.node i := by
    obtain ⟨bytes, hbytes⟩ := FileSystem.isFile_iff.mp hfile
    rw [hmid, FileSystem.addedNode_of_ne (FileSystem.lt_fresh hbytes).ne]
    rintro rfl
    simp [FileSystem.isDir_of_isFile hfile] at hd
  rw [← content_congr hsource]
  exact copyContent_turned (s := (s.after s.files).after mid) hallows
    (FileSystem.isFile_iff.mpr ⟨[], hnew⟩) (by simp [System.after, FileSystem.content, hnew])

/-! ### One entry -/

/-- The files below `j` hold the turned bytes of those below `i`. -/
def Turned (fs : FileSystem) (i : Nat) (cur : FileSystem) (j : Nat) : Prop :=
  ∀ names k l, fs.descend i names = some k → cur.descend j (names.map createReverseName) = some l →
    fs.isFile k = true → cur.content l = turned (fs.content k)

/-- Both trees may change elsewhere. -/
theorem Turned.congr (h : Turned fs i cur j)
    (hold : ∀ names k, old.descend i names = some k → fs.node k = old.node k)
    (hnew : ∀ names k, cur.descend j names = some k → last.node k = cur.node k) :
    Turned old i last j := by
  intro names k l hk hl hfile
  have hl' : cur.descend j (names.map createReverseName) = some l := by
    rwa [FileSystem.descend_congr hnew] at hl
  have hk' : fs.descend i names = some k := by rwa [FileSystem.descend_congr hold]
  have hsame := hold names k hk
  rw [content_congr (hnew _ l hl'), ← content_congr hsame]
  refine h names k l hk' hl' ?_
  obtain ⟨bytes, hbytes⟩ := FileSystem.isFile_iff.mp hfile
  exact FileSystem.isFile_iff.mpr ⟨bytes, hsame.trans hbytes⟩

/-- What `reverseFiles` does for the files of a directory. -/
def TurnedBelow (env : Env) (n : Nat) : Prop :=
  ∀ (s : System) src dst root new, Ready n s.files src dst root new →
    Turned s.files root (reverseFiles env n s src dst).2.files new

/-- A file is below itself only. -/
theorem Turned.of_isFile (hi : fs.isFile i = true)
    (hcontent : cur.content j = turned (fs.content i)) : Turned fs i cur j := by
  intro names k l hk hl _
  cases names with
  | nil =>
      obtain rfl := Option.some.inj hk
      obtain rfl := Option.some.inj hl
      exact hcontent
  | cons name names =>
      rw [FileSystem.descend,
        FileSystem.entry_eq_none_of_isDir (FileSystem.isDir_of_isFile hi)] at hk
      cases hk

/-- An entry of the source gets its copy, with the turned content. -/
theorem reverseEntry_made (hallows : ∀ call, env.refuses call = false)
    (hlists : env.ListsAll) (hsub : TurnedBelow env n) (hready : Ready (n + 1) fs src dst root new)
    (h : Progress fs root new done s.files) (hnot : name ∉ done)
    (hi : fs.entry root name = some i) :
    ∃ child mid, s.files.Created new (createReverseName name) child mid ∧
      Spares s.files.fresh mid (reverseEntry env (reverseFiles env n) n src dst s name).files ∧
      Turned fs i (reverseEntry env (reverseFiles env n) n src dst s name).files
        s.files.fresh := by
  have hisName := FileSystem.isName_of_entry hi
  have hdots : ¬ (name = dot ∨ name = dotDot) := not_or.mpr hisName.2.2
  have hdescend : fs.descend root [name] = some i := FileSystem.descend_entry hi []
  have hreversed := isName_createReverseName hisName
  have hlength : (createReverseName name).length = name.length := List.length_reverse
  obtain ⟨hfound, hplace, hnew⟩ := hready.entry_found h.spares hi
  have hfree := h.others name hnot
  have hsame : s.files.node i = fs.node i := h.spares.old i (hready.old [name] i hdescend)
  have hstat : s.stat env (src ++ slash :: name) = (some i, s.after s.files) :=
    System.stat_eq (hallows _) hfound
  unfold reverseEntry
  rw [if_neg hdots]
  dsimp only
  rw [getPath_whole src name (le_refl _),
    getPath_whole dst (createReverseName name) (by rw [hlength, hready.length]), hstat]
  dsimp only
  split
  case isTrue hfile =>
      have hold : fs.isFile i = true := by
        obtain ⟨bytes, hbytes⟩ := FileSystem.isFile_iff.mp hfile
        exact FileSystem.isFile_iff.mpr ⟨bytes, hsame ▸ hbytes⟩
      have hn := hready.tree.file [name] i hdescend hold
      obtain ⟨mid, hcreated, hspares, hcontent⟩ := createReverseFile_turned (s := s.after s.files)
        hallows (Nat.le_of_lt_succ hn) hfound hreversed hplace hnew hfree hfile
      exact ⟨_, mid, hcreated, hspares, .of_isFile hold (hcontent.trans (by
        rw [← content_congr hsame]
        rfl))⟩
  case isFalse hnofile =>
      have hdir : fs.isDir i = true := by
        rcases hready.tree.plain [name] i hdescend with hfile | hdir
        · obtain ⟨bytes, hbytes⟩ := FileSystem.isFile_iff.mp hfile
          exact absurd (FileSystem.isFile_iff.mpr ⟨bytes, hsame.trans hbytes⟩) hnofile
        · exact hdir
      have hcur : (s.after s.files).files.isDir i = true := h.spares.within.isDir hdir
      rw [if_pos hcur]
      obtain ⟨mid, hmade, hcreated⟩ := createReverseDir_of_free (n := n) (s := s.after s.files)
        hallows hreversed hplace hnew hfree
      obtain ⟨hsubReady, hkept⟩ := hready.sub h.spares hi hdir hplace hcreated
      rw [hmade]
      dsimp only
      rw [if_neg (not_not_intro rfl)]
      exact ⟨_, mid, hcreated,
        (reverseFiles_copies hallows hlists n ⟨mid, _⟩ _ _ _ _ hsubReady).2.1,
        (hsub ⟨mid, _⟩ _ _ _ _ hsubReady).congr hkept fun _ _ _ => rfl⟩

/-! ### The directory -/

/-- The names that are done have copies with the turned content. -/
def Filled (fs : FileSystem) (root new : Nat) (done : List (List Byte)) (cur : FileSystem) : Prop :=
  ∀ name ∈ done, ∀ i j, fs.entry root name = some i →
    cur.entry new (createReverseName name) = some j → Turned fs i cur j

theorem Filled.step {child : Node} (h : Progress fs root new done cur)
    (hfilled : Filled fs root new done cur) (hname : name ∉ done)
    (hi : fs.entry root name = some i)
    (hcreated : cur.Created new (createReverseName name) child mid)
    (hspares : Spares cur.fresh mid last) (hturned : Turned fs i last cur.fresh) :
    Filled fs root new (done ++ [name]) last := by
  intro other hother a b ha hb
  rw [(entry_created hcreated hspares _).1] at hb
  rcases List.mem_append.mp hother with hdone | hlast
  · have hne : createReverseName name ≠ createReverseName other := by
      rw [Ne, createReverseName_inj]
      rintro rfl
      exact hname hdone
    rw [if_neg hne, Option.or_none] at hb
    have hrel := h.copied other hdone
    rw [ha, hb] at hrel
    cases hrel with
    | some hcopy =>
        -- What is below `b` is as it was.
        refine (hfilled other hdone a b ha hb).congr (fun _ _ _ => rfl) fun names k hk => ?_
        have hlt := FileSystem.lt_fresh_of_descend (FileSystem.lt_fresh_of_entry hb) hk
        have hnew := hcopy.1 names k hk
        obtain ⟨p, es, -, -, hnode⟩ := hcreated.dir
        rw [hspares.old k hlt, hnode, FileSystem.addedNode_of_ne hlt.ne hnew.ne']
  · obtain rfl := List.mem_singleton.mp hlast
    rw [h.others other hname, if_pos rfl] at hb
    obtain rfl := Option.some.inj hb
    obtain rfl := Option.some.inj (hi.symm.trans ha)
    exact hturned

theorem loop_filled (hallows : ∀ call, env.refuses call = false) (hlists : env.ListsAll)
    (hsub : TurnedBelow env n) (hready : Ready (n + 1) fs src dst root new)
    (hnodup : (done ++ names).Nodup)
    (hnames : ∀ name ∈ names, name = dot ∨ name = dotDot ∨ name ∈ fs.names root)
    (h : Progress fs root new done s.files) (hfilled : Filled fs root new done s.files) :
    Filled fs root new (done ++ names)
      (names.foldl (reverseEntry env (reverseFiles env n) n src dst) s).files := by
  induction names generalizing done s with
  | nil => rwa [List.append_nil]
  | cons name names ih =>
      rw [List.append_cons] at hnodup ⊢
      have hnot : name ∉ done := by
        intro hdone
        have hdisjoint := (List.nodup_append.mp (List.nodup_append.mp hnodup).1).2.2
        exact hdisjoint name hdone name (List.mem_singleton_self name) rfl
      have hnext := reverseEntry_progress hallows (reverseFiles_copies hallows hlists n) hready h
        hnot (hnames name List.mem_cons_self)
      refine ih hnodup (fun other hother => hnames other (List.mem_cons_of_mem name hother)) hnext ?_
      cases hi : fs.entry root name with
      | some i =>
          obtain ⟨child, mid, hcreated, hspares, hturned⟩ :=
            reverseEntry_made hallows hlists hsub hready h hnot hi
          exact hfilled.step h hnot hi hcreated hspares hturned
      | none =>
          -- Only `.` and `..` are no entries, and they are passed over.
          have hdots : name = dot ∨ name = dotDot := by
            rcases hnames name List.mem_cons_self with hdot | hdotDot | hmem
            · exact .inl hdot
            · exact .inr hdotDot
            · obtain ⟨p, es, i, hnode, hlookup⟩ := FileSystem.mem_names_iff.mp hmem
              rw [FileSystem.entry_eq_some_iff.mpr ⟨p, es, hnode, hlookup⟩] at hi
              cases hi
          rw [reverseEntry, if_pos hdots]
          intro other hother a b ha
          rcases List.mem_append.mp hother with hdone | hlast
          · exact hfilled other hdone a b ha
          · obtain rfl := List.mem_singleton.mp hlast
            rw [hi] at ha
            cases ha

theorem reverseFiles_turned (hallows : ∀ call, env.refuses call = false)
    (hlists : env.ListsAll) : ∀ n, TurnedBelow env n
  | 0, s, src, dst, root, new, hready => absurd (hready.tree.dir [] root rfl hready.isDir) (by simp)
  | n + 1, s, src, dst, root, new, hready => by
      have hopen : s.opendir env (n + 1) src = (some root, s.after s.files) :=
        System.opendir_eq (hallows _) (by omega) hready.source hready.isDir
      unfold reverseFiles
      rw [hopen]
      have hdone := loop_filled hallows hlists (reverseFiles_turned hallows hlists n) hready
        (s := s.after s.files) (nodup_listing hlists (s.calls + 1) s.files root)
        (fun name hname => by simpa using (hlists (s.calls + 1) s.files root).subset hname)
        (progress_nil hready) fun _ hname => (List.not_mem_nil hname).elim
      intro names k l hk hl hfile
      cases names with
      | nil =>
          obtain rfl := Option.some.inj hk
          simpa [FileSystem.isDir_of_isFile hfile] using hready.isDir
      | cons name names =>
          obtain ⟨i, hi, hrest⟩ := Option.bind_eq_some_iff.mp hk
          obtain ⟨j, hj, hbelow⟩ := Option.bind_eq_some_iff.mp hl
          obtain ⟨p, es, hnode, hlookup⟩ := FileSystem.entry_eq_some_iff.mp hi
          have hlisted := (hlists (s.calls + 1) s.files root).symm.subset
            (List.mem_cons_of_mem _ (List.mem_cons_of_mem _
              (FileSystem.mem_names_iff.mpr ⟨p, es, i, hnode, hlookup⟩)))
          exact hdone name hlisted i j hi hj names k l hrest hbelow hfile

/-! ### The whole run -/

/-- The copy of a node is found under its mirrored path. -/
theorem find_copy (hlen : dst.length = src.length) (hdst : dst ≠ [])
    (htree : SourceTree n fs src root) (hdest : last.find dst = some new)
    (hcopies : Copies createReverseName fs root last new)
    (hj : last.descend new names = some j) : last.find (pathBelow dst names) = some j := by
  refine FileSystem.find_pathBelow hdest (fun names j hj => ?_) (fun names j hj => ?_) hj
  · obtain ⟨i, hi, hkind⟩ := hcopies.exists_original createReverseName_twice hj
    obtain ⟨hfile, hdir⟩ := Prod.mk.inj hkind
    rw [← hfile, ← hdir]
    exact htree.plain _ i hi
  · obtain ⟨i, hi, -⟩ := hcopies.exists_original createReverseName_twice hj
    have hshort := htree.short _ i hi
    rw [← length_reversed hlen, map_createReverseName_twice] at hshort
    exact isPath_pathBelow hdst hshort

/-- When no call fails, every file of the directory has its turned copy at the mirrored path
when the program returns. -/
theorem main_turns (hallows : ∀ call, env.refuses call = false) (hlists : env.ListsAll)
    (hname : IsName name) (hreal : env.realpath s.files path = some (parent ++ slash :: name))
    (hfind : s.files.find (parent ++ slash :: name) = some root)
    (hdir : s.files.isDir root = true)
    (htree : SourceTree n s.files (parent ++ slash :: name) root)
    (hplace : s.files.place (parent ++ slash :: name) = some (d, name))
    (hfree : s.files.entry d (createReverseName name) = none) :
    ∃ t, main env n s [path] = (success, t) ∧
      ∀ names i, s.files.descend root names = some i → s.files.isFile i = true →
        ∃ j, t.files.find (pathBelow (parent ++ slash :: createReverseName name)
            (names.map createReverseName)) = some j ∧
          t.files.content j = turned (s.files.content i) := by
  have hreversed := isName_createReverseName hname
  have hplace' := place_reversed hname hplace
  have hd : s.files.isDir d = true := by
    obtain ⟨p, es, -, -, hnode, -⟩ := FileSystem.entry_of_find hplace hfind
    exact FileSystem.isDir_iff.mpr ⟨p, es, hnode⟩
  -- `realpath` and `malloc` come before the directory is made.
  have hrealpath : s.realpath env path = (some (parent ++ slash :: name), s.after s.files) := by
    simp [System.realpath, hallows, hreal]
  have hmalloc : (s.after s.files).malloc env = (true, (s.after s.files).after s.files) :=
    System.malloc_eq (hallows _)
  obtain ⟨mid, hmade, (hcreated : s.files.Created d (createReverseName name) (.dir d []) mid)⟩ :=
    createReverseDir_of_free (n := n) (s := (s.after s.files).after s.files) hallows hreversed
      hplace' hd hfree
  have hreverseDir : reverseDir env n (s.after s.files) (parent ++ slash :: name) =
      (some (parent ++ slash :: createReverseName name), ⟨mid, s.calls + 4⟩) := by
    rw [reverseDir, hmalloc, reversedPathOf_slash parent hname.2.1]
    dsimp only
    rw [hmade]
    rfl
  have hne : ∀ names i, s.files.descend root names = some i → i ≠ d :=
    fun names i hi => ne_of_descend htree hfind hdir hplace hi
  have hlen : (parent ++ slash :: createReverseName name).length =
      (parent ++ slash :: name).length := by
    simp [createReverseName]
  have hdest := (FileSystem.find_mkdir hplace' hcreated).1
  obtain ⟨hready, hsame⟩ := ready_of_created hfind hdir htree hlen hne hcreated hdest
  obtain ⟨hsuccess, hspares, hcopies⟩ :=
    reverseFiles_copies hallows hlists n ⟨mid, s.calls + 4⟩ _ _ _ _ hready
  have hturned := reverseFiles_turned hallows hlists n ⟨mid, s.calls + 4⟩ _ _ _ _ hready
  obtain ⟨last, hlast⟩ : ∃ last, last = reverseFiles env n ⟨mid, s.calls + 4⟩
    (parent ++ slash :: name) (parent ++ slash :: createReverseName name) := ⟨_, rfl⟩
  rw [← hlast] at hsuccess hspares hcopies hturned
  refine ⟨last.2, ?_, fun names i hi hfile => ?_⟩
  · simp only [main, hrealpath, hreverseDir, ← hlast, hsuccess]
    simp
  · have hcopies := hcopies.congr hsame fun _ _ _ => rfl
    obtain ⟨j, hj, -⟩ := hcopies.exists_copy hi
    refine ⟨j, ?_, hturned.congr hsame (fun _ _ _ => rfl) names i j hi hj hfile⟩
    exact find_copy hlen (by simp) htree (hspares.within.find hdest) hcopies hj

/-- The directory `/ab` with a file `c` of three bytes and a file `d` of two. -/
def twoFiles : System where
  files := .ofList [.dir 0 [([97, 98], 1)], .dir 0 [([99], 2), ([100], 3)],
    .file [120, 121, 122], .file [120, 121]] (by decide)
  calls := 0

theorem sourceTree_twoFiles : SourceTree 4 twoFiles.files [47, 97, 98] 1 := by
  refine .of_entries (by decide) (by decide) fun name i hi => ?_
  obtain ⟨p, es, hnode, hlookup⟩ := FileSystem.entry_eq_some_iff.mp hi
  obtain ⟨-, rfl⟩ : p = 0 ∧ es = [([99], 2), ([100], 3)] := by
    obtain ⟨hp, hes⟩ := Node.dir.inj (Option.some.inj (hnode.symm.trans rfl))
    exact ⟨hp, hes⟩
  have hmem := mem_of_lookup hlookup
  simp only [List.mem_cons, Prod.mk.injEq, List.not_mem_nil, or_false] at hmem
  obtain ⟨rfl, rfl⟩ | ⟨rfl, rfl⟩ := hmem
  · exact .of_file (by decide) (by decide) (by decide)
  · exact .of_file (by decide) (by decide) (by decide)

/-- The copy of `c` has the bytes in reverse order, and that of `d` is empty. -/
theorem main_turns_twoFiles : ∃ t, main Env.plain 4 twoFiles [[47, 97, 98]] = (success, t) ∧
    (∃ j, t.files.find [47, 98, 97, 47, 99] = some j ∧ t.files.content j = [122, 121, 120]) ∧
    ∃ j, t.files.find [47, 98, 97, 47, 100] = some j ∧ t.files.content j = [] := by
  obtain ⟨t, hmain, hturned⟩ :=
    @main_turns Env.plain 4 1 0 twoFiles [47, 97, 98] [97, 98] [] (fun _ => rfl)
      (fun _ _ _ => List.Perm.refl _) (by decide) (by decide +kernel) (by decide +kernel)
      (by decide) sourceTree_twoFiles (by decide +kernel) (by decide)
  exact ⟨t, hmain, hturned [[99]] 2 (by decide) (by decide),
    hturned [[100]] 3 (by decide) (by decide)⟩

end DirReverser
end OperatingSystems
