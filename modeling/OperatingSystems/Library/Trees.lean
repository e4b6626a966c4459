import OperatingSystems.Library.NewNodes

/-!
# Trees of files and directories

* `FileSystem.descend` — the node that a list of names leads to, from one directory to the next.
* `pathBelow`, `FileSystem.find_pathBelow` — the path of this node.
* `Copies` — one tree is a copy of another, with other names; `Copies.of_entries` puts it together
  from the copies of the entries.
-/

namespace OperatingSystems
namespace Files

variable {fs fs' : FileSystem} {first i j k : Nat} {path path' name : List Byte}
  {names names' : List (List Byte)}

namespace FileSystem

/-- The node that the names lead to from node `i` on, not through links. -/
def descend (fs : FileSystem) : Nat → List (List Byte) → Option Nat
  | i, [] => some i
  | i, name :: names => (fs.entry i name).bind fun j => descend fs j names

/-- Whether node `i` is a regular file, and whether it is a directory. -/
def kind (fs : FileSystem) (i : Nat) : Bool × Bool :=
  (fs.isFile i, fs.isDir i)

theorem descend_entry (h : fs.entry i name = some j) (names : List (List Byte)) :
    fs.descend i (name :: names) = fs.descend j names := by
  rw [descend, h]
  rfl

theorem descend_append (i : Nat) (names names' : List (List Byte)) :
    fs.descend i (names ++ names') = (fs.descend i names).bind fun j => fs.descend j names' := by
  induction names generalizing i with
  | nil => rfl
  | cons name names ih =>
      rw [List.cons_append, descend, descend, Option.bind_assoc]
      congr 1
      funext j
      exact ih j

theorem descend_concat (h : fs.descend i names = some j) (hk : fs.entry j name = some k) :
    fs.descend i (names ++ [name]) = some k := by
  rw [descend_append, h, Option.bind_some, descend_entry hk]
  rfl

/-- The tree below node `i` stays when all its nodes do. -/
theorem descend_congr (h : ∀ names j, fs.descend i names = some j → fs'.node j = fs.node j) :
    ∀ names, fs'.descend i names = fs.descend i names := by
  intro names
  induction names generalizing i with
  | nil => rfl
  | cons name names ih =>
      have hentry : fs'.entry i name = fs.entry i name := by
        unfold entry
        rw [h [] i rfl]
      rw [descend, descend, hentry]
      cases hj : fs.entry i name with
      | none => rfl
      | some j =>
          exact ih fun names k hk => h (name :: names) k ((descend_entry hj names).trans hk)

theorem entry_eq_none_of_isDir (h : fs.isDir i = false) (name : List Byte) :
    fs.entry i name = none := by
  cases hj : fs.entry i name with
  | none => rfl
  | some j =>
      obtain ⟨p, es, hi, -⟩ := entry_eq_some_iff.mp hj
      rw [isDir_iff.mpr ⟨p, es, hi⟩] at h
      cases h

theorem entry_remove (fs : FileSystem) (i : Nat) (name : List Byte) (j : Nat)
    (other : List Byte) :
    (fs.remove i name).entry j other =
      if j = i ∧ other = name then none else fs.entry j other := by
  unfold entry
  rw [node_remove]
  by_cases hji : j = i
  · subst hji
    rw [if_pos rfl]
    cases hnode : fs.node j with
    | none => simp
    | some n =>
        cases n with
        | dir p es =>
            have hlookup := lookup_remove es name other
            simp only [ne_eq, decide_not] at hlookup
            simp [Node.remove, hlookup]
        | _ => simp [Node.remove]
  · simp [hji]

/-- A directory is an entry of one directory only. -/
theorem parent_unique (hdir : fs.isDir k = true) {name' : List Byte}
    (hi : fs.entry i name = some k) (hj : fs.entry j name' = some k) : i = j := by
  obtain ⟨p, es, hk⟩ := isDir_iff.mp hdir
  obtain ⟨q, more, hnode, hlookup⟩ := entry_eq_some_iff.mp hi
  obtain ⟨q', more', hnode', hlookup'⟩ := entry_eq_some_iff.mp hj
  exact ((fs.entries i q more hnode).parent _ (mem_of_lookup hlookup) p es hk).symm.trans
    ((fs.entries j q' more' hnode').parent _ (mem_of_lookup hlookup') p es hk)

theorem isName_of_entry (h : fs.entry i name = some j) : IsName name := by
  obtain ⟨p, es, hi, hj⟩ := entry_eq_some_iff.mp h
  exact (fs.entries i p es hi).isName _ (mem_of_lookup hj)

theorem entry_dots (h : name = dot ∨ name = dotDot) (fs : FileSystem) (i : Nat) :
    fs.entry i name = none := by
  cases hj : fs.entry i name with
  | none => rfl
  | some j =>
      have hdots := (isName_of_entry hj).2.2
      tauto

theorem lt_fresh_of_entry (h : fs.entry i name = some j) : j < fs.fresh := by
  obtain ⟨p, es, hi, hj⟩ := entry_eq_some_iff.mp h
  obtain ⟨n, hn⟩ := Option.isSome_iff_exists.mp ((fs.entries i p es hi).isSome _ (mem_of_lookup hj))
  exact lt_fresh hn

theorem lt_fresh_of_descend (hi : i < fs.fresh) (h : fs.descend i names = some j) :
    j < fs.fresh := by
  induction names generalizing i with
  | nil =>
      obtain rfl := Option.some.inj h
      exact hi
  | cons name names ih =>
      obtain ⟨k, hk, hj⟩ := Option.bind_eq_some_iff.mp h
      exact ih (lt_fresh_of_entry hk) hj

theorem isName_of_descend (h : fs.descend i names = some j) : ∀ name ∈ names, IsName name := by
  induction names generalizing i with
  | nil => simp
  | cons name names ih =>
      obtain ⟨k, hk, hj⟩ := Option.bind_eq_some_iff.mp h
      intro other hother
      rcases List.mem_cons.mp hother with rfl | hother
      · exact isName_of_entry hk
      · exact ih hj other hother

theorem isFile_iff : fs.isFile i = true ↔ ∃ bytes, fs.node i = some (.file bytes) := by
  unfold isFile
  split
  case h_1 bytes hi => simp [hi]
  case h_2 hno =>
      constructor
      · intro h
        cases h
      · rintro ⟨bytes, hi⟩
        exact absurd hi (hno bytes)

theorem isDir_of_isFile (h : fs.isFile i = true) : fs.isDir i = false := by
  obtain ⟨bytes, hi⟩ := isFile_iff.mp h
  simp [isDir, hi]

theorem Within.isFile (h : fs.Within fs') (hi : fs.isFile i = true) : fs'.isFile i = true := by
  obtain ⟨bytes, hnode⟩ := isFile_iff.mp hi
  obtain ⟨n', hn', hwithin⟩ := h.node i _ hnode
  cases hwithin with
  | file _ bytes' => exact isFile_iff.mpr ⟨bytes', hn'⟩

theorem isEmptyDir_of_names (hdir : fs.isDir i = true) (h : ∀ name, name ∉ fs.names i) :
    fs.isEmptyDir i = true := by
  obtain ⟨p, es, hi⟩ := isDir_iff.mp hdir
  cases es with
  | nil => exact isEmptyDir_iff.mpr ⟨p, hi⟩
  | cons e es =>
      have hmem : e.1 ∈ fs.names i := by
        rw [names, hi]
        exact List.mem_cons_self
      exact absurd hmem (h e.1)

theorem Within.entry_eq_none (h : fs.Within fs') (hnone : fs'.entry i name = none) :
    fs.entry i name = none := by
  cases hj : fs.entry i name with
  | none => rfl
  | some j =>
      rw [h.entry hj] at hnone
      cases hnone

theorem kind_congr (h : fs'.node i = fs.node i) : fs'.kind i = fs.kind i := by
  simp only [kind, FileSystem.isFile, isDir, h]

/-! ### A name behind a path -/

theorem walk_prefix {links : Nat} (h : fs.walk links i names = some (.node j)) :
    ∃ m, ∀ more, fs.walk links i (names ++ more) = fs.walk m j more := by
  have hwalk := h
  rw [← List.append_nil names] at hwalk
  obtain ⟨k, m, -, hk, hmore⟩ := walk_append hwalk
  obtain rfl : j = k := by simpa using h.symm.trans hk
  exact ⟨m, hmore⟩

/-- A directory is found also with a slash behind its path. -/
theorem find_dir_slash (hi : fs.find path = some i) (hdir : fs.isDir i = true)
    (hlen : path.length + 1 < pathMax) : fs.find (path ++ [slash]) = some i := by
  obtain ⟨hpath, -⟩ := find_eq_some_iff.mp hi
  obtain ⟨m, hmore⟩ := walk_prefix (walk_components hi)
  have hnil : slash ∉ ([] : List Byte) := List.not_mem_nil
  rw [find_eq_some_iff, steps, components_slash hnil, if_pos rfl, List.append_nil,
    endsInSlash_slash hnil, startIn_append (ne_nil_of_isPath hpath)]
  refine ⟨?_, (hmore [dot]).trans (walk_dot.mpr ⟨rfl, hdir⟩)⟩
  simpa [isPath] using hlen

theorem place_dots (hdots : name = dot ∨ name = dotDot) (path : List Byte) :
    fs.place (path ++ slash :: name) = none := by
  have hslash : slash ∉ name := by
    rcases hdots with rfl | rfl <;> decide
  have hnil : name ≠ [] := by
    rcases hdots with rfl | rfl <;> decide
  rw [place, components_slash hslash, if_neg hnil, List.getLast?_concat]
  simp [hdots]

/-- A path to an entry is about the directory that its first part leads to, in any file system that
has as much. -/
theorem place_behind {last : List Byte} (hname : IsName name)
    (hplace : fs.place (path ++ slash :: name) = some (j, last)) (hwithin : fs.Within fs')
    (hi : fs'.find path = some i) : j = i ∧ last = name := by
  obtain ⟨-, hlast, -, hwalk⟩ := place_eq_some_iff.mp hplace
  have hne := ne_nil_of_isPath (find_eq_some_iff.mp hi).1
  rw [components_slash hname.2.1, if_neg hname.1, List.getLast?_concat, Option.some.injEq] at hlast
  rw [components_slash hname.2.1, if_neg hname.1, List.dropLast_concat, startIn_append hne,
    hwithin.startIn, hwithin.cwd] at hwalk
  have hsame := (hwithin.walk hwalk).symm.trans (walk_components hi)
  exact ⟨by simpa using hsame, hlast.symm⟩

theorem exists_place_of_find (hname : IsName name) (hk : fs.find (path ++ slash :: name) = some k) :
    ∃ j, fs.place (path ++ slash :: name) = some (j, name) := by
  obtain ⟨hpath, hwalk⟩ := find_eq_some_iff.mp hk
  rw [steps, components_slash hname.2.1, endsInSlash_slash hname.2.1, if_neg hname.1,
    decide_eq_false hname.1, if_neg Bool.false_ne_true, List.append_nil] at hwalk
  obtain ⟨j, -, -, hj, -⟩ := walk_append hwalk
  refine ⟨j, place_eq_some_iff.mpr ⟨hpath, ?_, hname.2.2, ?_⟩⟩
  · rw [components_slash hname.2.1, if_neg hname.1, List.getLast?_concat]
  · rw [components_slash hname.2.1, if_neg hname.1, List.dropLast_concat]
    exact hj

/-! ### Paths in a tree -/

/-- An entry that is no link is found behind the path of its directory. -/
theorem find_slash (hi : fs.find path = some i) (hj : fs.entry i name = some j)
    (hkind : fs.isFile j = true ∨ fs.isDir j = true)
    (hpath : isPath (path ++ slash :: name) = true) : fs.find (path ++ slash :: name) = some j := by
  have hname := isName_of_entry hj
  obtain ⟨p, es, hnode, hlookup⟩ := entry_eq_some_iff.mp hj
  obtain ⟨links, hresolve⟩ := resolve_of_place (place_append hi hname hpath)
  obtain ⟨n, hn, hlink⟩ : ∃ n, fs.node j = some n ∧ ∀ target, n ≠ .link target := by
    rcases hkind with hfile | hdir
    · obtain ⟨bytes, hn⟩ := isFile_iff.mp hfile
      exact ⟨_, hn, by simp⟩
    · obtain ⟨q, more, hn⟩ := isDir_iff.mp hdir
      exact ⟨_, hn, by simp⟩
  rw [endsInSlash_slash hname.2.1, (walk_name links hnode hname.2.2).2 j n hlookup hn hlink]
    at hresolve
  simp only [hname.1, decide_false, Bool.false_eq_true, if_false, walk_nil] at hresolve
  rw [find, hresolve]

theorem isPath_slash (h : (path ++ slash :: name).length < pathMax) :
    isPath (path ++ slash :: name) = true := by
  have hne : path ++ slash :: name ≠ [] := by simp
  rw [isPath, decide_eq_true hne, decide_eq_true h, Bool.and_self]

end FileSystem

/-- The path with these names behind it. -/
def pathBelow (path : List Byte) (names : List (List Byte)) : List Byte :=
  names.foldl (fun p name => p ++ slash :: name) path

theorem pathBelow_concat (path : List Byte) (names : List (List Byte)) (name : List Byte) :
    pathBelow path (names ++ [name]) = pathBelow path names ++ slash :: name :=
  List.foldl_concat ..

theorem isPath_pathBelow (hne : path ≠ []) (h : (pathBelow path names).length < pathMax) :
    FileSystem.isPath (pathBelow path names) = true := by
  rcases List.eq_nil_or_concat' names with rfl | ⟨front, name, rfl⟩
  · rw [FileSystem.isPath, decide_eq_true h, Bool.and_true]
    exact decide_eq_true hne
  · rw [pathBelow_concat] at h ⊢
    exact FileSystem.isPath_slash h

theorem components_pathBelow (h : ∀ name ∈ names, IsName name) (path : List Byte) :
    components (pathBelow path names) = components path ++ names := by
  induction names generalizing path with
  | nil => exact (List.append_nil _).symm
  | cons name names ih =>
      have hname := h name List.mem_cons_self
      rw [pathBelow, List.foldl_cons]
      refine (ih (fun other hother => h other (List.mem_cons_of_mem name hother)) _).trans ?_
      rw [components_slash hname.2.1, if_neg hname.1, List.append_assoc]
      rfl

/-- Different names make different paths. -/
theorem pathBelow_inj (h : ∀ name ∈ names, IsName name) (h' : ∀ name ∈ names', IsName name)
    (heq : pathBelow path names = pathBelow path names') : names = names' := by
  have hcomponents := congrArg components heq
  rw [components_pathBelow h, components_pathBelow h'] at hcomponents
  exact List.append_cancel_left hcomponents

theorem length_pathBelow_map {rename : List Byte → List Byte}
    (hrename : ∀ name, (rename name).length = name.length) (hlen : path'.length = path.length)
    (names : List (List Byte)) :
    (pathBelow path' (names.map rename)).length = (pathBelow path names).length := by
  induction names generalizing path path' with
  | nil => exact hlen
  | cons name names ih =>
      apply ih
      rw [List.length_append, List.length_append, List.length_cons, List.length_cons, hrename,
        hlen]

/-- Every node of a tree of files and directories is found under its path. -/
theorem FileSystem.find_pathBelow (hi : fs.find path = some i)
    (hkind : ∀ names j, fs.descend i names = some j → fs.isFile j = true ∨ fs.isDir j = true)
    (hpath : ∀ names j, fs.descend i names = some j → isPath (pathBelow path names) = true)
    (hj : fs.descend i names = some j) : fs.find (pathBelow path names) = some j := by
  induction names generalizing path i with
  | nil => exact hi.trans hj
  | cons name names ih =>
      obtain ⟨k, hk, hrest⟩ := Option.bind_eq_some_iff.mp hj
      have hstep := descend_entry hk
      apply ih _ _ _ hrest
      · exact find_slash hi hk (hkind [name] k (hstep [])) (hpath [name] k (hstep []))
      · exact fun names j hj => hkind (name :: names) j ((hstep names).trans hj)
      · exact fun names j hj => hpath (name :: names) j ((hstep names).trans hj)

/-- The paths of the tree below node `i`, and of what kind each is. -/
def pathsBelow (fs : FileSystem) (path : List Byte) (i : Nat) : Set (List Byte × (Bool × Bool)) :=
  {p | ∃ names j, fs.descend i names = some j ∧ p = (pathBelow path names, fs.kind j)}

/-- Nothing is found below a path that leads nowhere. -/
theorem FileSystem.find_pathBelow_none (hnone : fs.find path = none)
    (hslash : endsInSlash path = false) (hne : path ≠ []) (hnames : ∀ name ∈ names, IsName name) :
    fs.find (pathBelow path names) = none := by
  induction names generalizing path with
  | nil => exact hnone
  | cons name names ih =>
      have hname := hnames name List.mem_cons_self
      apply ih
      · cases hk : fs.find (path ++ slash :: name) with
        | none => rfl
        | some k =>
            obtain ⟨hpath, hwalk⟩ := find_eq_some_iff.mp hk
            rw [steps, components_slash hname.2.1, endsInSlash_slash hname.2.1, if_neg hname.1,
              decide_eq_false hname.1, if_neg Bool.false_ne_true, List.append_nil,
              startIn_append hne] at hwalk
            obtain ⟨d, -, -, hd, -⟩ := walk_append hwalk
            -- the shorter path leads to the node on the way
            have hshort : isPath path = true := by
              have hlt := lt_of_isPath hpath
              rw [List.length_append] at hlt
              simp only [isPath, hne, ne_eq, not_false_eq_true, decide_true, Bool.true_and,
                decide_eq_true_eq]
              omega
            have hfound : fs.find path = some d := find_eq_some_iff.mpr
              ⟨hshort, by rwa [steps, hslash, if_neg Bool.false_ne_true, List.append_nil]⟩
            rw [hnone] at hfound
            cases hfound
      · rw [endsInSlash_slash hname.2.1]
        exact decide_eq_false hname.1
      · simp
      · exact fun other hother => hnames other (List.mem_cons_of_mem name hother)

/-! ### Copies -/

/-- The tree below `j` is that below `i`, under other names. -/
def Copies (rename : List Byte → List Byte) (fs : FileSystem) (i : Nat) (fs' : FileSystem)
    (j : Nat) : Prop :=
  ∀ names, (fs'.descend j (names.map rename)).map fs'.kind = (fs.descend i names).map fs.kind

section Copies

variable {rename : List Byte → List Byte} {old new : FileSystem}

theorem Copies.of_entries (hkind : fs'.kind j = fs.kind i)
    (h : ∀ name, Option.Rel (fun a b => Copies rename fs a fs' b) (fs.entry i name)
      (fs'.entry j (rename name))) : Copies rename fs i fs' j := by
  intro names
  cases names with
  | nil => exact congrArg some hkind
  | cons name names =>
      have hrel := h name
      rw [List.map_cons, FileSystem.descend, FileSystem.descend]
      generalize fs.entry i name = a, fs'.entry j (rename name) = b at hrel
      cases hrel with
      | some hcopies => exact hcopies names
      | none => rfl

/-- Every name leads to the same kind of node on both sides. -/
theorem Copies.exists_copy (h : Copies rename fs i fs' j) (hk : fs.descend i names = some k) :
    ∃ l, fs'.descend j (names.map rename) = some l ∧ fs'.kind l = fs.kind k := by
  have hsame := h names
  rw [hk, Option.map_some] at hsame
  exact Option.map_eq_some_iff.mp hsame

/-- When a second renaming undoes the first, nothing else is in the copy. -/
theorem Copies.exists_original {back : List Byte → List Byte} (h : Copies rename fs i fs' j)
    (hback : ∀ name, rename (back name) = name) (hk : fs'.descend j names = some k) :
    ∃ l, fs.descend i (names.map back) = some l ∧ fs.kind l = fs'.kind k := by
  have hnames : (names.map back).map rename = names := by
    rw [List.map_map]
    exact (List.map_congr_left fun name _ => hback name).trans (List.map_id names)
  have hsame := h (names.map back)
  rw [hnames, hk, Option.map_some] at hsame
  exact Option.map_eq_some_iff.mp hsame.symm

/-- A file is the copy of a file. -/
theorem Copies.of_isFile (hi : fs.isFile i = true) (hj : fs'.isFile j = true) :
    Copies rename fs i fs' j := by
  have hidir := FileSystem.isDir_of_isFile hi
  have hjdir := FileSystem.isDir_of_isFile hj
  refine .of_entries (by rw [FileSystem.kind, FileSystem.kind, hi, hj, hidir, hjdir]) ?_
  intro name
  rw [FileSystem.entry_eq_none_of_isDir hidir, FileSystem.entry_eq_none_of_isDir hjdir]
  exact .none

/-- Both trees may change elsewhere. -/
theorem Copies.congr (h : Copies rename fs i fs' j)
    (hold : ∀ names k, old.descend i names = some k → fs.node k = old.node k)
    (hnew : ∀ names k, fs'.descend j names = some k → new.node k = fs'.node k) :
    Copies rename old i new j := by
  intro names
  have hkind : ∀ {a b : FileSystem} {l : Nat} {names : List (List Byte)},
      (∀ k, a.descend l names = some k → b.node k = a.node k) →
      (a.descend l names).map b.kind = (a.descend l names).map a.kind := by
    intro a b l names hnode
    cases hk : a.descend l names with
    | none => rfl
    | some k => exact congrArg some (FileSystem.kind_congr (hnode k hk))
  have hsame := h names
  rw [FileSystem.descend_congr hold, hkind fun k hk => hold names k hk] at hsame
  rw [FileSystem.descend_congr hnew, hkind fun k hk => hnew _ k hk, hsame]

end Copies

/-! ### New trees -/

/-- Nothing but new nodes is below a new node. -/
theorem NewFrom.descend (h : NewFrom first fs) (hi : first ≤ i)
    (hj : fs.descend i names = some j) : first ≤ j := by
  induction names generalizing i with
  | nil =>
      obtain rfl := Option.some.inj hj
      exact hi
  | cons name names ih =>
      obtain ⟨k, hk, hrest⟩ := Option.bind_eq_some_iff.mp hj
      obtain ⟨p, es, hnode, hlookup⟩ := FileSystem.entry_eq_some_iff.mp hk
      exact ih (FileSystem.entry_new h hi hnode hlookup).1 hrest

end Files
end OperatingSystems
