import OperatingSystems.Library.FileSystem

/-!
# What paths find

The resolution of a path goes on from where the resolution of its first names ended, and it finds
the same in a file system that has more.

* `FileSystem.walk_append` — a walk to a node is a walk to a node on the way, and one from there.
* `FileSystem.place_append` — the place of a name that is put behind a path to a directory.
* `FileSystem.Within`, `FileSystem.Within.find`, `FileSystem.Within.place` — a file system that is
  within another finds nothing that the other does not find.
-/

namespace OperatingSystems
namespace Files

/-! ### The names in a path -/

theorem components_slash {path name : List Byte} (hname : slash ∉ name) :
    components (path ++ slash :: name) = components path ++ if name = [] then [] else [name] := by
  rw [components, List.splitOn_append_cons_self, List.splitOn_eq_singleton hname,
    List.filter_append, components]
  by_cases hnil : name = [] <;> simp [hnil]

theorem endsInSlash_slash {path name : List Byte} (hname : slash ∉ name) :
    endsInSlash (path ++ slash :: name) = decide (name = []) := by
  have hcons : path ++ slash :: name = (path ++ [slash]) ++ name := by simp
  rw [endsInSlash, hcons]
  cases hnil : name.getLast? with
  | none =>
      obtain rfl := List.getLast?_eq_none_iff.mp hnil
      simp
  | some b =>
      have hb : b ∈ name := List.mem_of_getLast? hnil
      have hne : name ≠ [] := List.ne_nil_of_mem hb
      have hslash : b ≠ slash := fun heq => hname (heq ▸ hb)
      rw [List.getLast?_append, hnil]
      simp [hne, hslash]

namespace FileSystem

variable {fs : FileSystem}

theorem isDir_iff {i : Nat} : fs.isDir i = true ↔ ∃ p es, fs.node i = some (.dir p es) := by
  unfold isDir
  split
  case h_1 p es hi => simp [hi]
  case h_2 hno =>
    constructor
    · intro h
      cases h
    · rintro ⟨p, es, hi⟩
      exact absurd hi (hno p es)

theorem isEmptyDir_iff {i : Nat} :
    fs.isEmptyDir i = true ↔ ∃ p, fs.node i = some (.dir p []) := by
  unfold isEmptyDir
  split
  case h_1 p hi => simp [hi]
  case h_2 hno =>
    constructor
    · intro h
      cases h
    · rintro ⟨p, hi⟩
      exact absurd hi (hno p)

theorem entry_eq_some_iff {d j : Nat} {name : List Byte} :
    fs.entry d name = some j ↔ ∃ p es, fs.node d = some (.dir p es) ∧ lookup es name = some j := by
  unfold entry
  split
  case h_1 p es hd =>
    rw [hd]
    constructor
    · intro h
      exact ⟨p, es, rfl, h⟩
    · rintro ⟨q, more, hnode, hj⟩
      obtain ⟨-, rfl⟩ := Node.dir.inj (Option.some.inj hnode)
      exact hj
  case h_2 hno =>
    constructor
    · intro h
      cases h
    · rintro ⟨p, es, hd, -⟩
      exact absurd hd (hno p es)

theorem startIn_append {i : Nat} {path more : List Byte} (hne : path ≠ []) :
    fs.startIn i (path ++ more) = fs.startIn i path := by
  cases path with
  | nil => exact absurd rfl hne
  | cons b path => rfl

/-! ### Walks -/

/-- The first step of a walk to node `k`: to the directory itself, to its parent, through a link, or
to an entry that is no link. -/
inductive FirstStep (fs : FileSystem) (follow : Nat → List (List Byte) → Option Found)
    (i : Nat) (names : List (List Byte)) (k : Nat) : List Byte → Prop
  | here {p : Nat} {es : List (List Byte × Nat)} (hi : fs.node i = some (.dir p es))
      (hrest : fs.walkFrom follow i names = some (.node k)) : FirstStep fs follow i names k dot
  | up {p : Nat} {es : List (List Byte × Nat)} (hi : fs.node i = some (.dir p es))
      (hrest : fs.walkFrom follow p names = some (.node k)) : FirstStep fs follow i names k dotDot
  | link {p j : Nat} {es : List (List Byte × Nat)} {name target : List Byte}
      (hi : fs.node i = some (.dir p es)) (hname : name ≠ dot ∧ name ≠ dotDot)
      (hj : lookup es name = some j) (hlink : fs.node j = some (.link target))
      (hrest : follow (fs.startIn i target) (steps target ++ names) = some (.node k)) :
      FirstStep fs follow i names k name
  | entry {p j : Nat} {es : List (List Byte × Nat)} {name : List Byte} {n : Node}
      (hi : fs.node i = some (.dir p es)) (hname : name ≠ dot ∧ name ≠ dotDot)
      (hj : lookup es name = some j) (hn : fs.node j = some n) (hlink : ∀ target, n ≠ .link target)
      (hrest : fs.walkFrom follow j names = some (.node k)) : FirstStep fs follow i names k name

section Walks

variable {follow : Nat → List (List Byte) → Option Found} {i j k p : Nat}
  {es : List (List Byte × Nat)} {name : List Byte} {names more : List (List Byte)}

theorem walkFrom_nil : fs.walkFrom follow i [] = some (.node i) := rfl

theorem walkFrom_dot (hi : fs.node i = some (.dir p es)) :
    fs.walkFrom follow i (dot :: names) = fs.walkFrom follow i names := by
  simp only [walkFrom, hi, if_pos]

theorem walkFrom_dotDot (hi : fs.node i = some (.dir p es)) :
    fs.walkFrom follow i (dotDot :: names) = fs.walkFrom follow p names := by
  have hne : dotDot ≠ dot := by decide
  simp only [walkFrom, hi, if_neg hne, if_pos]

theorem walkFrom_missing (hi : fs.node i = some (.dir p es)) (hname : name ≠ dot ∧ name ≠ dotDot)
    (hfree : lookup es name = none) :
    fs.walkFrom follow i (name :: names) =
      if names = [] then some (.missing i name) else none := by
  simp only [walkFrom, hi, if_neg hname.1, if_neg hname.2, hfree]

theorem walkFrom_link {target : List Byte} (hi : fs.node i = some (.dir p es))
    (hname : name ≠ dot ∧ name ≠ dotDot) (hj : lookup es name = some j)
    (hlink : fs.node j = some (.link target)) :
    fs.walkFrom follow i (name :: names) =
      follow (fs.startIn i target) (steps target ++ names) := by
  simp only [walkFrom, hi, if_neg hname.1, if_neg hname.2, hj, hlink]

theorem walkFrom_entry {n : Node} (hi : fs.node i = some (.dir p es))
    (hname : name ≠ dot ∧ name ≠ dotDot) (hj : lookup es name = some j)
    (hn : fs.node j = some n) (hlink : ∀ target, n ≠ .link target) :
    fs.walkFrom follow i (name :: names) = fs.walkFrom follow j names := by
  cases n with
  | link target => exact absurd rfl (hlink target)
  | _ => simp only [walkFrom, hi, if_neg hname.1, if_neg hname.2, hj, hn]

theorem firstStep_of_walkFrom (h : fs.walkFrom follow i (name :: names) = some (.node k)) :
    FirstStep fs follow i names k name := by
  have hdir : ∃ p es, fs.node i = some (.dir p es) := by
    by_contra hno
    simp only [not_exists] at hno
    cases hi : fs.node i with
    | none => simp [walkFrom, hi] at h
    | some n =>
        cases n with
        | dir p es => exact hno p es hi
        | _ => simp [walkFrom, hi] at h
  obtain ⟨p, es, hi⟩ := hdir
  by_cases hdot : name = dot
  · subst hdot
    exact .here hi (walkFrom_dot hi ▸ h)
  by_cases hdots : name = dotDot
  · subst hdots
    exact .up hi (walkFrom_dotDot hi ▸ h)
  cases hj : lookup es name with
  | none =>
      rw [walkFrom_missing hi ⟨hdot, hdots⟩ hj] at h
      split at h <;> simp at h
  | some j =>
      cases hn : fs.node j with
      | none => simp [walkFrom, hi, hdot, hdots, hj, hn] at h
      | some n =>
          by_cases hlink : ∃ target, n = .link target
          · obtain ⟨target, rfl⟩ := hlink
            rw [walkFrom_link hi ⟨hdot, hdots⟩ hj hn] at h
            exact .link hi ⟨hdot, hdots⟩ hj hn h
          · simp only [not_exists] at hlink
            exact .entry hi ⟨hdot, hdots⟩ hj hn hlink
              (walkFrom_entry hi ⟨hdot, hdots⟩ hj hn hlink ▸ h)

/-- A walk that goes on behind `names` goes on from a node, with the links that are left. -/
def GoesOn (fs : FileSystem) (links : Nat) (follow : Nat → List (List Byte) → Option Found)
    (i : Nat) (names : List (List Byte)) : Prop :=
  ∃ d m, m ≤ links ∧ follow i names = some (.node d) ∧
    ∀ more, follow i (names ++ more) = fs.walk m d more

theorem walkFrom_goesOn {links : Nat}
    (hstart : ∀ i names, fs.walkFrom follow i names = fs.walk links i names)
    (hfollow : ∀ i names more k, follow i (names ++ more) = some (.node k) →
      GoesOn fs links follow i names) :
    ∀ names i, fs.walkFrom follow i (names ++ more) = some (.node k) →
      GoesOn fs links (fs.walkFrom follow) i names
  | [], i, _ => ⟨i, links, le_refl links, walkFrom_nil, fun more => hstart i more⟩
  | name :: names, i, h => by
      have hcons : ∀ rest : List (List Byte), name :: names ++ rest = name :: (names ++ rest) :=
        fun rest => List.cons_append
      rw [hcons] at h
      cases firstStep_of_walkFrom h with
      | here hi hrest =>
          obtain ⟨d, m, hm, hd, hmore⟩ := walkFrom_goesOn hstart hfollow names _ hrest
          refine ⟨d, m, hm, ?_, fun rest => ?_⟩
          · rw [walkFrom_dot hi, hd]
          · rw [hcons, walkFrom_dot hi, hmore]
      | up hi hrest =>
          obtain ⟨d, m, hm, hd, hmore⟩ := walkFrom_goesOn hstart hfollow names _ hrest
          refine ⟨d, m, hm, ?_, fun rest => ?_⟩
          · rw [walkFrom_dotDot hi, hd]
          · rw [hcons, walkFrom_dotDot hi, hmore]
      | link hi hname hj hlink hrest =>
          rw [← List.append_assoc] at hrest
          obtain ⟨d, m, hm, hd, hmore⟩ := hfollow _ _ _ _ hrest
          refine ⟨d, m, hm, ?_, fun rest => ?_⟩
          · rw [walkFrom_link hi hname hj hlink, hd]
          · rw [hcons, walkFrom_link hi hname hj hlink, ← List.append_assoc, hmore]
      | entry hi hname hj hn hlink hrest =>
          obtain ⟨d, m, hm, hd, hmore⟩ := walkFrom_goesOn hstart hfollow names _ hrest
          refine ⟨d, m, hm, ?_, fun rest => ?_⟩
          · rw [walkFrom_entry hi hname hj hn hlink, hd]
          · rw [hcons, walkFrom_entry hi hname hj hn hlink, hmore]

/-- A walk to a node leads to a node on the way, and goes on from there. -/
theorem walk_append : ∀ {links i names more k},
    fs.walk links i (names ++ more) = some (.node k) → GoesOn fs links (fs.walk links) i names
  | 0, i, names, more, k, h =>
      walkFrom_goesOn (fun _ _ => rfl) (fun _ _ _ _ hno => by cases hno) names i h
  | links + 1, i, names, more, k, h => by
      refine walkFrom_goesOn (fun _ _ => rfl) (fun i names more k hfollow => ?_) names i h
      obtain ⟨d, m, hm, hrest⟩ := walk_append hfollow
      exact ⟨d, m, by omega, hrest⟩

theorem walk_nil (links i : Nat) : fs.walk links i [] = some (.node i) := by
  cases links <;> rfl

/-- A directory is where its name `.` leads. -/
theorem walk_dot {links : Nat} : fs.walk links i [dot] = some (.node k) ↔ i = k ∧ fs.isDir i := by
  have hwalk : ∃ follow, fs.walk links = fs.walkFrom follow := by
    cases links <;> exact ⟨_, rfl⟩
  obtain ⟨follow, hfollow⟩ := hwalk
  rw [hfollow, isDir_iff]
  constructor
  · intro h
    cases firstStep_of_walkFrom h with
    | here hi hrest =>
        obtain rfl : i = k := by simpa [walkFrom_nil] using hrest
        exact ⟨rfl, _, _, hi⟩
    | link hi hname => exact absurd rfl hname.1
    | entry hi hname => exact absurd rfl hname.1
  · rintro ⟨rfl, p, es, hi⟩
    rw [walkFrom_dot hi, walkFrom_nil]

theorem walk_missing (links : Nat) (hi : fs.node i = some (.dir p es))
    (hname : name ≠ dot ∧ name ≠ dotDot) (hfree : lookup es name = none)
    (names : List (List Byte)) :
    fs.walk links i (name :: names) = if names = [] then some (.missing i name) else none := by
  cases links <;> exact walkFrom_missing hi hname hfree

/-- The walk of a single name. -/
theorem walk_name (links : Nat) (hi : fs.node i = some (.dir p es))
    (hname : name ≠ dot ∧ name ≠ dotDot) :
    (lookup es name = none → fs.walk links i [name] = some (.missing i name)) ∧
    ∀ j n, lookup es name = some j → fs.node j = some n → (∀ target, n ≠ .link target) →
      ∀ names, fs.walk links i (name :: names) = fs.walk links j names := by
  have hwalk : ∃ follow, fs.walk links = fs.walkFrom follow := by
    cases links <;> exact ⟨_, rfl⟩
  obtain ⟨follow, hfollow⟩ := hwalk
  rw [hfollow]
  constructor
  · intro hfree
    rw [walkFrom_missing hi hname hfree, if_pos rfl]
  · intro j n hj hn hlink names
    exact walkFrom_entry hi hname hj hn hlink

end Walks

/-! ### Where a path leads -/

section Lead

variable {path name : List Byte} {d i j k p : Nat} {es : List (List Byte × Nat)}

theorem find_eq_some_iff : fs.find path = some k ↔ isPath path = true ∧
    fs.walk maxLinks (fs.startIn fs.cwd path) (steps path) = some (.node k) := by
  unfold find resolve
  by_cases hpath : isPath path = true
  · rw [if_pos hpath]
    split
    case h_1 i hi => simp [hpath, hi]
    case h_2 hno =>
      constructor
      · intro h
        cases h
      · rintro ⟨-, h⟩
        exact absurd h (hno k)
  · simp [hpath]

theorem place_eq_some_iff : fs.place path = some (d, name) ↔ isPath path = true ∧
    (components path).getLast? = some name ∧ (name ≠ dot ∧ name ≠ dotDot) ∧
    fs.walk maxLinks (fs.startIn fs.cwd path) (components path).dropLast = some (.node d) := by
  unfold place
  by_cases hpath : isPath path = true
  · rw [if_pos hpath]
    cases hlast : (components path).getLast? with
    | none => simp
    | some last =>
        by_cases hdots : last = dot ∨ last = dotDot
        · simp only [if_pos hdots]
          constructor
          · intro h
            cases h
          · rintro ⟨-, hname, hnot, -⟩
            obtain rfl := Option.some.inj hname
            exact absurd hdots (not_or.mpr hnot)
        · simp only [if_neg hdots]
          split
          case h_1 i hi =>
            constructor
            · intro h
              obtain ⟨rfl, rfl⟩ := Prod.mk.inj (Option.some.inj h)
              exact ⟨hpath, rfl, not_or.mp hdots, hi⟩
            · rintro ⟨-, hname, -, hd⟩
              obtain rfl := Option.some.inj hname
              obtain rfl : i = d := by simpa using hi.symm.trans hd
              rfl
          case h_2 hno =>
            constructor
            · intro h
              cases h
            · rintro ⟨-, -, -, hd⟩
              exact absurd hd (hno d)
  · simp [hpath]

/-- The names of a path to a directory lead to it without the final slash. -/
theorem walk_components (h : fs.find path = some d) :
    fs.walk maxLinks (fs.startIn fs.cwd path) (components path) = some (.node d) := by
  have hwalk := (find_eq_some_iff.mp h).2
  rw [steps] at hwalk
  split at hwalk
  case isTrue =>
      obtain ⟨e, m, -, he, hmore⟩ := walk_append hwalk
      rw [hmore, walk_dot] at hwalk
      rw [he, hwalk.1]
  case isFalse => rwa [List.append_nil] at hwalk

theorem ne_nil_of_isPath (h : isPath path = true) : path ≠ [] := by
  unfold isPath at h
  intro hnil
  simp [hnil] at h

theorem lt_of_isPath (h : isPath path = true) : path.length < pathMax := by
  unfold isPath at h
  simp only [Bool.and_eq_true, decide_eq_true_eq] at h
  exact h.2

/-- A name behind a path to directory `d`: the entry of this name in `d`. -/
theorem place_append (h : fs.find path = some d) (hname : IsName name)
    (hpath : isPath (path ++ slash :: name) = true) :
    fs.place (path ++ slash :: name) = some (d, name) := by
  have hne := ne_nil_of_isPath (find_eq_some_iff.mp h).1
  obtain ⟨hnil, hslash, hdots⟩ := hname
  rw [place_eq_some_iff, components_slash hslash, if_neg hnil, startIn_append hne]
  refine ⟨hpath, by simp, hdots, ?_⟩
  rw [List.dropLast_concat]
  exact walk_components h

/-- A path is resolved from the directory of the entry that it is about. -/
theorem resolve_of_place (h : fs.place path = some (d, name)) :
    ∃ links, fs.resolve path =
      fs.walk links d (name :: if endsInSlash path then [dot] else []) := by
  obtain ⟨hpath, hlast, -, hwalk⟩ := place_eq_some_iff.mp h
  have hsplit : steps path =
      (components path).dropLast ++ (name :: if endsInSlash path then [dot] else []) := by
    have hne : components path ≠ [] := by
      intro hnil
      simp [hnil] at hlast
    have hname : (components path).getLast hne = name := by
      rw [List.getLast?_eq_some_getLast hne] at hlast
      exact Option.some.inj hlast
    rw [steps, ← List.dropLast_concat_getLast hne, hname]
    simp
  rw [← List.append_nil (components path).dropLast] at hwalk
  obtain ⟨e, m, -, he, hmore⟩ := walk_append hwalk
  rw [List.append_nil] at hwalk
  obtain rfl : d = e := by simpa using hwalk.symm.trans he
  refine ⟨m, ?_⟩
  rw [resolve, if_pos hpath, hsplit, hmore]

/-- What is found behind the name of an entry that is no link is that entry. -/
theorem entry_of_find (h : fs.place path = some (d, name)) (hk : fs.find path = some k) :
    ∃ p es j n, fs.node d = some (.dir p es) ∧ lookup es name = some j ∧ fs.node j = some n ∧
      ((∀ target, n ≠ .link target) → j = k) := by
  obtain ⟨links, hresolve⟩ := resolve_of_place h
  have hdots := (place_eq_some_iff.mp h).2.2.1
  have hwalk : fs.walk links d (name :: if endsInSlash path then [dot] else []) =
      some (.node k) := by
    rw [← hresolve, resolve, if_pos (find_eq_some_iff.mp hk).1]
    exact (find_eq_some_iff.mp hk).2
  have hfollow : ∃ follow, fs.walk links = fs.walkFrom follow := by
    cases links <;> exact ⟨_, rfl⟩
  obtain ⟨follow, hfollow⟩ := hfollow
  have hstep := hwalk
  rw [hfollow] at hstep
  cases firstStep_of_walkFrom hstep with
  | here => exact absurd rfl hdots.1
  | up => exact absurd rfl hdots.2
  | link hi hname hj hlink => exact ⟨_, _, _, _, hi, hj, hlink, fun hno => absurd rfl (hno _)⟩
  | entry hi hname hj hn hlink hrest =>
      refine ⟨_, _, _, _, hi, hj, hn, fun _ => ?_⟩
      rw [← hfollow] at hrest
      split at hrest
      · exact (walk_dot.mp hrest).1
      · rw [hfollow, walkFrom_nil] at hrest
        simpa using hrest

/-- A directory is found under the name that it has. -/
theorem find_of_place (h : fs.place path = some (d, name)) (hd : fs.node d = some (.dir p es))
    (hk : lookup es name = some k) (hdir : fs.isDir k = true) : fs.find path = some k := by
  obtain ⟨links, hresolve⟩ := resolve_of_place h
  obtain ⟨hpath, -, hdots, -⟩ := place_eq_some_iff.mp h
  obtain ⟨q, more, hnode⟩ := isDir_iff.mp hdir
  rw [(walk_name links hd hdots).2 k _ hk hnode (by simp)] at hresolve
  rw [find, hresolve]
  split_ifs
  · rw [walk_dot.mpr ⟨rfl, hdir⟩]
  · rw [walk_nil]

/-- A final slash demands a directory. -/
theorem endsInSlash_of_find (h : fs.find path = some k) (hk : fs.isDir k = false) :
    endsInSlash path = false := by
  by_contra hslash
  have hwalk := (find_eq_some_iff.mp h).2
  rw [steps, if_pos (by simpa using hslash)] at hwalk
  obtain ⟨e, m, -, -, hmore⟩ := walk_append hwalk
  rw [hmore, walk_dot] at hwalk
  rw [hwalk.1, hk] at hwalk
  exact absurd hwalk.2 (by simp)

/-- Nothing is found under a name that the directory does not have. -/
theorem find_of_free (h : fs.place path = some (d, name)) (hd : fs.node d = some (.dir p es))
    (hfree : lookup es name = none) : fs.find path = none := by
  cases hk : fs.find path with
  | none => rfl
  | some k =>
      obtain ⟨q, more, j, n, hd', hj, -⟩ := entry_of_find h hk
      rw [hd, Option.some.injEq] at hd'
      obtain ⟨-, rfl⟩ := Node.dir.inj hd'
      simp [hfree] at hj

end Lead

/-! ### File systems within others -/

end FileSystem

/-- The second node has everything that a walk finds at the first. -/
inductive Node.Within : Node → Node → Prop
  | file (bytes bytes' : List Byte) : Within (.file bytes) (.file bytes')
  | dir (p : Nat) {es es' : List (List Byte × Nat)}
      (h : ∀ name j, lookup es name = some j → lookup es' name = some j) :
      Within (.dir p es) (.dir p es')
  | link (target : List Byte) : Within (.link target) (.link target)
  | special : Within .special .special

namespace Node.Within

theorem refl (n : Node) : n.Within n := by
  cases n with
  | file bytes => exact .file bytes bytes
  | dir p es => exact .dir p fun _ _ h => h
  | link target => exact .link target
  | special => exact .special

theorem trans {a b c : Node} (hab : a.Within b) (hbc : b.Within c) : a.Within c := by
  cases hab with
  | file => cases hbc with | file => exact .file _ _
  | dir p h => cases hbc with | dir _ h' => exact .dir p fun name j hj => h' name j (h name j hj)
  | link target => exact hbc
  | special => exact hbc

theorem link_iff {a b : Node} (h : a.Within b) (target : List Byte) :
    a = .link target ↔ b = .link target := by
  cases h <;> simp

end Node.Within

namespace FileSystem

/-- Everything in the first file system is in the second: its nodes, its entries, its links. -/
structure Within (fs fs' : FileSystem) : Prop where
  root : fs.root = fs'.root
  cwd : fs.cwd = fs'.cwd
  node : ∀ i n, fs.node i = some n → ∃ n', fs'.node i = some n' ∧ n.Within n'

namespace Within

variable {fs fs' fs'' : FileSystem} {follow follow' : Nat → List (List Byte) → Option Found}

theorem refl (fs : FileSystem) : fs.Within fs :=
  ⟨rfl, rfl, fun _ n hn => ⟨n, hn, Node.Within.refl n⟩⟩

theorem trans (h : fs.Within fs') (h' : fs'.Within fs'') : fs.Within fs'' := by
  refine ⟨h.root.trans h'.root, h.cwd.trans h'.cwd, fun i n hn => ?_⟩
  obtain ⟨n', hn', hwithin⟩ := h.node i n hn
  obtain ⟨n'', hn'', hwithin'⟩ := h'.node i n' hn'
  exact ⟨n'', hn'', hwithin.trans hwithin'⟩

theorem dir (h : fs.Within fs') {i p : Nat} {es : List (List Byte × Nat)}
    (hi : fs.node i = some (.dir p es)) : ∃ es', fs'.node i = some (.dir p es') ∧
      ∀ name j, lookup es name = some j → lookup es' name = some j := by
  obtain ⟨n', hn', hwithin⟩ := h.node i _ hi
  cases hwithin with
  | dir _ hes => exact ⟨_, hn', hes⟩

theorem startIn (h : fs.Within fs') (i : Nat) (path : List Byte) :
    fs.startIn i path = fs'.startIn i path := by
  unfold FileSystem.startIn
  rw [h.root]

theorem walkFrom (h : fs.Within fs')
    (hfollow : ∀ i names k, follow i names = some (.node k) → follow' i names = some (.node k)) :
    ∀ {names i k}, fs.walkFrom follow i names = some (.node k) →
      fs'.walkFrom follow' i names = some (.node k)
  | [], _, _, hk => hk
  | name :: names, i, k, hk => by
      cases firstStep_of_walkFrom hk with
      | here hi hrest =>
          obtain ⟨es', hi', -⟩ := h.dir hi
          rw [walkFrom_dot hi']
          exact h.walkFrom hfollow hrest
      | up hi hrest =>
          obtain ⟨es', hi', -⟩ := h.dir hi
          rw [walkFrom_dotDot hi']
          exact h.walkFrom hfollow hrest
      | link hi hname hj hlink hrest =>
          obtain ⟨es', hi', hes⟩ := h.dir hi
          obtain ⟨n', hn', hwithin⟩ := h.node _ _ hlink
          obtain rfl := (hwithin.link_iff _).mp rfl
          rw [walkFrom_link hi' hname (hes _ _ hj) hn', ← h.startIn]
          exact hfollow _ _ _ hrest
      | entry hi hname hj hn hlink hrest =>
          obtain ⟨es', hi', hes⟩ := h.dir hi
          obtain ⟨n', hn', hwithin⟩ := h.node _ _ hn
          rw [walkFrom_entry hi' hname (hes _ _ hj) hn'
            fun target ht => hlink target ((hwithin.link_iff target).mpr ht)]
          exact h.walkFrom hfollow hrest

theorem walk (h : fs.Within fs') : ∀ {links i names k},
    fs.walk links i names = some (.node k) → fs'.walk links i names = some (.node k)
  | 0, _, _, _, hk => h.walkFrom (fun _ _ _ hno => by cases hno) hk
  | _ + 1, _, _, _, hk => h.walkFrom (fun _ _ _ => h.walk) hk

/-- What a path finds it finds also where there is more. -/
theorem find (h : fs.Within fs') {path : List Byte} {k : Nat} (hk : fs.find path = some k) :
    fs'.find path = some k := by
  rw [find_eq_some_iff] at hk ⊢
  rw [← h.startIn, ← h.cwd]
  exact ⟨hk.1, h.walk hk.2⟩

theorem place (h : fs.Within fs') {path name : List Byte} {d : Nat}
    (hd : fs.place path = some (d, name)) : fs'.place path = some (d, name) := by
  rw [place_eq_some_iff] at hd ⊢
  rw [← h.startIn, ← h.cwd]
  exact ⟨hd.1, hd.2.1, hd.2.2.1, h.walk hd.2.2.2⟩

theorem names (h : fs.Within fs') {d : Nat} {name : List Byte} (hname : name ∈ fs.names d) :
    name ∈ fs'.names d := by
  obtain ⟨p, es, j, hd, hj⟩ := mem_names_iff.mp hname
  obtain ⟨es', hd', hes⟩ := h.dir hd
  exact mem_names_iff.mpr ⟨p, es', j, hd', hes name j hj⟩

theorem entry (h : fs.Within fs') {d j : Nat} {name : List Byte}
    (hj : fs.entry d name = some j) : fs'.entry d name = some j := by
  obtain ⟨p, es, hd, hlookup⟩ := entry_eq_some_iff.mp hj
  obtain ⟨es', hd', hes⟩ := h.dir hd
  exact entry_eq_some_iff.mpr ⟨p, es', hd', hes name j hlookup⟩

theorem isDir (h : fs.Within fs') {i : Nat} (hi : fs.isDir i = true) : fs'.isDir i = true := by
  obtain ⟨p, es, hnode⟩ := isDir_iff.mp hi
  obtain ⟨es', hnode', -⟩ := h.dir hnode
  exact isDir_iff.mpr ⟨p, es', hnode'⟩

end Within

/-! ### Changes -/

theorem remove_within (fs : FileSystem) (i : Nat) (name : List Byte) :
    (fs.remove i name).Within fs := by
  refine ⟨rfl, rfl, fun j n hn => ?_⟩
  rw [node_remove] at hn
  split at hn
  case isTrue hji =>
      subst hji
      obtain ⟨m, hm, rfl⟩ := Option.map_eq_some_iff.mp hn
      refine ⟨m, hm, ?_⟩
      cases m with
      | dir p es =>
          refine .dir p fun other k hk => ?_
          rw [lookup_remove] at hk
          split at hk
          · cases hk
          · exact hk
      | _ => exact Node.Within.refl _
  case isFalse => exact ⟨n, hn, Node.Within.refl n⟩

theorem entry_remove_self (fs : FileSystem) (i : Nat) (name : List Byte) :
    (fs.remove i name).entry i name = none := by
  cases h : (fs.remove i name).entry i name with
  | none => rfl
  | some j =>
      obtain ⟨p, es, hi, hj⟩ := entry_eq_some_iff.mp h
      rw [node_remove, if_pos rfl] at hi
      obtain ⟨n, -, hn⟩ := Option.map_eq_some_iff.mp hi
      cases n with
      | dir q more =>
          obtain ⟨-, rfl⟩ := Node.dir.inj hn
          rw [lookup_remove, if_pos rfl] at hj
          cases hj
      | _ => cases hn

theorem isEmptyDir_remove {fs : FileSystem} {i j : Nat} {name : List Byte}
    (h : fs.isEmptyDir j = true) :
    (fs.remove i name).isEmptyDir j = true := by
  obtain ⟨p, hj⟩ := isEmptyDir_iff.mp h
  rw [isEmptyDir_iff, node_remove]
  split
  case isTrue hji =>
      rw [← hji, hj]
      exact ⟨p, rfl⟩
  case isFalse => exact ⟨p, hj⟩

theorem within_write (fs : FileSystem) (i : Nat) (bytes : List Byte) :
    fs.Within (fs.write i bytes) := by
  refine ⟨rfl, rfl, fun j n hn => ?_⟩
  rw [node_write]
  by_cases hji : j = i
  · subst hji
    rw [if_pos rfl, hn]
    refine ⟨n.write bytes, rfl, ?_⟩
    cases n with
    | file bytes' => exact .file bytes' bytes
    | _ => exact Node.Within.refl _
  · rw [if_neg hji]
    exact ⟨n, hn, Node.Within.refl n⟩

theorem Created.within {fs fs' : FileSystem} {i : Nat} {name : List Byte} {child : Node}
    (h : fs.Created i name child fs') : fs.Within fs' := by
  obtain ⟨p, es, hi, hfree, hnode⟩ := h.dir
  refine ⟨h.root.symm, h.cwd.symm, fun j n hn => ?_⟩
  rw [hnode]
  have hne : j ≠ fs.fresh := (lt_fresh hn).ne
  by_cases hji : j = i
  · subst hji
    obtain rfl := Option.some.inj (hi.symm.trans hn)
    refine ⟨_, addedNode_dir hi, .dir p fun other k hk => ?_⟩
    rw [lookup_concat, hk]
    rfl
  · exact ⟨n, (addedNode_of_ne hne hji).trans hn, Node.Within.refl n⟩

end FileSystem
end Files
end OperatingSystems
