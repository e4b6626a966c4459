import Mathlib.Data.List.Nodup
import Mathlib.Logic.Function.Basic
import OperatingSystems.Library.CString

/-!
# File systems with symbolic links

A file system is a table of nodes: regular files, directories, symbolic links and special files.
A directory lists the names of its entries, so a node may have several names; a directory has one
parent, which `..` leads to.  A node that no entry names any more stays in the table, where no path
finds it.

* `walk` — the resolution of a path, which follows up to `maxLinks` links.
* `FileSystem.find`, `FileSystem.place` — where a path leads, and the entry it names.
* `FileSystem.add`, `FileSystem.remove`, `FileSystem.write` — the three changes; what the calls of
  the system do is made of them.
* `FileSystem.Within` — everything that one file system has is also in the other; what a path
  finds in the first it finds in the second.
-/

namespace OperatingSystems
namespace Files

/-- The byte `/`. -/
def slash : Byte := 47

/-- `.` -/
def dot : List Byte := [46]

/-- `..` -/
def dotDot : List Byte := [46, 46]

/-- `PATH_MAX` and the number of links that a path may lead through. -/
def pathMax : Nat := 4096

def maxLinks : Nat := 40

/-- The name of an entry. -/
def IsName (name : List Byte) : Prop :=
  name ≠ [] ∧ slash ∉ name ∧ name ≠ dot ∧ name ≠ dotDot

instance : DecidablePred IsName := fun _ => inferInstanceAs (Decidable (_ ∧ _))

/-- A regular file, a directory with its parent and its entries, a symbolic link, or a device, pipe
or socket. -/
inductive Node
  | file (content : List Byte)
  | dir (parent : Nat) (entries : List (List Byte × Nat))
  | link (target : List Byte)
  | special
  deriving DecidableEq

/-- The node that a list of entries has under this name. -/
def lookup (entries : List (List Byte × Nat)) (name : List Byte) : Option Nat :=
  (entries.find? fun e => e.1 = name).map Prod.snd

theorem lookup_eq_none_iff {entries : List (List Byte × Nat)} {name : List Byte} :
    lookup entries name = none ↔ name ∉ entries.map Prod.fst := by
  rw [lookup, Option.map_eq_none_iff, List.find?_eq_none, List.mem_map]
  simp only [decide_eq_true_eq, not_exists, not_and]

theorem mem_of_lookup {entries : List (List Byte × Nat)} {name : List Byte} {i : Nat}
    (h : lookup entries name = some i) : (name, i) ∈ entries := by
  obtain ⟨e, he, rfl⟩ := Option.map_eq_some_iff.mp h
  have hname : e.1 = name := by simpa using List.find?_some he
  exact hname ▸ List.mem_of_find?_eq_some he

theorem lookup_remove (entries : List (List Byte × Nat)) (name other : List Byte) :
    lookup (entries.filter fun e => e.1 ≠ name) other =
      if other = name then none else lookup entries other := by
  induction entries with
  | nil => simp [lookup]
  | cons e entries ih =>
      simp only [lookup] at ih
      by_cases hname : e.1 = name
      · by_cases hother : other = name
        · simp_all [lookup]
        · have hne : e.1 ≠ other := fun heq => hother (heq.symm.trans hname)
          simp_all [lookup]
      · by_cases hother : e.1 = other
        · have hne : other ≠ name := fun heq => hname (hother.trans heq)
          simp_all [lookup]
        · simp_all [lookup]

theorem lookup_concat (entries : List (List Byte × Nat)) (name other : List Byte) (i : Nat) :
    lookup (entries ++ [(name, i)]) other =
      (lookup entries other).or (if name = other then some i else none) := by
  unfold lookup
  rw [List.find?_append, Option.map_or]
  by_cases hname : name = other <;> simp [hname]

/-- The entries of directory `i`: their names are different, they name nodes, and those that are
directories have `i` as their parent. -/
structure Entries (node : Nat → Option Node) (i : Nat) (entries : List (List Byte × Nat)) :
    Prop where
  isName : ∀ e ∈ entries, IsName e.1
  nodup : (entries.map Prod.fst).Nodup
  isSome : ∀ e ∈ entries, (node e.2).isSome
  parent : ∀ e ∈ entries, ∀ p more, node e.2 = some (.dir p more) → p = i

/-- A file system; the numbers from `fresh` on are not in use. -/
structure FileSystem where
  node : Nat → Option Node
  fresh : Nat
  root : Nat
  cwd : Nat
  unused : ∀ i, fresh ≤ i → node i = none
  entries : ∀ i p es, node i = some (.dir p es) → Entries node i es

/-! ### Paths -/

/-- The names in a path. -/
def components (path : List Byte) : List (List Byte) :=
  (path.splitOn slash).filter (· ≠ [])

/-- The path ends in a slash. -/
def endsInSlash (path : List Byte) : Bool :=
  path.getLast? = some slash

/-- The names to follow: what is in front of a final slash has to be a directory. -/
def steps (path : List Byte) : List (List Byte) :=
  components path ++ if endsInSlash path then [dot] else []

/-- Where a path leads: to a node, or to a name that a directory does not have yet. -/
inductive Found
  | node (i : Nat)
  | missing (dir : Nat) (name : List Byte)
  deriving DecidableEq

namespace FileSystem

variable (fs : FileSystem)

/-- The directory in which a path starts that is found in the directory `i`. -/
def startIn (i : Nat) (path : List Byte) : Nat :=
  if path.head? = some slash then fs.root else i

/-- Follow the names from node `i` on; `follow` goes on at a link. -/
def walkFrom (follow : Nat → List (List Byte) → Option Found) :
    Nat → List (List Byte) → Option Found
  | i, [] => some (.node i)
  | i, name :: names =>
      match fs.node i with
      | some (.dir parent entries) =>
          if name = dot then walkFrom follow i names
          else if name = dotDot then walkFrom follow parent names
          else
            match lookup entries name with
            | none => if names = [] then some (.missing i name) else none
            | some j =>
                match fs.node j with
                | none => none
                | some (.link target) => follow (fs.startIn i target) (steps target ++ names)
                | some _ => walkFrom follow j names
      | _ => none

/-- The same with at most so many links. -/
def walk : Nat → Nat → List (List Byte) → Option Found
  | 0 => fs.walkFrom fun _ _ => none
  | links + 1 => fs.walkFrom (walk links)

/-- A path that is neither empty nor too long. -/
def isPath (path : List Byte) : Bool :=
  path ≠ [] && path.length < pathMax

/-- Where a path leads, through links to the end. -/
def resolve (path : List Byte) : Option Found :=
  if isPath path then fs.walk maxLinks (fs.startIn fs.cwd path) (steps path) else none

/-- The node that a path leads to. -/
def find (path : List Byte) : Option Nat :=
  match fs.resolve path with
  | some (.node i) => some i
  | _ => none

/-- The directory and the name of the entry that a path is about, when it does not end in `.` or
`..`. -/
def place (path : List Byte) : Option (Nat × List Byte) :=
  if isPath path then
    match (components path).getLast? with
    | none => none
    | some name =>
        if name = dot ∨ name = dotDot then none
        else
          match fs.walk maxLinks (fs.startIn fs.cwd path) (components path).dropLast with
          | some (.node i) => some (i, name)
          | _ => none
  else none

/-- The entry of node `i` with this name. -/
def entry (i : Nat) (name : List Byte) : Option Nat :=
  match fs.node i with
  | some (.dir _ entries) => lookup entries name
  | _ => none

/-- The names that a directory has. -/
def names (d : Nat) : List (List Byte) :=
  match fs.node d with
  | some (.dir _ es) => es.map Prod.fst
  | _ => []

/-- Node `i` is a regular file. -/
def isFile (i : Nat) : Bool :=
  match fs.node i with
  | some (.file _) => true
  | _ => false

/-- Node `i` is a directory. -/
def isDir (i : Nat) : Bool :=
  match fs.node i with
  | some (.dir _ _) => true
  | _ => false

/-- Node `i` is a directory without entries. -/
def isEmptyDir (i : Nat) : Bool :=
  match fs.node i with
  | some (.dir _ []) => true
  | _ => false

/-- The bytes of a regular file. -/
def content (i : Nat) : List Byte :=
  match fs.node i with
  | some (.file bytes) => bytes
  | _ => []

variable {fs}

theorem mem_names_iff {d : Nat} {name : List Byte} :
    name ∈ fs.names d ↔ ∃ p es j, fs.node d = some (.dir p es) ∧ lookup es name = some j := by
  unfold names
  split
  case h_1 p es hd =>
      rw [hd]
      constructor
      · intro h
        obtain ⟨j, hj⟩ := Option.ne_none_iff_exists'.mp
          fun hnone => lookup_eq_none_iff.mp hnone h
        exact ⟨p, es, j, rfl, hj⟩
      · rintro ⟨q, more, j, hnode, hj⟩
        obtain ⟨-, rfl⟩ := Node.dir.inj (Option.some.inj hnode)
        exact List.mem_map.mpr ⟨_, mem_of_lookup hj, rfl⟩
  case h_2 hno =>
      constructor
      · intro h
        cases h
      · rintro ⟨p, es, j, hnode, -⟩
        exact absurd hnode (hno p es)

theorem isName_of_mem_names {d : Nat} {name : List Byte} (h : name ∈ fs.names d) :
    IsName name := by
  obtain ⟨p, es, j, hd, hj⟩ := mem_names_iff.mp h
  exact (fs.entries d p es hd).isName _ (mem_of_lookup hj)

end FileSystem

/-! ### Changes -/

/-- A node as the entries of its parent see it. -/
def Node.parent : Node → Option Nat
  | .dir parent _ => some parent
  | _ => none

/-- Nodes that are there and have their parents as before can be named as before. -/
theorem Entries.of_parent {node node' : Nat → Option Node} {i : Nat}
    {es es' : List (List Byte × Nat)} (h : Entries node i es) (hsublist : es'.Sublist es)
    (hnode : ∀ j, (node j).isSome → (node' j).map Node.parent = (node j).map Node.parent) :
    Entries node' i es' := by
  have hsame : ∀ e ∈ es', (node' e.2).map Node.parent = (node e.2).map Node.parent :=
    fun e he => hnode _ (h.isSome e (hsublist.subset he))
  refine ⟨fun e he => h.isName e (hsublist.subset he), h.nodup.sublist (hsublist.map _),
    fun e he => ?_, fun e he p more hdir => ?_⟩
  · have hsome := h.isSome e (hsublist.subset he)
    have heq := congrArg Option.isSome (hsame e he)
    rwa [Option.isSome_map, Option.isSome_map, hsome] at heq
  · have heq := hsame e he
    rw [hdir] at heq
    cases hnode : node e.2 with
    | none => simp [hnode] at heq
    | some n =>
        rw [hnode] at heq
        cases n with
        | dir q less =>
            have hpq : p = q := by simpa [Node.parent] using heq
            exact hpq ▸ h.parent e (hsublist.subset he) q less hnode
        | _ => simp [Node.parent] at heq

/-- The node without the entry of this name. -/
def Node.remove (name : List Byte) : Node → Node
  | .dir parent entries => .dir parent (entries.filter fun e => e.1 ≠ name)
  | n => n

/-- The regular file with other bytes. -/
def Node.write (bytes : List Byte) : Node → Node
  | .file _ => .file bytes
  | n => n

namespace FileSystem

/-- Node `i` is changed by `f`, which leaves a directory the parent and some of the entries. -/
def modify (fs : FileSystem) (i : Nat) (f : Node → Node)
    (hparent : ∀ n, (f n).parent = n.parent)
    (hentries : ∀ n p es, f n = .dir p es → ∃ more, n = .dir p more ∧ es.Sublist more) :
    FileSystem where
  node := Function.update fs.node i ((fs.node i).map f)
  fresh := fs.fresh
  root := fs.root
  cwd := fs.cwd
  unused j hj := by
    by_cases hji : j = i
    · subst hji
      rw [Function.update_self, fs.unused j hj]
      rfl
    · rw [Function.update_of_ne hji]
      exact fs.unused j hj
  entries j p es hj := by
    have hsame : ∀ k, (fs.node k).isSome →
        (Function.update fs.node i ((fs.node i).map f) k).map Node.parent =
          (fs.node k).map Node.parent := by
      intro k _
      by_cases hki : k = i
      · subst hki
        rw [Function.update_self, Option.map_map]
        congr 1
        funext n
        exact hparent n
      · rw [Function.update_of_ne hki]
    by_cases hji : j = i
    · subst hji
      rw [Function.update_self] at hj
      obtain ⟨n, hn, hfn⟩ := Option.map_eq_some_iff.mp hj
      obtain ⟨more, rfl, hsublist⟩ := hentries n p es hfn
      exact (fs.entries j p more hn).of_parent hsublist hsame
    · rw [Function.update_of_ne hji] at hj
      exact (fs.entries j p es hj).of_parent (List.Sublist.refl es) hsame

/-- The entry of this name is taken out of node `i`. -/
def remove (fs : FileSystem) (i : Nat) (name : List Byte) : FileSystem :=
  fs.modify i (Node.remove name) (fun n => by cases n <;> rfl) fun n p es h => by
    cases n with
    | dir q more =>
        obtain ⟨rfl, rfl⟩ := Node.dir.inj h
        exact ⟨more, rfl, List.filter_sublist⟩
    | _ => cases h

/-- The regular file `i` gets other bytes. -/
def write (fs : FileSystem) (i : Nat) (bytes : List Byte) : FileSystem :=
  fs.modify i (Node.write bytes) (fun n => by cases n <;> rfl) fun n p es h => by
    cases n with
    | dir q more =>
        obtain ⟨rfl, rfl⟩ := Node.dir.inj h
        exact ⟨_, rfl, List.Sublist.refl _⟩
    | _ => cases h

theorem node_remove (fs : FileSystem) (i : Nat) (name : List Byte) (j : Nat) :
    (fs.remove i name).node j =
      if j = i then (fs.node i).map (Node.remove name) else fs.node j :=
  Function.update_apply fs.node i _ j

theorem node_write (fs : FileSystem) (i : Nat) (bytes : List Byte) (j : Nat) :
    (fs.write i bytes).node j =
      if j = i then (fs.node i).map (Node.write bytes) else fs.node j :=
  Function.update_apply fs.node i _ j

theorem isFile_write (fs : FileSystem) (i : Nat) (bytes : List Byte) (j : Nat) :
    (fs.write i bytes).isFile j = fs.isFile j := by
  unfold isFile
  rw [node_write]
  by_cases hji : j = i
  · subst hji
    rw [if_pos rfl]
    rcases fs.node j with _ | n
    · rfl
    · cases n <;> rfl
  · rw [if_neg hji]

theorem content_write_self {fs : FileSystem} {i : Nat} (hfile : fs.isFile i = true)
    (bytes : List Byte) : (fs.write i bytes).content i = bytes := by
  unfold content
  rw [node_write, if_pos rfl]
  unfold isFile at hfile
  rcases hnode : fs.node i with _ | n
  · simp [hnode] at hfile
  · rw [hnode] at hfile
    cases n with
    | file => rfl
    | _ => cases hfile

theorem content_write_of_ne {fs : FileSystem} {i j : Nat} (hji : j ≠ i) (bytes : List Byte) :
    (fs.write i bytes).content j = fs.content j := by
  unfold content
  rw [node_write, if_neg hji]

/-- The table with a new node that has an entry in directory `i`. -/
def addedNode (fs : FileSystem) (i p : Nat) (es : List (List Byte × Nat)) (name : List Byte)
    (child : Node) : Nat → Option Node :=
  Function.update (Function.update fs.node i (some (.dir p (es ++ [(name, fs.fresh)]))))
    fs.fresh (some child)

section Added

variable {fs : FileSystem} {i p : Nat} {es : List (List Byte × Nat)} {name : List Byte}
  {child : Node}

theorem lt_fresh {j : Nat} {n : Node} (hj : fs.node j = some n) : j < fs.fresh := by
  by_contra hle
  have hnone := fs.unused j (by omega)
  simp [hnone] at hj

theorem addedNode_fresh : fs.addedNode i p es name child fs.fresh = some child :=
  Function.update_self ..

theorem addedNode_dir (hi : fs.node i = some (.dir p es)) :
    fs.addedNode i p es name child i = some (.dir p (es ++ [(name, fs.fresh)])) := by
  have hne : i ≠ fs.fresh := (lt_fresh hi).ne
  rw [addedNode, Function.update_of_ne hne, Function.update_self]

theorem addedNode_of_ne {j : Nat} (hj : j ≠ fs.fresh) (hji : j ≠ i) :
    fs.addedNode i p es name child j = fs.node j := by
  rw [addedNode, Function.update_of_ne hj, Function.update_of_ne hji]

/-- The nodes that were there are there, with their parents. -/
theorem addedNode_parent (name : List Byte) (child : Node) (hi : fs.node i = some (.dir p es))
    (j : Nat) (hj : (fs.node j).isSome) :
    (fs.addedNode i p es name child j).map Node.parent = (fs.node j).map Node.parent := by
  obtain ⟨n, hn⟩ := Option.isSome_iff_exists.mp hj
  have hne : j ≠ fs.fresh := (lt_fresh hn).ne
  by_cases hji : j = i
  · subst hji
    rw [addedNode_dir hi, hi]
    rfl
  · rw [addedNode_of_ne hne hji]

end Added

/-- A new empty file or directory, with an entry in directory `i`. -/
def add (fs : FileSystem) {i p : Nat} {es : List (List Byte × Nat)}
    (hi : fs.node i = some (.dir p es)) {name : List Byte} (hname : IsName name)
    (hfree : lookup es name = none) (child : Node) (hchild : child = .file [] ∨ child = .dir i []) :
    FileSystem where
  node := fs.addedNode i p es name child
  fresh := fs.fresh + 1
  root := fs.root
  cwd := fs.cwd
  unused j hj := by
    have hji : j ≠ i := by
      have hlt := lt_fresh hi
      omega
    rw [addedNode_of_ne (by omega) hji]
    exact fs.unused j (by omega)
  entries j q more hj := by
    by_cases hfresh : j = fs.fresh
    · -- the new node has no entries
      subst hfresh
      rw [addedNode_fresh, Option.some.injEq] at hj
      obtain rfl | rfl := hchild
      · cases hj
      · obtain ⟨-, rfl⟩ := Node.dir.inj hj
        exact ⟨by simp, List.nodup_nil, by simp, by simp⟩
    · by_cases hji : j = i
      · subst hji
        rw [addedNode_dir hi, Option.some.injEq] at hj
        obtain ⟨rfl, rfl⟩ := Node.dir.inj hj
        obtain ⟨hnames, hnodup, hsome, hparent⟩ := (fs.entries j p es hi).of_parent
          (List.Sublist.refl es) (addedNode_parent name child hi)
        refine ⟨fun e he => ?_, ?_, fun e he => ?_, fun e he r less hdir => ?_⟩
        · rcases List.mem_append.mp he with he | he
          · exact hnames e he
          · rw [List.mem_singleton.mp he]
            exact hname
        · rw [List.map_append, List.nodup_append]
          refine ⟨hnodup, List.nodup_singleton _, fun a ha b hb => ?_⟩
          rintro rfl
          obtain rfl := List.mem_singleton.mp hb
          exact lookup_eq_none_iff.mp hfree ha
        · rcases List.mem_append.mp he with he | he
          · exact hsome e he
          · rw [List.mem_singleton.mp he, addedNode_fresh]
            rfl
        · rcases List.mem_append.mp he with he | he
          · exact hparent e he r less hdir
          · rw [List.mem_singleton.mp he, addedNode_fresh, Option.some.injEq] at hdir
            obtain rfl | rfl := hchild
            · cases hdir
            · exact (Node.dir.inj hdir).1.symm
      · rw [addedNode_of_ne hfresh hji] at hj
        exact (fs.entries j q more hj).of_parent (List.Sublist.refl more)
          (addedNode_parent name child hi)

/-- A new empty file or directory, when `i` is a directory that does not have the name yet. -/
def create (fs : FileSystem) (i : Nat) (name : List Byte) (child : Node)
    (hchild : child = .file [] ∨ child = .dir i []) : Option FileSystem :=
  if hname : IsName name then
    match hi : fs.node i with
    | some (.dir _ es) =>
        match hfree : lookup es name with
        | none => some (fs.add hi hname hfree child hchild)
        | some _ => none
    | _ => none
  else none

/-- What a new entry in directory `i` is. -/
structure Created (fs : FileSystem) (i : Nat) (name : List Byte) (child : Node)
    (fs' : FileSystem) : Prop where
  isName : IsName name
  dir : ∃ p es, fs.node i = some (.dir p es) ∧ lookup es name = none ∧
    fs'.node = fs.addedNode i p es name child
  fresh : fs'.fresh = fs.fresh + 1
  root : fs'.root = fs.root
  cwd : fs'.cwd = fs.cwd

theorem created_of_create {fs fs' : FileSystem} {i : Nat} {name : List Byte} {child : Node}
    {hchild : child = .file [] ∨ child = .dir i []}
    (h : fs.create i name child hchild = some fs') : fs.Created i name child fs' := by
  unfold create at h
  split at h
  case isTrue hname =>
      split at h
      case h_1 p es hi =>
          split at h
          case h_1 hfree =>
              obtain rfl := Option.some.inj h
              exact ⟨hname, ⟨p, es, hi, hfree, rfl⟩, rfl, rfl, rfl⟩
          case h_2 => cases h
      case h_2 => cases h
  case isFalse => cases h

theorem create_of_free {fs : FileSystem} {i p : Nat} {es : List (List Byte × Nat)}
    {name : List Byte} (hname : IsName name) (hi : fs.node i = some (.dir p es))
    (hfree : lookup es name = none) (child : Node) (hchild : child = .file [] ∨ child = .dir i []) :
    ∃ fs', fs.create i name child hchild = some fs' := by
  unfold create
  rw [dif_pos hname]
  split
  case h_1 q more hi' =>
      obtain ⟨-, rfl⟩ := Node.dir.inj (Option.some.inj (hi.symm.trans hi'))
      split
      case h_1 => exact ⟨_, rfl⟩
      case h_2 j hj =>
          rw [hfree] at hj
          cases hj
  case h_2 hno => exact absurd hi (hno p es)

end FileSystem

/-! ### Lists of nodes -/

/-- The entries of node number `i` in a list of nodes are as they have to be. -/
def Node.isGood (nodes : List Node) (i : Nat) : Node → Bool
  | .dir _ es =>
      decide (es.map Prod.fst).Nodup && es.all fun e =>
        decide (IsName e.1) && (nodes[e.2]?).isSome &&
          ((nodes[e.2]?).bind Node.parent).all fun p => p = i
  | _ => true

/-- The file system with these nodes; the first is the root and the current directory. -/
def FileSystem.ofList (nodes : List Node)
    (h : (nodes.zipIdx.all fun node => node.1.isGood nodes node.2) = true) : FileSystem where
  node i := nodes[i]?
  fresh := nodes.length
  root := 0
  cwd := 0
  unused _ hi := List.getElem?_eq_none hi
  entries i p es hi := by
    have hmem : (Node.dir p es, i) ∈ nodes.zipIdx := List.mem_zipIdx_iff_getElem?.mpr hi
    have hgood := List.all_eq_true.mp h _ hmem
    simp only [Node.isGood, Bool.and_eq_true, List.all_eq_true, decide_eq_true_eq] at hgood
    obtain ⟨hnodup, hall⟩ := hgood
    refine ⟨fun e he => (hall e he).1.1, hnodup, fun e he => (hall e he).1.2,
      fun e he q more hq => ?_⟩
    simpa [hq, Node.parent] using (hall e he).2

end Files
end OperatingSystems
