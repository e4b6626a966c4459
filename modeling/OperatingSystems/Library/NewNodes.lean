import OperatingSystems.Library.FileCalls

/-!
# Changes of new nodes only

The nodes of a file system from some number on are new.  When new nodes are files and directories
that only name new nodes, what a program does below a new directory changes new nodes only.

* `NewFrom` — the invariant of the new nodes.
* `Spares` — a change of new nodes: nothing is lost and the old nodes are as they were.
* `LeadsNew` — a path to a new directory; `mkdir_spares`, `openForWriting_spares` — the calls below
  such a directory.
-/

namespace OperatingSystems
namespace Files

variable {first d i k : Nat} {fs fs' fs'' : FileSystem} {path name bytes : List Byte}

/-- The nodes from `first` on are files, and directories that only name such nodes. -/
structure NewFrom (first : Nat) (fs : FileSystem) : Prop where
  le : first ≤ fs.fresh
  closed : ∀ i node, first ≤ i → fs.node i = some node →
    (∃ bytes, node = .file bytes) ∨ ∃ p es, node = .dir p es ∧ ∀ e ∈ es, first ≤ e.2

/-- The nodes in front of `first` are as they were. -/
structure Spares (first : Nat) (fs fs' : FileSystem) : Prop where
  newFrom : NewFrom first fs'
  within : fs.Within fs'
  old : ∀ i, i < first → fs'.node i = fs.node i

/-- A path to a new directory. -/
def LeadsNew (first : Nat) (fs : FileSystem) (path : List Byte) : Prop :=
  ∃ d, first ≤ d ∧ fs.find path = some d ∧ fs.isDir d = true

theorem LeadsNew.of_within (h : LeadsNew first fs path) (hwithin : fs.Within fs') :
    LeadsNew first fs' path := by
  obtain ⟨d, hd, hfind, hdir⟩ := h
  exact ⟨d, hd, hwithin.find hfind, hwithin.isDir hdir⟩

namespace Spares

theorem refl (h : NewFrom first fs) : Spares first fs fs :=
  ⟨h, FileSystem.Within.refl fs, fun _ _ => rfl⟩

theorem trans (h : Spares first fs fs') (h' : Spares first fs' fs'') : Spares first fs fs'' := by
  refine ⟨h'.newFrom, h.within.trans h'.within, fun i hi => ?_⟩
  rw [h'.old i hi, h.old i hi]

theorem write (h : NewFrom first fs) (hi : first ≤ i) (bytes : List Byte) :
    Spares first fs (fs.write i bytes) := by
  refine ⟨⟨h.le, fun j node hj hnode => ?_⟩, FileSystem.within_write fs i bytes, fun j hj => ?_⟩
  · rw [FileSystem.node_write] at hnode
    split at hnode
    case isTrue hji =>
        subst hji
        obtain ⟨n, hn, rfl⟩ := Option.map_eq_some_iff.mp hnode
        obtain ⟨bytes', rfl⟩ | ⟨p, es, rfl, hes⟩ := h.closed j n hj hn
        · exact .inl ⟨bytes, rfl⟩
        · exact .inr ⟨p, es, rfl, hes⟩
    case isFalse => exact h.closed j node hj hnode
  · have hne : j ≠ i := by omega
    rw [FileSystem.node_write, if_neg hne]

theorem create {child : Node} (h : NewFrom first fs) (hd : first ≤ d)
    (hchild : child = .file [] ∨ child = .dir d []) (hcreated : fs.Created d name child fs') :
    Spares first fs fs' := by
  obtain ⟨p, es, hnode, -, hnode'⟩ := hcreated.dir
  have hfresh := FileSystem.lt_fresh hnode
  have hle := h.le
  refine ⟨⟨by rw [hcreated.fresh]; omega, fun j node hj hj' => ?_⟩, hcreated.within,
    fun j hj => ?_⟩
  · rw [hnode'] at hj'
    by_cases hjf : j = fs.fresh
    · subst hjf
      rw [FileSystem.addedNode_fresh, Option.some.injEq] at hj'
      subst hj'
      obtain rfl | rfl := hchild
      · exact .inl ⟨[], rfl⟩
      · exact .inr ⟨d, [], rfl, by simp⟩
    · by_cases hjd : j = d
      · subst hjd
        rw [FileSystem.addedNode_dir hnode, Option.some.injEq] at hj'
        refine .inr ⟨p, _, hj'.symm, fun e he => ?_⟩
        rcases List.mem_append.mp he with he | he
        · obtain ⟨bytes, hfile⟩ | ⟨q, more, hdir, hmore⟩ := h.closed j _ hj hnode
          · cases hfile
          · obtain ⟨-, rfl⟩ := Node.dir.inj hdir
            exact hmore e he
        · rw [List.mem_singleton.mp he]
          exact hle
      · rw [FileSystem.addedNode_of_ne hjf hjd] at hj'
        exact h.closed j node hj hj'
  · rw [hnode', FileSystem.addedNode_of_ne (by omega) (by omega)]

/-- What spares the nodes up to a later number spares those up to an earlier one. -/
theorem lower {second : Nat} (h : NewFrom first fs) (hle : first ≤ second)
    (hspares : Spares second fs fs') : Spares first fs fs' := by
  have hfresh := hspares.newFrom.le
  refine ⟨⟨by omega, fun j node hj hnode => ?_⟩, hspares.within,
    fun j hj => hspares.old j (by omega)⟩
  by_cases hjs : j < second
  · rw [hspares.old j hjs] at hnode
    exact h.closed j node hj hnode
  · rcases hspares.newFrom.closed j node (by omega) hnode with hfile | ⟨p, es, hdir, hes⟩
    · exact .inl hfile
    · exact .inr ⟨p, es, hdir, fun e he => hle.trans (hes e he)⟩

end Spares

/-- The only node that is new behind the creation of an entry is its node. -/
theorem FileSystem.Created.newFrom {child : Node} (h : fs.Created d name child fs')
    (hchild : child = .file [] ∨ child = .dir d []) : NewFrom fs.fresh fs' := by
  obtain ⟨p, es, hnode, -, hnode'⟩ := h.dir
  have hlt := lt_fresh hnode
  refine ⟨by rw [h.fresh]; omega, fun j node hj hj' => ?_⟩
  rw [hnode'] at hj'
  by_cases hjf : j = fs.fresh
  · subst hjf
    rw [addedNode_fresh, Option.some.injEq] at hj'
    subst hj'
    obtain rfl | rfl := hchild
    · exact .inl ⟨[], rfl⟩
    · exact .inr ⟨d, [], rfl, by simp⟩
  · rw [addedNode_of_ne hjf (by omega), fs.unused j hj] at hj'
    cases hj'

/-! ### Calls below a new directory -/

namespace FileSystem

/-- The entries of a new directory are new nodes, and no links. -/
theorem entry_new {p : Nat} {es : List (List Byte × Nat)} (h : NewFrom first fs) (hd : first ≤ d)
    (hnode : fs.node d = some (.dir p es)) (hk : lookup es name = some k) :
    first ≤ k ∧ ∃ n, fs.node k = some n ∧ ∀ target, n ≠ .link target := by
  have hmem := mem_of_lookup hk
  obtain ⟨bytes, hfile⟩ | ⟨q, more, hdir, hmore⟩ := h.closed d _ hd hnode
  · cases hfile
  · obtain ⟨-, rfl⟩ := Node.dir.inj hdir
    have hk' : first ≤ k := hmore _ hmem
    obtain ⟨n, hn⟩ := Option.isSome_iff_exists.mp ((fs.entries d p es hnode).isSome _ hmem)
    refine ⟨hk', n, hn, fun target hlink => ?_⟩
    obtain ⟨bytes, rfl⟩ | ⟨q', more', rfl, -⟩ := h.closed k n hk' hn <;> cases hlink

/-- A directory that is found below a new one is new. -/
theorem leadsNew_find (h : NewFrom first fs) (hlead : LeadsNew first fs path) (hname : IsName name)
    (hk : fs.find (path ++ slash :: name) = some k) (hdir : fs.isDir k = true) :
    LeadsNew first fs (path ++ slash :: name) := by
  obtain ⟨d, hd, hfind, -⟩ := hlead
  have hplace := place_append hfind hname (find_eq_some_iff.mp hk).1
  obtain ⟨p, es, j, n, hnode, hj, hn, hjk⟩ := entry_of_find hplace hk
  obtain ⟨hfirst, n', hn', hlink⟩ := entry_new h hd hnode hj
  obtain rfl := Option.some.inj (hn.symm.trans hn')
  obtain rfl := hjk hlink
  exact ⟨j, hfirst, hk, hdir⟩

/-- The directory that `mkdir` makes is found under its path. -/
theorem find_mkdir (hplace : fs.place path = some (d, name))
    (hcreated : fs.Created d name (.dir d []) fs') :
    fs'.find path = some fs.fresh ∧ fs'.isDir fs.fresh = true := by
  obtain ⟨p, es, hnode, hfree, hnode'⟩ := hcreated.dir
  have hdir : fs'.isDir fs.fresh = true :=
    isDir_iff.mpr ⟨d, [], by rw [hnode', addedNode_fresh]⟩
  have hd : fs'.node d = some (.dir p (es ++ [(name, fs.fresh)])) := by
    rw [hnode', addedNode_dir hnode]
  have hentry : lookup (es ++ [(name, fs.fresh)]) name = some fs.fresh := by
    rw [lookup_concat, hfree, if_pos rfl]
    rfl
  exact ⟨find_of_place (hcreated.within.place hplace) hd hentry hdir, hdir⟩

theorem mkdir_spares (h : NewFrom first fs) (hlead : LeadsNew first fs path)
    (hname : IsName name) (hmkdir : fs.mkdir (path ++ slash :: name) = some fs') :
    Spares first fs fs' ∧ LeadsNew first fs' (path ++ slash :: name) := by
  obtain ⟨d, hd, hfind, -⟩ := hlead
  obtain ⟨d', name', hplace, hcreated⟩ := mkdir_eq_some hmkdir
  have hpath := (place_eq_some_iff.mp hplace).1
  obtain ⟨rfl, rfl⟩ : d = d' ∧ name = name' := by
    rw [place_append hfind hname hpath, Option.some.injEq, Prod.mk.injEq] at hplace
    exact hplace
  obtain ⟨hfind', hdir'⟩ := find_mkdir hplace hcreated
  exact ⟨Spares.create h hd (.inr rfl) hcreated, fs.fresh, h.le, hfind', hdir'⟩

/-- A file that is opened for writing below a new directory is new. -/
theorem openForWriting_spares (h : NewFrom first fs) (hlead : LeadsNew first fs path)
    (hname : IsName name) (hopen : fs.openForWriting (path ++ slash :: name) = some (i, fs')) :
    first ≤ i ∧ Spares first fs fs' := by
  obtain ⟨d, hd, hfind, hdir⟩ := hlead
  have hresolved : fs.resolve (path ++ slash :: name) ≠ none := by
    intro hnone
    simp [openForWriting, hnone] at hopen
  have hpath : isPath (path ++ slash :: name) = true := by
    by_contra hno
    exact hresolved (if_neg hno)
  obtain ⟨links, hresolve⟩ := resolve_of_place (place_append hfind hname hpath)
  rw [endsInSlash_slash hname.2.1] at hresolve
  simp only [hname.1, decide_false, Bool.false_eq_true, if_false] at hresolve
  obtain ⟨p, es, hnode⟩ := isDir_iff.mp hdir
  obtain ⟨hmissing, hentry⟩ := walk_name links hnode hname.2.2
  rcases openForWriting_eq_some hopen with ⟨hfound, -, rfl⟩ | ⟨d', name', hfound, rfl, hcreated⟩
  · cases hk : lookup es name with
    | none =>
        rw [hresolve, hmissing hk] at hfound
        cases hfound
    | some k =>
        obtain ⟨hfirst, n, hn, hlink⟩ := entry_new h hd hnode hk
        rw [hresolve, hentry k n hk hn hlink, walk_nil, Option.some.injEq] at hfound
        obtain rfl := Found.node.inj hfound
        exact ⟨hfirst, Spares.write h hfirst []⟩
  · cases hk : lookup es name with
    | none =>
        rw [hresolve, hmissing hk, Option.some.injEq] at hfound
        obtain ⟨rfl, rfl⟩ := Found.missing.inj hfound
        exact ⟨h.le, Spares.create h hd (.inl rfl) hcreated⟩
    | some k =>
        obtain ⟨hfirst, n, hn, hlink⟩ := entry_new h hd hnode hk
        rw [hresolve, hentry k n hk hn hlink, walk_nil] at hfound
        cases hfound

/-- Behind a `mkdir`, everything from the new directory on is new. -/
theorem mkdir_new (hmkdir : fs.mkdir path = some fs') :
    NewFrom fs.fresh fs' ∧ LeadsNew fs.fresh fs' path := by
  obtain ⟨d, name, hplace, hcreated⟩ := mkdir_eq_some hmkdir
  obtain ⟨hfind, hdir⟩ := find_mkdir hplace hcreated
  exact ⟨hcreated.newFrom (.inr rfl), fs.fresh, le_refl _, hfind, hdir⟩

end FileSystem

end Files
end OperatingSystems
