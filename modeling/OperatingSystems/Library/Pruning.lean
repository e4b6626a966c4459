import OperatingSystems.Library.FileCalls

/-!
# Changes that only take entries away

* `Pruned allowed old new` — every node of `old` is in `new`; directories may have lost entries, but
  only those that `allowed` names.
* `Pruned.unlink`, `Pruned.rmdir` — the calls that take an entry away.
* `Inside fs root` — the directories that are reached from `root` through entries that are
  directories themselves, so not through links.
-/

namespace OperatingSystems
namespace Files

variable {allowed allowed' : Nat → Nat → Prop} {old fs new : FileSystem} {i j d : Nat}
  {path name : List Byte} {es : List (List Byte × Nat)}

theorem lookup_of_mem (hnodup : (es.map Prod.fst).Nodup) (h : (name, i) ∈ es) :
    lookup es name = some i := by
  cases hj : lookup es name with
  | none => exact absurd (List.mem_map_of_mem h) (lookup_eq_none_iff.mp hj)
  | some j =>
      have hmem := mem_of_lookup hj
      have heq : (name, i) = (name, j) := List.inj_on_of_nodup_map hnodup h hmem rfl
      rw [(Prod.mk.inj heq).2]

/-- The first directory still is what it was, without some of the entries. -/
structure Pruned (allowed : Nat → Nat → Prop) (old new : FileSystem) : Prop where
  root : new.root = old.root
  cwd : new.cwd = old.cwd
  missing : ∀ i, old.node i = none → new.node i = none
  kept : ∀ i node, old.node i = some node → (∀ p es, node ≠ .dir p es) → new.node i = some node
  dir : ∀ i p es, old.node i = some (.dir p es) →
    ∃ es', new.node i = some (.dir p es') ∧ es'.Sublist es ∧
      ∀ e ∈ es, e ∉ es' → allowed i e.2

namespace Pruned

theorem refl (allowed : Nat → Nat → Prop) (fs : FileSystem) : Pruned allowed fs fs :=
  ⟨rfl, rfl, fun _ h => h, fun _ _ h _ => h,
    fun _ _ es h => ⟨es, h, List.Sublist.refl es, fun _ he hno => absurd he hno⟩⟩

/-- Nothing is found that was not found before. -/
theorem within (h : Pruned allowed old new) : new.Within old := by
  refine ⟨h.root, h.cwd, fun i node hi => ?_⟩
  cases hold : old.node i with
  | none => simp [h.missing i hold] at hi
  | some n =>
      refine ⟨n, rfl, ?_⟩
      cases n with
      | dir p es =>
          obtain ⟨es', hes', hsublist, -⟩ := h.dir i p es hold
          obtain rfl := Option.some.inj (hi.symm.trans hes')
          exact .dir p fun name j hj =>
            lookup_of_mem (old.entries i p es hold).nodup (hsublist.subset (mem_of_lookup hj))
      | _ =>
          obtain rfl := Option.some.inj (hi.symm.trans (h.kept i _ hold (by simp)))
          exact Node.Within.refl _

theorem isDir_of (h : Pruned allowed old new) (hi : old.isDir i = true) :
    new.isDir i = true := by
  obtain ⟨p, es, hnode⟩ := FileSystem.isDir_iff.mp hi
  obtain ⟨es', hes', -⟩ := h.dir i p es hnode
  exact FileSystem.isDir_iff.mpr ⟨p, es', hes'⟩

theorem isDir_false (h : Pruned allowed old new) (hi : new.isDir i = false) :
    old.isDir i = false := by
  by_contra hdir
  have hnew := h.isDir_of (by simpa using hdir)
  rw [hi] at hnew
  cases hnew

/-- One more entry is taken away. -/
theorem remove (h : Pruned allowed old fs) (hj : fs.entry i name = some j) (ha : allowed i j) :
    Pruned allowed old (fs.remove i name) := by
  refine ⟨h.root, h.cwd, fun k hk => ?_, fun k node hk hno => ?_, fun k p es hk => ?_⟩
  · rw [FileSystem.node_remove]
    split
    case isTrue hki => rw [← hki, h.missing k hk, Option.map_none]
    case isFalse => exact h.missing k hk
  · have hnode := h.kept k node hk hno
    rw [FileSystem.node_remove]
    split
    case isTrue hki =>
        rw [← hki, hnode, Option.map_some]
        cases node with
        | dir p es => exact absurd rfl (hno p es)
        | _ => rfl
    case isFalse => exact hnode
  · obtain ⟨es', hes', hsublist, hallowed⟩ := h.dir k p es hk
    rw [FileSystem.node_remove]
    split
    case isFalse => exact ⟨es', hes', hsublist, hallowed⟩
    case isTrue hki =>
        subst hki
        rw [hes', Option.map_some]
        refine ⟨_, rfl, List.filter_sublist.trans hsublist, fun e he hno => ?_⟩
        by_cases hmem : e ∈ es'
        · have hname : e.1 = name := by
            by_contra hne
            exact hno (List.mem_filter.mpr ⟨hmem, by simpa using hne⟩)
          have hentry : lookup es' name = some j := by
            simpa [FileSystem.entry, hes'] using hj
          have hej : lookup es' name = some e.2 :=
            lookup_of_mem (fs.entries k p es' hes').nodup (hname ▸ hmem)
          obtain rfl := Option.some.inj (hej.symm.trans hentry)
          exact ha
        · exact hallowed e he hmem

theorem mono (h : Pruned allowed old new) (hle : ∀ i j, allowed i j → allowed' i j) :
    Pruned allowed' old new := by
  refine ⟨h.root, h.cwd, h.missing, h.kept, fun i p es hi => ?_⟩
  obtain ⟨es', hes', hsublist, hallowed⟩ := h.dir i p es hi
  exact ⟨es', hes', hsublist, fun e he hno => hle i e.2 (hallowed e he hno)⟩

end Pruned

/-! ### The tree below a directory -/

/-- The directories below `root`, itself included. -/
inductive Inside (fs : FileSystem) (root : Nat) : Nat → Prop
  | root : Inside fs root root
  | entry {i p j : Nat} {es : List (List Byte × Nat)} {name : List Byte} (hi : Inside fs root i)
      (hes : fs.node i = some (.dir p es)) (hj : (name, j) ∈ es) (hdir : fs.isDir j = true) :
      Inside fs root j

/-- A directory inside is the root, or the directory that names it is inside. -/
theorem Inside.parent {k p : Nat} (h : Inside fs d j) (hes : fs.node k = some (.dir p es))
    (hj : (name, j) ∈ es) : j = d ∨ Inside fs d k := by
  cases h with
  | root => exact .inl rfl
  | entry hi hes' hj' hdir =>
      obtain ⟨q, more, hnode⟩ := FileSystem.isDir_iff.mp hdir
      have hparent := (fs.entries _ _ _ hes').parent _ hj' q more hnode
      have hparent' := (fs.entries _ _ _ hes).parent _ hj q more hnode
      obtain rfl := hparent.symm.trans hparent'
      exact .inr hi

theorem Inside.isDir (h : Inside fs d i) (hd : fs.isDir d = true) : fs.isDir i = true := by
  cases h with
  | root => exact hd
  | entry _ _ _ hdir => exact hdir

theorem Inside.child (h : Inside fs d i) (hj : fs.entry i name = some j)
    (hdir : fs.isDir j = true) : Inside fs d j := by
  obtain ⟨p, es, hi, hlookup⟩ := FileSystem.entry_eq_some_iff.mp hj
  exact h.entry hi (mem_of_lookup hlookup) hdir

theorem Inside.trans (h : Inside fs d i) (h' : Inside fs i j) : Inside fs d j := by
  induction h' with
  | root => exact h
  | entry _ hes hj hdir ih => exact ih.entry hes hj hdir

/-- What names a directory inside is inside too, or the directory is the root. -/
theorem Inside.of_entry (h : Inside fs d j) (hj : fs.entry i name = some j) :
    j = d ∨ Inside fs d i := by
  obtain ⟨p, es, hi, hlookup⟩ := FileSystem.entry_eq_some_iff.mp hj
  exact h.parent hi (mem_of_lookup hlookup)

end Files
end OperatingSystems
