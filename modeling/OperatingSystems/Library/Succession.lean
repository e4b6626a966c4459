import Mathlib.Data.List.Nodup
import Mathlib.Data.List.Perm.Basic
import OperatingSystems.Library.Chain

/-!
# Successors in a list

`succ l a` is the element after `a` in a list without repetitions.  Two neighbours `c`,
`x` after `p` can change places; nothing else changes its successor.

* `exists_of_mem`, `exists_of_succ` — an element, or a successor, splits the list.
* `Exchanged` — the two neighbours after `p` have changed places, and what this does to
  successors (`Exchanged.succ_of_ne` and the three others) and to initial parts
  (`Exchanged.upto_perm`).
* `chain_of_succ` — a memory whose pointers are the successors holds the list as a chain.
-/

namespace OperatingSystems
namespace Succession

variable {α : Type*} [DecidableEq α] {l u w : List α} {a b p c x : α}

omit [DecidableEq α] in
theorem not_mem_left (hnodup : (u ++ a :: w).Nodup) : a ∉ u :=
  fun hu => (List.nodup_append.mp hnodup).2.2 a hu a (by simp) rfl

/-- The element after `a`. -/
def succ (l : List α) (a : α) : Option α :=
  l[l.idxOf a + 1]?

theorem succ_append_cons (h : a ∉ u) : succ (u ++ a :: w) a = w.head? := by
  rw [succ, List.idxOf_append_of_notMem h, List.idxOf_cons_self, Nat.add_zero,
    List.getElem?_append_right (Nat.le_succ _)]
  cases w <;> simp

theorem succ_of_not_mem (h : a ∉ l) : succ l a = none := by
  rw [succ, List.idxOf_of_notMem h]
  simp

omit [DecidableEq α] in
/-- An element splits a list without repetitions. -/
theorem exists_of_mem (h : a ∈ l) (hnodup : l.Nodup) :
    ∃ u w, l = u ++ a :: w ∧ a ∉ u ∧ a ∉ w := by
  obtain ⟨u, w, rfl⟩ := List.append_of_mem h
  exact ⟨u, w, rfl, not_mem_left hnodup,
    (List.nodup_cons.mp (List.nodup_append.mp hnodup).2.1).1⟩

theorem mem_of_succ (h : succ l a = some b) : a ∈ l := by
  by_contra hmem
  simp [succ_of_not_mem hmem] at h

/-- A successor splits a list without repetitions. -/
theorem exists_of_succ (h : succ l a = some b) (hnodup : l.Nodup) :
    ∃ u w, l = u ++ a :: b :: w ∧ a ∉ u ∧ a ∉ b :: w := by
  obtain ⟨u, w, rfl, hu, hw⟩ := exists_of_mem (mem_of_succ h) hnodup
  rw [succ_append_cons hu] at h
  obtain ⟨w, rfl⟩ := List.head?_eq_some_iff.mp h
  exact ⟨u, w, rfl, hu, hw⟩

theorem mem_of_succ_right (h : succ l a = some b) (hnodup : l.Nodup) : b ∈ l := by
  obtain ⟨u, w, rfl, -, -⟩ := exists_of_succ h hnodup
  simp

theorem succ_ne (h : succ l a = some b) (hnodup : l.Nodup) : b ≠ a := by
  obtain ⟨u, w, rfl, -, hw⟩ := exists_of_succ h hnodup
  rintro rfl
  simp at hw

/-- A list goes up by one from an element to the next. -/
theorem idxOf_succ (h : succ l a = some b) (hnodup : l.Nodup) : l.idxOf b = l.idxOf a + 1 := by
  obtain ⟨u, w, rfl, hu, hw⟩ := exists_of_succ h hnodup
  have hne : a ≠ b := fun heq => hw (by simp [heq])
  have hub : b ∉ u ++ [a] := not_mem_left (w := w) (by simpa using hnodup)
  have hub : b ∉ u := fun hmem => hub (by simp [hmem])
  rw [List.idxOf_append_of_notMem hu, List.idxOf_append_of_notMem hub, List.idxOf_cons_self,
    List.idxOf_cons_ne _ hne, List.idxOf_cons_self]

/-- The list up to `a`. -/
def upto (l : List α) (a : α) : List α :=
  l.take (l.idxOf a + 1)

theorem upto_append_cons (h : a ∉ u) : upto (u ++ a :: w) a = u ++ [a] := by
  have hsplit : u ++ a :: w = (u ++ [a]) ++ w := by simp
  rw [upto, List.idxOf_append_of_notMem h, List.idxOf_cons_self, Nat.add_zero, hsplit]
  exact List.take_left' (by simp)

theorem upto_succ (h : succ l a = some b) (hnodup : l.Nodup) :
    upto l b = upto l a ++ [b] := by
  obtain ⟨u, w, rfl, hu, -⟩ := exists_of_succ h hnodup
  have hub : b ∉ u ++ [a] := not_mem_left (w := w) (by simpa using hnodup)
  rw [upto_append_cons hu]
  have := upto_append_cons (w := w) hub
  simpa using this

/-- The last element has the whole list before it. -/
theorem upto_of_succ_none (hmem : a ∈ l) (hnodup : l.Nodup) (h : succ l a = none) :
    upto l a = l := by
  obtain ⟨u, w, rfl, hu, -⟩ := exists_of_mem hmem hnodup
  rw [succ_append_cons hu, List.head?_eq_none_iff] at h
  rw [upto_append_cons hu, h]

/-- The two elements after `p` have changed places. -/
def Exchanged (p c x : α) (l l' : List α) : Prop :=
  ∃ u w, l = u ++ p :: c :: x :: w ∧ l' = u ++ p :: x :: c :: w

theorem exists_exchanged (hnodup : l.Nodup) (hpc : succ l p = some c) (hcx : succ l c = some x) :
    ∃ l', Exchanged p c x l l' := by
  obtain ⟨u, w, rfl, hu, -⟩ := exists_of_succ hpc hnodup
  have hcu : c ∉ u ++ [p] := not_mem_left (w := w) (by simpa using hnodup)
  have hhead := succ_append_cons (w := w) hcu
  rw [List.append_assoc, List.singleton_append, hcx] at hhead
  obtain ⟨w, rfl⟩ := List.head?_eq_some_iff.mp hhead.symm
  exact ⟨_, u, w, rfl, rfl⟩

namespace Exchanged

variable {l' : List α}

omit [DecidableEq α] in
theorem perm (h : Exchanged p c x l l') : l'.Perm l := by
  obtain ⟨u, w, rfl, rfl⟩ := h
  exact ((List.Perm.swap c x w).cons p).append_left u

omit [DecidableEq α] in
theorem head? (h : Exchanged p c x l l') : l'.head? = l.head? := by
  obtain ⟨u, w, rfl, rfl⟩ := h
  cases u <;> rfl

omit [DecidableEq α] in
/-- What the two lists look like around the three elements. -/
theorem not_mem (h : Exchanged p c x l l') (hnodup : l.Nodup) : ∃ u w,
    l = u ++ p :: c :: x :: w ∧ l' = u ++ p :: x :: c :: w ∧ p ∉ u ∧ c ∉ u ++ [p] ∧
      x ∉ u ++ [p] ∧ c ≠ x := by
  have hnodup' := h.perm.nodup_iff.mpr hnodup
  obtain ⟨u, w, rfl, rfl⟩ := h
  have hcx : c ∉ u ++ [p, x] := not_mem_left (w := w) (by simpa using hnodup')
  refine ⟨u, w, rfl, rfl, not_mem_left hnodup, ?_, ?_, fun heq => hcx (by simp [heq])⟩
  · exact not_mem_left (w := x :: w) (by simpa using hnodup)
  · exact not_mem_left (w := c :: w) (by simpa using hnodup')

section Nodup

variable (h : Exchanged p c x l l') (hnodup : l.Nodup)

include h hnodup

theorem succ_first : succ l' p = some x := by
  obtain ⟨u, w, rfl, rfl, hp, -⟩ := h.not_mem hnodup
  rw [succ_append_cons hp]
  rfl

theorem succ_second : succ l' x = some c := by
  obtain ⟨u, w, rfl, rfl, -, -, hx, -⟩ := h.not_mem hnodup
  have := succ_append_cons (w := c :: w) hx
  simpa using this

theorem succ_third : succ l' c = succ l x := by
  obtain ⟨u, w, rfl, rfl, -, hc, hx, hcx⟩ := h.not_mem hnodup
  have hx' : x ∉ u ++ [p, c] := by simp_all [eq_comm]
  have hc' : c ∉ u ++ [p, x] := by simp_all [eq_comm]
  have hleft := succ_append_cons (w := w) hc'
  have hright := succ_append_cons (w := w) hx'
  simp only [List.append_assoc, List.cons_append, List.nil_append] at hleft hright
  rw [hleft, hright]

omit [DecidableEq α] in
/-- Where an element other than the two stands in both lists. -/
theorem exists_common (hmem : a ∈ l) (hac : a ≠ c) (hax : a ≠ x) : ∃ v v' k k',
    l = v ++ a :: k ∧ l' = v' ++ a :: k' ∧ a ∉ v ∧ a ∉ v' ∧ v'.Perm v ∧
      (a ≠ p → k'.head? = k.head?) := by
  have hnodup' := h.perm.nodup_iff.mpr hnodup
  obtain ⟨u, w, rfl, rfl⟩ := h
  have hcases : a ∈ u ∨ a = p ∨ a ∈ w := by simpa [hac, hax] using hmem
  obtain hu | rfl | hw := hcases
  · obtain ⟨v, k, rfl, hv, -⟩ := exists_of_mem hu (List.nodup_append.mp hnodup).1
    refine ⟨v, v, k ++ p :: c :: x :: w, k ++ p :: x :: c :: w, by simp, by simp, hv, hv, .refl v, ?_⟩
    intro _
    cases k <;> rfl
  · have ha : a ∉ u := not_mem_left hnodup
    exact ⟨u, u, _, _, rfl, rfl, ha, ha, .refl u, fun hne => absurd rfl hne⟩
  · have hsplit : ∀ y z : α, (u ++ p :: y :: z :: w).Nodup → a ∉ u ++ [p, y, z] := by
      intro y z hyz
      have hyz' : ((u ++ [p, y, z]) ++ w).Nodup := by simpa using hyz
      obtain ⟨-, -, hdisjoint⟩ := List.nodup_append.mp hyz'
      exact fun hmem => hdisjoint a hmem a hw rfl
    have hwnodup : w.Nodup := by
      have : ((u ++ [p, c, x]) ++ w).Nodup := by simpa using hnodup
      exact (List.nodup_append.mp this).2.1
    obtain ⟨v, k, rfl, hv, -⟩ := exists_of_mem hw hwnodup
    refine ⟨u ++ [p, c, x] ++ v, u ++ [p, x, c] ++ v, k, k, by simp, by simp, ?_, ?_, ?_, fun _ => rfl⟩
    · exact fun hmem => (List.mem_append.mp hmem).elim (hsplit c x hnodup) hv
    · exact fun hmem => (List.mem_append.mp hmem).elim (hsplit x c hnodup') hv
    · exact (((List.Perm.swap c x []).cons p).append_left u).append_right v

theorem succ_of_ne (hap : a ≠ p) (hac : a ≠ c) (hax : a ≠ x) : succ l' a = succ l a := by
  by_cases hmem : a ∈ l
  · obtain ⟨v, v', k, k', hl, hl', hv, hv', -, hhead⟩ := h.exists_common hnodup hmem hac hax
    rw [hl, hl', succ_append_cons hv, succ_append_cons hv', hhead hap]
  · rw [succ_of_not_mem hmem, succ_of_not_mem fun hmem' => hmem (h.perm.mem_iff.mp hmem')]

/-- The part of the list up to another element keeps its elements. -/
theorem upto_perm (hmem : a ∈ l) (hac : a ≠ c) (hax : a ≠ x) : (upto l' a).Perm (upto l a) := by
  obtain ⟨v, v', k, k', hl, hl', hv, hv', hperm, -⟩ := h.exists_common hnodup hmem hac hax
  rw [hl, hl', upto_append_cons hv, upto_append_cons hv']
  exact hperm.append_right [a]

end Nodup

end Exchanged

/-- Pointers to the successors make a chain. -/
theorem chain_of_succ {next : α → Option α} (hnodup : l.Nodup) (h : ∀ a ∈ l, next a = succ l a) :
    Chain next l.head? l := by
  -- The chain is built from its end: `u` is what lies before the rest.
  suffices ∀ u w : List α, l = u ++ w → Chain next w.head? w from this [] l rfl
  intro u w
  induction w generalizing u with
  | nil => exact fun _ => rfl
  | cons a w ih =>
      intro hl
      have ha : a ∉ u := not_mem_left (hl ▸ hnodup)
      refine ⟨rfl, ?_⟩
      rw [h a (by simp [hl]), hl, succ_append_cons ha]
      exact ih (u ++ [a]) (by simp [hl])

end Succession
end OperatingSystems
