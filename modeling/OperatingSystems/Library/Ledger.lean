import Mathlib.Data.Finset.Card
import Mathlib.Data.Finset.Disjoint
import Mathlib.Logic.Function.Basic

/-!
# A ledger of allocations

An allocator that hands out cells of `α`, and what its two counters say about the cells that
are in use.

* `Ledger` — the cells in use, and the numbers of the allocations and the releases.
* `Ledger.malloc`, `Ledger.free` — the two entries that can be made.
* `Ledger.mallocs_eq` — the balance, when the cells in use are those of a structure and some
  that are lost.
-/

namespace OperatingSystems

variable {α : Type*}

/-- `cells` are the cells in use after this many allocations and releases. -/
structure Ledger (live : α → Bool) (mallocs frees : Nat) (cells : Finset α) : Prop where
  mem_iff : ∀ a, a ∈ cells ↔ live a = true
  card_add : cells.card + frees = mallocs

namespace Ledger

/-- Nothing has been allocated. -/
theorem empty : Ledger (fun _ : α => false) 0 0 ∅ :=
  ⟨fun a => by simp, by simp⟩

variable [DecidableEq α] {live : α → Bool} {mallocs frees : Nat} {cells : Finset α} {a : α}

theorem malloc (h : Ledger live mallocs frees cells) (ha : live a = false) :
    Ledger (Function.update live a true) (mallocs + 1) frees (insert a cells) := by
  have hnew : a ∉ cells := by simp [h.mem_iff, ha]
  refine ⟨fun b => ?_, ?_⟩
  · by_cases hb : b = a
    · simp [hb]
    · simp [hb, h.mem_iff]
  · have hcard := h.card_add
    rw [Finset.card_insert_of_notMem hnew]
    omega

theorem free (h : Ledger live mallocs frees cells) (ha : live a = true) :
    Ledger (Function.update live a false) mallocs (frees + 1) (cells.erase a) := by
  have hold : a ∈ cells := (h.mem_iff a).mpr ha
  refine ⟨fun b => ?_, ?_⟩
  · by_cases hb : b = a
    · simp [hb]
    · simp [hb, h.mem_iff]
  · have hcard := h.card_add
    have herase := Finset.card_erase_add_one hold
    omega

/-- The cells in use are those of a structure and those that are lost. -/
theorem mallocs_eq (lost : Finset α) {l : List α} (h : Ledger live mallocs frees cells)
    (hnodup : l.Nodup) (hl : ∀ a ∈ l, live a = true)
    (hlost : ∀ a, a ∈ lost ↔ live a = true ∧ a ∉ l) :
    mallocs = frees + l.length + lost.card := by
  have hdisjoint : Disjoint l.toFinset lost := by
    rw [Finset.disjoint_left]
    intro a ha hlosta
    exact ((hlost a).mp hlosta).2 (List.mem_toFinset.mp ha)
  have hcells : cells = l.toFinset ∪ lost := by
    ext a
    rw [h.mem_iff, Finset.mem_union, List.mem_toFinset, hlost]
    by_cases ha : a ∈ l
    · simp [ha, hl a ha]
    · simp [ha]
  have hcard := h.card_add
  rw [hcells, Finset.card_union_of_disjoint hdisjoint, List.toFinset_card_of_nodup hnodup] at hcard
  omega

end Ledger
end OperatingSystems
