import Mathlib.Data.List.Nodup
import Mathlib.Logic.Function.Basic

/-!
# Singly linked chains

`Chain next start l` says that following `next` from the pointer `start` visits
exactly the addresses `l`, in order, and then reaches the null pointer.  `l` is
a function of the memory (`Chain.unique`) and lists no address twice
(`Chain.nodup`), so a memory that has a chain from `start` is finite and acyclic
there.

The memory updates of list code are covered by `Chain.push` and `Chain.concat` (insertion at
the head and at the end), `Chain.drop_head` and `Chain.unlink` (removal at the head and after a
predecessor); `Chain.frame` is the frame rule for writes off the chain.
-/

namespace OperatingSystems

/-- Following `next` from `start` visits `l` and ends in the null pointer. -/
def Chain {α : Type*} (next : α → Option α) : Option α → List α → Prop
  | start, [] => start = none
  | start, a :: l => start = some a ∧ Chain next (next a) l

namespace Chain

variable {α : Type*} {next next' : α → Option α} {start : Option α} {a c : α}
  {l l₁ l₂ : List α}

@[simp] theorem nil_iff : Chain next start [] ↔ start = none := Iff.rfl

@[simp] theorem cons_iff :
    Chain next start (a :: l) ↔ start = some a ∧ Chain next (next a) l := Iff.rfl

instance decidable [DecidableEq α] (next : α → Option α) :
    (start : Option α) → (l : List α) → Decidable (Chain next start l)
  | start, [] => inferInstanceAs (Decidable (start = none))
  | start, a :: l =>
      have := decidable next (next a) l
      inferInstanceAs (Decidable (start = some a ∧ Chain next (next a) l))

theorem start_eq_head? (h : Chain next start l) : start = l.head? := by
  cases l with
  | nil => exact h
  | cons a l => exact h.1

theorem start_eq_none_iff (h : Chain next start l) : start = none ↔ l = [] := by
  rw [h.start_eq_head?, List.head?_eq_none_iff]

/-- The visited addresses are a function of the memory. -/
theorem unique (h₁ : Chain next start l₁) (h₂ : Chain next start l₂) : l₁ = l₂ := by
  induction l₁ generalizing start l₂ with
  | nil =>
      cases l₂ with
      | nil => rfl
      | cons b l₂ =>
          rw [nil_iff] at h₁
          simp [h₁] at h₂
  | cons a l₁ ih =>
      cases l₂ with
      | nil =>
          rw [nil_iff] at h₂
          simp [h₂] at h₁
      | cons b l₂ =>
          obtain ⟨ha, hl₁⟩ := h₁
          obtain ⟨hb, hl₂⟩ := h₂
          obtain rfl : a = b := Option.some.inj (ha.symm.trans hb)
          rw [ih hl₁ hl₂]

/-- The rest of a chain is the chain from its first address. -/
theorem suffix (h : Chain next start (l₁ ++ a :: l₂)) : Chain next (some a) (a :: l₂) := by
  induction l₁ generalizing start with
  | nil => exact ⟨rfl, h.2⟩
  | cons b l₁ ih => exact ih h.2

/-- A chain that ends visits no address twice. -/
theorem nodup (h : Chain next start l) : l.Nodup := by
  induction l generalizing start with
  | nil => exact List.nodup_nil
  | cons a l ih =>
      refine List.nodup_cons.mpr ⟨fun hmem => ?_, ih h.2⟩
      -- A second visit of `a` would make a proper suffix equal to the whole chain.
      obtain ⟨l₁, l₂, rfl⟩ := List.append_of_mem hmem
      have hwhole : Chain next (some a) (a :: (l₁ ++ a :: l₂)) := ⟨rfl, h.2⟩
      have heq := hwhole.unique h.2.suffix
      have hlength := congrArg List.length heq
      simp only [List.length_cons, List.length_append] at hlength
      omega

/-- Frame rule: writes off the chain do not change it. -/
theorem frame (hnext : ∀ b ∈ l, next' b = next b) (h : Chain next start l) :
    Chain next' start l := by
  induction l generalizing start with
  | nil => exact h
  | cons b l ih =>
      refine ⟨h.1, ?_⟩
      rw [hnext b (by simp)]
      exact ih (fun x hx => hnext x (by simp [hx])) h.2

theorem update_of_notMem [DecidableEq α] {v : Option α} (ha : a ∉ l)
    (h : Chain next start l) : Chain (Function.update next a v) start l :=
  h.frame fun b hb => Function.update_of_ne (fun hba : b = a => ha (hba ▸ hb)) _ _

/-- Insertion at the head: the new cell points to the old first cell. -/
theorem push [DecidableEq α] (ha : a ∉ l) (h : Chain next start l) :
    Chain (Function.update next a start) (some a) (a :: l) := by
  refine ⟨rfl, ?_⟩
  rw [Function.update_self]
  exact h.update_of_notMem ha

/-- Insertion at the end: the last cell points to the new one. -/
theorem concat [DecidableEq α] {b : α} (h : Chain next start (l ++ [b])) (ha : a ∉ l ++ [b])
    (hnext : next a = none) : Chain (Function.update next b (some a)) start (l ++ [b] ++ [a]) := by
  have hnodup := h.nodup
  induction l generalizing start with
  | nil =>
      have hab : a ≠ b := fun hab => ha (by simp [hab])
      refine ⟨h.1, ?_⟩
      rw [Function.update_self]
      refine ⟨rfl, ?_⟩
      rw [Function.update_of_ne hab]
      exact hnext
  | cons c l ih =>
      simp only [List.cons_append, List.mem_cons, not_or, List.nodup_cons] at h ha hnodup ⊢
      have hcb : c ≠ b := fun hcb => hnodup.1 (by simp [hcb])
      refine ⟨h.1, ?_⟩
      rw [Function.update_of_ne hcb]
      exact ih h.2 ha.2 hnodup.2

/-- Removal at the head. -/
theorem drop_head (h : Chain next start (c :: l)) : Chain next (next c) l := h.2

/-- The pointer out of a cell leads to the rest of the chain. -/
theorem next_eq (h : Chain next start (l₁ ++ a :: l₂)) : next a = l₂.head? :=
  start_eq_head? (l := l₂) h.suffix.2

/-- Removal after a predecessor `a`: its pointer skips the removed cell. -/
theorem unlink [DecidableEq α] (h : Chain next start (l₁ ++ a :: c :: l₂)) :
    Chain (Function.update next a (next c)) start (l₁ ++ a :: l₂) := by
  have hnodup := h.nodup
  induction l₁ generalizing start with
  | nil =>
      simp only [List.nil_append] at h hnodup ⊢
      refine ⟨h.1, ?_⟩
      rw [Function.update_self]
      have htail : a ∉ l₂ := fun hmem => (List.nodup_cons.mp hnodup).1 (by simp [hmem])
      exact h.2.2.update_of_notMem htail
  | cons b l₁ ih =>
      simp only [List.cons_append] at h hnodup ⊢
      refine ⟨h.1, ?_⟩
      have hba : b ≠ a := by
        rintro rfl
        exact (List.nodup_cons.mp hnodup).1 (by simp)
      rw [Function.update_of_ne hba]
      exact ih h.2 (List.nodup_cons.mp hnodup).2

end Chain
end OperatingSystems
