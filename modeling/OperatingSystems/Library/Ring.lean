import Mathlib.Data.List.Chain
import Mathlib.Data.List.Nodup
import Mathlib.Logic.Function.Basic

/-!
# Doubly linked rings

`Ring next prev p l` says that following `next` from `p` visits exactly `l`, whose last
element is `p` again, and that `prev` leads back along every link.

* `Ring.rotate`, `Ring.exists_rotate` — the same ring, seen from the next element, or from any.
* `Ring.inverse` — on the ring `prev` is the inverse of `next`.
* `Ring.insert`, `Ring.unlink` — an element is linked in after `p`, and the element
  after `p` is taken out.
-/

namespace OperatingSystems

/-- The ring through `p`, as the list of what follows `p` up to `p` itself. -/
structure Ring {α : Type*} (next prev : α → α) (p : α) (l : List α) : Prop where
  links : List.IsChain (fun a b => next a = b ∧ prev b = a) (p :: l)
  closed : l.getLast? = some p
  nodup : l.Nodup

namespace Ring

variable {α : Type*} {next prev next' prev' : α → α} {p x y z : α} {l : List α}

theorem self_mem (h : Ring next prev p l) : p ∈ l :=
  List.mem_of_getLast? h.closed

/-- A ring of one element. -/
theorem singleton (hnext : next p = p) (hprev : prev p = p) : Ring next prev p [p] :=
  ⟨by simp [hnext, hprev], rfl, List.nodup_singleton p⟩

theorem next_eq (h : Ring next prev p (y :: l)) : next p = y :=
  (List.isChain_cons_cons.mp h.links).1.1

theorem prev_eq (h : Ring next prev p (y :: l)) : prev y = p :=
  (List.isChain_cons_cons.mp h.links).1.2

/-- The last element of a list without repetitions comes only at its end. -/
theorem eq_nil_of_getLast {a : α} (hlast : (a :: l).getLast? = some a) (hnodup : (a :: l).Nodup) :
    l = [] := by
  cases l with
  | nil => rfl
  | cons b l =>
      rw [List.getLast?_cons_cons] at hlast
      exact absurd (List.mem_of_getLast? hlast) (List.nodup_cons.mp hnodup).1

/-- Two lists that follow `next` from `a` up to the first `p`. -/
theorem links_unique {a : α} {l' : List α}
    (h : List.IsChain (fun a b => next a = b ∧ prev b = a) (a :: l))
    (h' : List.IsChain (fun a b => next a = b ∧ prev b = a) (a :: l'))
    (hlast : l.getLast? = some p) (hlast' : l'.getLast? = some p) (hnodup : l.Nodup)
    (hnodup' : l'.Nodup) : l = l' := by
  induction l generalizing a l' with
  | nil => simp at hlast
  | cons b l ih =>
      cases l' with
      | nil => simp at hlast'
      | cons c l' =>
          rw [List.isChain_cons_cons] at h h'
          obtain rfl : b = c := h.1.1.symm.trans h'.1.1
          by_cases hbp : b = p
          · subst hbp
            rw [eq_nil_of_getLast hlast hnodup, eq_nil_of_getLast hlast' hnodup']
          · have hne : ∀ k : List α, (b :: k).getLast? = some p → k.getLast? = some p := by
              intro k hk
              cases k with
              | nil => exact absurd (by simpa using hk) hbp
              | cons d k => rwa [List.getLast?_cons_cons] at hk
            rw [ih h.2 h'.2 (hne l hlast) (hne l' hlast') (List.nodup_cons.mp hnodup).2
              (List.nodup_cons.mp hnodup').2]

/-- The ring is a function of the links. -/
theorem unique {l' : List α} (h : Ring next prev p l) (h' : Ring next prev p l') : l = l' :=
  links_unique h.links h'.links h.closed h'.closed h.nodup h'.nodup

/-- Links depend on `next` up to the last element, and on `prev` after the first. -/
theorem links_frame {a : α} (h : List.IsChain (fun a b => next a = b ∧ prev b = a) (a :: l))
    (hlast : (a :: l).getLast? = some p) (hnodup : (a :: l).Nodup)
    (hnext : ∀ b ∈ a :: l, b ≠ p → next' b = next b) (hprev : ∀ b ∈ l, prev' b = prev b) :
    List.IsChain (fun a b => next' a = b ∧ prev' b = a) (a :: l) := by
  induction l generalizing a with
  | nil => exact List.isChain_singleton a
  | cons b l ih =>
      rw [List.isChain_cons_cons] at h ⊢
      rw [List.getLast?_cons_cons] at hlast
      have hap : a ≠ p := by
        rintro rfl
        exact (List.nodup_cons.mp hnodup).1 (List.mem_of_getLast? hlast)
      refine ⟨⟨?_, ?_⟩, ih h.2 hlast (List.nodup_cons.mp hnodup).2 ?_ ?_⟩
      · rw [hnext a (by simp) hap, h.1.1]
      · rw [hprev b (by simp), h.1.2]
      · exact fun c hc => hnext c (by simp [hc])
      · exact fun c hc => hprev c (by simp [hc])

/-- The ring seen from the next element. -/
theorem rotate (h : Ring next prev p (y :: l)) : Ring next prev y (l ++ [y]) := by
  obtain ⟨hy, hlinks⟩ := List.isChain_cons_cons.mp h.links
  refine ⟨?_, by simp, ?_⟩
  · rw [← List.cons_append, List.isChain_append]
    refine ⟨hlinks, List.isChain_singleton y, fun a ha b hb => ?_⟩
    obtain rfl : p = a := by simpa [h.closed] using ha
    obtain rfl : y = b := by simpa using hb
    exact hy
  · exact (List.perm_append_singleton y l).nodup_iff.mpr h.nodup

/-- The ring seen from any of its elements. -/
theorem exists_rotate {a : α} (h : Ring next prev p l) (ha : a ∈ l) :
    ∃ l', Ring next prev a l' ∧ l'.Perm l := by
  obtain ⟨front, back, rfl⟩ := List.append_of_mem ha
  clear ha
  induction front generalizing p back with
  | nil => exact ⟨back ++ [a], h.rotate, List.perm_append_singleton a back⟩
  | cons y front ih =>
      have hrotate : Ring next prev y (front ++ a :: (back ++ [y])) := by
        simpa using h.rotate
      obtain ⟨l', hring, hperm⟩ := ih (back ++ [y]) hrotate
      refine ⟨l', hring, hperm.trans ?_⟩
      rw [← List.cons_append, ← List.append_assoc]
      exact List.perm_append_singleton y _

/-- On the ring `prev` is the inverse of `next`. -/
theorem inverse {a : α} (h : Ring next prev p l) (ha : a ∈ l) :
    prev (next a) = a ∧ next (prev a) = a := by
  obtain ⟨l', hring, -⟩ := h.exists_rotate ha
  constructor
  · cases l' with
    | nil => exact absurd hring.self_mem List.not_mem_nil
    | cons y l' => rw [hring.next_eq, hring.prev_eq]
  · obtain ⟨front, rfl⟩ := List.getLast?_eq_some_iff.mp hring.closed
    have hlinks := hring.links
    rw [← List.cons_append, List.isChain_append] at hlinks
    obtain ⟨hnext, hprev⟩ := hlinks.2.2 _ (List.getLast?_eq_some_getLast (List.cons_ne_nil a front))
      a rfl
    rw [hprev, hnext]

variable [DecidableEq α]

/-- A new element is linked in after `p`. -/
theorem insert (h : Ring next prev p (y :: l)) (hx : x ∉ y :: l)
    (hnext : next' = Function.update (Function.update next x y) p x)
    (hprev : prev' = Function.update (Function.update prev x p) y x) :
    Ring next' prev' p (x :: y :: l) := by
  have hlinks := (List.isChain_cons_cons.mp h.links).2
  have hxp : x ≠ p := fun heq => hx (heq ▸ h.self_mem)
  have hxy : x ≠ y := fun heq => hx (by simp [heq])
  refine ⟨?_, by simpa using h.closed, List.nodup_cons.mpr ⟨hx, h.nodup⟩⟩
  rw [List.isChain_cons_cons, List.isChain_cons_cons]
  refine ⟨⟨by simp [hnext], by simp [hprev, hxy]⟩, ⟨by simp [hnext, hxp], by simp [hprev]⟩, ?_⟩
  refine links_frame hlinks h.closed h.nodup (fun b hb hbp => ?_) (fun b hb => ?_)
  · have hbx : b ≠ x := fun heq => hx (heq ▸ hb)
    simp [hnext, hbp, hbx]
  · have hbx : b ≠ x := fun heq => hx (by simp [← heq, hb])
    have hby : b ≠ y := fun heq => (List.nodup_cons.mp h.nodup).1 (heq ▸ hb)
    simp [hprev, hbx, hby]

/-- The element after `p` is taken out. -/
theorem unlink (h : Ring next prev p (y :: z :: l)) (hnext : next' = Function.update next p z)
    (hprev : prev' = Function.update prev z p) : Ring next' prev' p (z :: l) := by
  have hlinks := (List.isChain_cons_cons.mp (List.isChain_cons_cons.mp h.links).2).2
  have hnodup := (List.nodup_cons.mp h.nodup).2
  have hclosed : (z :: l).getLast? = some p := by simpa using h.closed
  refine ⟨List.isChain_cons_cons.mpr ⟨⟨by simp [hnext], by simp [hprev]⟩, ?_⟩, hclosed, hnodup⟩
  refine links_frame hlinks hclosed hnodup (fun b _ hbp => by simp [hnext, hbp]) fun b hb => ?_
  have hbz : b ≠ z := fun heq => (List.nodup_cons.mp hnodup).1 (heq ▸ hb)
  simp [hprev, hbz]

end Ring
end OperatingSystems
