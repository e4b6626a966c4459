import Mathlib.Logic.Function.Basic

/-!
# Custody

Resources which parties hold for a while and pass on.  `place` says of every resource
where it is: in the hands of one party, or at rest somewhere else.  `Custody` says that
the parties hold exactly what is in their hands, so that no two of them hold the same
resource.

* `Custody.keep` — nobody takes or gives anything.
* `Custody.transfer` — one party takes one resource, gives it away or keeps it.
-/

namespace OperatingSystems

/-- Where a resource is. -/
inductive Place (ι κ : Type*)
  | hands (i : ι)
  | rests (k : κ)
  deriving DecidableEq

theorem Place.ne_of_hands {ι κ : Type*} {p : Place ι κ} {i j : ι} (hp : p = .hands i)
    (hj : j ≠ i) : p ≠ .hands j := by
  rintro rfl
  exact hj (Place.hands.inj hp)

/-- Every party holds what is in its hands. -/
def Custody {ι κ ρ : Type*} (held : ι → ρ → Prop) (place : ρ → Place ι κ) : Prop :=
  ∀ i r, held i r ↔ place r = .hands i

namespace Custody

variable {ι κ ρ : Type*} {held held' : ι → ρ → Prop} {place : ρ → Place ι κ}

/-- What another party does not hold. -/
theorem not_held (h : Custody held place) {i j : ι} {r : ρ} (hr : place r = .hands i)
    (hj : j ≠ i) : ¬ held j r := by
  intro hheld
  exact Place.ne_of_hands hr hj ((h j r).mp hheld)

theorem not_held_rests (h : Custody held place) {j : ι} {r : ρ} {k : κ}
    (hr : place r = .rests k) : ¬ held j r := by
  intro hheld
  have hhands := (h j r).mp hheld
  simp [hr] at hhands

/-- Nobody takes or gives anything. -/
theorem keep (h : Custody held place) (hsame : ∀ j r, held' j r ↔ held j r) :
    Custody held' place :=
  fun j r => (hsame j r).trans (h j r)

/-- Party `i` takes the resource `r`, gives it away or keeps it. -/
theorem transfer [DecidableEq ρ] (h : Custody held place) {i : ι} {r : ρ} {p : Place ι κ}
    (hothers : ∀ j ≠ i, ∀ q, held' j q ↔ held j q) (hrest : ∀ q ≠ r, held' i q ↔ held i q)
    (hfrom : ∀ j ≠ i, ¬ held j r) (hto : held' i r ↔ p = .hands i)
    (hp : ∀ j ≠ i, p ≠ .hands j) : Custody held' (Function.update place r p) := by
  intro j q
  by_cases hq : q = r
  · subst hq
    rw [Function.update_self]
    by_cases hj : j = i
    · subst hj
      exact hto
    · rw [hothers j hj]
      exact iff_of_false (hfrom j hj) (hp j hj)
  · rw [Function.update_of_ne hq]
    by_cases hj : j = i
    · subst hj
      exact (hrest q hq).trans (h j q)
    · exact (hothers j hj q).trans (h j q)

end Custody
end OperatingSystems
