import Mathlib.Data.List.Basic
import Mathlib.Data.List.Pairwise
import Mathlib.Order.Defs.Unbundled

/-!
# Objects in memory

A program sees the memory that it has allocated as objects: an address, and what it has
written there since it got the object.  No two objects overlap.

* `Objects.alloc`, `Objects.free`, `Objects.write` — an object is made, an object is given
  back, and a value is written.
* `Objects.read` — the value that was written last at an address of an object.
* `read_alloc`, `read_free_eq_some_iff`, `read_write_self`, `read_write_of_ne` — what is read
  after each of these.
-/

namespace OperatingSystems

/-- The values at the addresses from `address` on; `none` stands where nothing has been
written yet. -/
structure Object (β : Type*) where
  address : Nat
  content : List (Option β)

namespace Object

variable {β : Type*}

def size (o : Object β) : Nat :=
  o.content.length

/-- The address is one of the object. -/
def Covers (o : Object β) (x : Nat) : Prop :=
  o.address ≤ x ∧ x < o.address + o.size

instance (o : Object β) (x : Nat) : Decidable (o.Covers x) :=
  inferInstanceAs (Decidable (_ ∧ _))

/-- Two objects at different addresses share no address. -/
def Apart (o p : Object β) : Prop :=
  o.address ≠ p.address ∧
    (o.address + o.size ≤ p.address ∨ p.address + p.size ≤ o.address)

/-- A new object. -/
def fresh (a n : Nat) : Object β :=
  ⟨a, List.replicate n none⟩

/-- The value that was written last at an address. -/
def read (o : Object β) (x : Nat) : Option β :=
  if o.address ≤ x then (o.content[x - o.address]?).join else none

/-- A write, which changes nothing outside the object. -/
def write (o : Object β) (x : Nat) (v : β) : Object β :=
  { o with
    content := if o.address ≤ x then o.content.set (x - o.address) (some v) else o.content }

variable {o : Object β} {x y : Nat} {v : β}

@[simp] theorem size_fresh (a n : Nat) : (fresh a n : Object β).size = n :=
  List.length_replicate

@[simp] theorem address_write (o : Object β) (x : Nat) (v : β) :
    (o.write x v).address = o.address := rfl

@[simp] theorem size_write (o : Object β) (x : Nat) (v : β) : (o.write x v).size = o.size := by
  unfold size write
  dsimp only
  split
  · exact List.length_set
  · rfl

@[simp] theorem read_fresh (a n x : Nat) : (fresh a n : Object β).read x = none := by
  unfold read fresh
  split
  · rw [List.getElem?_replicate]
    split <;> rfl
  · rfl

theorem covers_of_read (h : o.read x = some v) : o.Covers x := by
  unfold read at h
  split at h
  · next hle =>
    obtain ⟨hlt, -⟩ := List.getElem?_eq_some_iff.mp (Option.join_eq_some_iff.mp h)
    refine ⟨hle, ?_⟩
    unfold size
    omega
  · cases h

/-- What is read after a write. -/
theorem read_write (o : Object β) (x : Nat) (v : β) (y : Nat) :
    (o.write x v).read y = if y = x ∧ o.Covers x then some v else o.read y := by
  unfold read write
  dsimp only
  by_cases hx : o.address ≤ x
  · rw [if_pos hx]
    by_cases hyx : y = x
    · subst hyx
      rw [if_pos hx, if_pos hx, List.getElem?_set, if_pos rfl]
      by_cases hcovers : o.Covers y
      · have hlt : y < o.address + o.content.length := hcovers.2
        rw [if_pos (by omega), if_pos ⟨rfl, hcovers⟩]
        rfl
      · have hge : ¬y < o.address + o.content.length := fun hlt => hcovers ⟨hx, hlt⟩
        have hoff : ¬(y = y ∧ o.Covers y) := fun h => hcovers h.2
        rw [if_neg (by omega), if_neg hoff, List.getElem?_eq_none (by omega)]
    · have hoff : ¬(y = x ∧ o.Covers x) := fun h => hyx h.1
      rw [if_neg hoff]
      split
      · rw [List.getElem?_set_ne (by omega)]
      · rfl
  · have hoff : ¬(y = x ∧ o.Covers x) := fun h => hx h.2.1
    rw [if_neg hx, if_neg hoff]

end Object

/-- Objects that do not overlap. -/
structure Objects (β : Type*) where
  list : List (Object β)
  apart : list.Pairwise Object.Apart

namespace Objects

variable {β : Type*}

/-- No objects. -/
def empty : Objects β :=
  ⟨[], .nil⟩

/-- A place that no object takes. -/
def Vacant (s : Objects β) (a n : Nat) : Prop :=
  ∀ o ∈ s.list, (Object.fresh a n : Object β).Apart o

/-- A new object at a place that is vacant. -/
def alloc (s : Objects β) (a n : Nat) (h : s.Vacant a n) : Objects β :=
  ⟨.fresh a n :: s.list, List.pairwise_cons.mpr ⟨h, s.apart⟩⟩

/-- The object at an address is given back. -/
def free (s : Objects β) (a : Nat) : Objects β :=
  ⟨s.list.filter (·.address ≠ a), s.apart.filter _⟩

/-- A value is written. -/
def write (s : Objects β) (x : Nat) (v : β) : Objects β :=
  ⟨s.list.map (·.write x v), List.pairwise_map.mpr <| s.apart.imp fun h => by
    simpa only [Object.Apart, Object.address_write, Object.size_write] using h⟩

/-- The value that was written last at an address. -/
def read (s : Objects β) (x : Nat) : Option β :=
  s.list.findSome? (·.read x)

variable {s : Objects β} {o p : Object β} {a n x y : Nat} {v : β}

theorem apart_of_ne (ho : o ∈ s.list) (hp : p ∈ s.list) (hne : o ≠ p) : o.Apart p := by
  have : Std.Symm (Object.Apart (β := β)) := ⟨fun _ _ h => ⟨h.1.symm, h.2.symm⟩⟩
  exact s.apart.forall ho hp hne

theorem eq_of_address (ho : o ∈ s.list) (hp : p ∈ s.list) (h : o.address = p.address) : o = p := by
  by_contra hne
  exact (apart_of_ne ho hp hne).1 h

/-- An address belongs to one object at most. -/
theorem unique (ho : o ∈ s.list) (hp : p ∈ s.list) (hox : o.Covers x) (hpx : p.Covers x) :
    o = p := by
  by_contra hne
  obtain ⟨-, hapart⟩ := apart_of_ne ho hp hne
  obtain ⟨hlow, hhigh⟩ := hox
  obtain ⟨hlow', hhigh'⟩ := hpx
  omega

theorem read_eq_some_iff : s.read x = some v ↔ ∃ o ∈ s.list, o.read x = some v := by
  refine ⟨fun h => List.exists_of_findSome?_eq_some h, fun ⟨o, ho, hread⟩ => ?_⟩
  cases hfound : s.read x with
  | none =>
      have hnone := List.findSome?_eq_none_iff.mp hfound o ho
      rw [hread] at hnone
      cases hnone
  | some w =>
      obtain ⟨p, hp, hread'⟩ := List.exists_of_findSome?_eq_some hfound
      obtain rfl := unique ho hp (Object.covers_of_read hread) (Object.covers_of_read hread')
      rw [← hread', hread]

/-- Nothing is read from a new object. -/
@[simp] theorem read_alloc (h : s.Vacant a n) (x : Nat) : (s.alloc a n h).read x = s.read x := by
  simp [read, alloc]

/-- Nothing is read any more from an object that was given back. -/
theorem read_free_eq_some_iff : (s.free a).read x = some v ↔
    s.read x = some v ∧ ¬∃ o ∈ s.list, o.address = a ∧ o.Covers x := by
  rw [read_eq_some_iff, read_eq_some_iff]
  constructor
  · rintro ⟨o, ho, hread⟩
    obtain ⟨ho, hne⟩ := List.mem_filter.mp ho
    refine ⟨⟨o, ho, hread⟩, fun ⟨p, hp, haddress, hcovers⟩ => ?_⟩
    obtain rfl := unique ho hp (Object.covers_of_read hread) hcovers
    simp [haddress] at hne
  · rintro ⟨⟨o, ho, hread⟩, hkept⟩
    have hne : o.address ≠ a := fun haddress =>
      hkept ⟨o, ho, haddress, Object.covers_of_read hread⟩
    exact ⟨o, List.mem_filter.mpr ⟨ho, by simpa using hne⟩, hread⟩

/-- What was written is read back. -/
theorem read_write_self (ho : o ∈ s.list) (hx : o.Covers x) (v : β) :
    (s.write x v).read x = some v := by
  refine read_eq_some_iff.mpr ⟨o.write x v, List.mem_map.mpr ⟨o, ho, rfl⟩, ?_⟩
  rw [Object.read_write, if_pos ⟨rfl, hx⟩]

/-- Elsewhere nothing changes. -/
theorem read_write_of_ne (hne : y ≠ x) (v : β) : (s.write x v).read y = s.read y := by
  unfold read write
  rw [List.findSome?_map]
  congr 1
  funext o
  show (o.write x v).read y = o.read y
  rw [Object.read_write, if_neg fun h => hne h.1]

end Objects
end OperatingSystems
