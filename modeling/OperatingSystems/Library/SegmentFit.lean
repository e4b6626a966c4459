import OperatingSystems.Library.Segments
import Mathlib.Algebra.GroupWithZero.Nat
import Mathlib.Algebra.Order.BigOperators.Group.List

/-!
# What first fit finds

* `firstFit_eq_none_iff`, `firstFit_before` — no segment fits; no segment in front of the one that
  is taken fits.
* `Run` — a longest run of neighbours with a property; where no two neighbours have it, the runs
  are the single elements that have it.
* `freePayload_take` — how much is left to allocate.
* `Multiples` — sizes that are all multiples of one number; then the headers of the segments are
  multiples of it too.
-/

namespace OperatingSystems
namespace Segments

variable {header a request k : Nat} {s : Segment} {pre suf segments : List Segment}

theorem firstFit_eq_none_iff :
    firstFit request segments = none ↔ ∀ s ∈ segments, s.free = true → s.size < request := by
  induction segments with
  | nil => simp [firstFit]
  | cons s rest ih =>
      rw [firstFit, List.forall_mem_cons]
      split
      · next hfit =>
        refine iff_of_false (by simp) fun h => ?_
        have hsmall := h.1 hfit.1
        omega
      · next hfit =>
        rw [Option.map_eq_none_iff, ih]
        refine ⟨fun h => ⟨fun hfree => ?_, h⟩, fun h => h.2⟩
        by_contra hlarge
        exact hfit ⟨hfree, by omega⟩

/-- Nothing in front of the segment that is taken fits. -/
theorem firstFit_before (h : firstFit request segments = some (pre, s, suf)) :
    ∀ t ∈ pre, t.free = true → t.size < request := by
  induction segments generalizing pre with
  | nil => simp [firstFit] at h
  | cons t rest ih =>
      simp only [firstFit] at h
      split at h
      · simp only [Option.some.injEq, Prod.mk.injEq] at h
        rw [← h.1]
        simp
      · next hfit =>
        obtain ⟨⟨pre', found⟩, hfound, heq⟩ := Option.map_eq_some_iff.mp h
        simp only [Prod.mk.injEq] at heq
        obtain ⟨rfl, rfl⟩ := heq
        refine List.forall_mem_cons.mpr ⟨fun hfree => ?_, ih hfound⟩
        by_contra hlarge
        exact hfit ⟨hfree, by omega⟩

/-! ### Runs of neighbours -/

/-- A longest run of neighbours in `l` that all have the property. -/
structure Run {α : Type*} (p : α → Bool) (l run : List α) : Prop where
  ne_nil : run ≠ []
  all : ∀ x ∈ run, p x = true
  longest : ∃ front back, l = front ++ run ++ back ∧
    (∀ x ∈ front.getLast?, p x = false) ∧ ∀ x ∈ back.head?, p x = false

section Run

variable {α : Type*} {p : α → Bool} {l run : List α} {x : α}

theorem Run.eq_singleton (h : Run p l run)
    (hl : l.IsChain fun x y => ¬(p x = true ∧ p y = true)) :
    ∃ x ∈ l, p x = true ∧ run = [x] := by
  obtain ⟨front, back, rfl, -, -⟩ := h.longest
  have hrun := ((List.isChain_append.mp (List.isChain_append.mp hl).1).2).1
  match run, h.ne_nil, h.all, hrun with
  | [x], _, hall, _ => exact ⟨x, by simp, hall x (by simp), rfl⟩
  | x :: y :: _, _, hall, hrun =>
      have hboth := (List.isChain_cons_cons.mp hrun).1
      exact absurd ⟨hall x (by simp), hall y (by simp)⟩ hboth

theorem run_singleton (hl : l.IsChain fun x y => ¬(p x = true ∧ p y = true)) (hx : x ∈ l)
    (hp : p x = true) : Run p l [x] := by
  obtain ⟨front, back, rfl⟩ := List.append_of_mem hx
  obtain ⟨-, hrest, hjoin⟩ := List.isChain_append.mp hl
  refine ⟨by simp, by simpa using hp, front, back, by simp, fun y hy => ?_, fun y hy => ?_⟩
  · have hboth := hjoin y hy x rfl
    simpa [hp] using hboth
  · have hboth := (List.isChain_cons.mp hrest).1 y hy
    simpa [hp] using hboth

end Run

/-! ### The free payload -/

/-- The sizes of the free segments together. -/
def freePayload (segments : List Segment) : Nat :=
  ((segments.filter Segment.free).map Segment.size).sum

theorem freePayload_append (l l' : List Segment) :
    freePayload (l ++ l') = freePayload l + freePayload l' := by
  unfold freePayload
  rw [List.filter_append, List.map_append, List.sum_append]

/-- A segment that is taken is split, or it is taken as a whole. -/
theorem freePayload_split (hfree : s.free = true) :
    freePayload (split header request s) +
      (if request + header < s.size then request + header else s.size) = freePayload [s] := by
  unfold split freePayload
  split
  · simp only [hfree, List.filter_cons, List.filter_nil, List.map_cons, List.map_nil,
      List.sum_cons, List.sum_nil, if_true, Bool.false_eq_true, if_false]
    omega
  · simp only [hfree, List.filter_cons, List.filter_nil, List.map_cons, List.map_nil,
      List.sum_cons, List.sum_nil, if_true, Bool.false_eq_true, if_false]
    omega

theorem freePayload_take (header request : Nat) (hfree : s.free = true) (pre suf : List Segment) :
    freePayload (pre ++ split header request s ++ suf) +
      (if request + header < s.size then request + header else s.size) =
        freePayload (pre ++ s :: suf) := by
  have hsplit : freePayload (split header request s) + _ = freePayload [s] := freePayload_split hfree
  rw [← List.singleton_append, ← List.append_assoc, freePayload_append, freePayload_append,
    freePayload_append, freePayload_append, ← hsplit]
  omega

/-! ### Multiples -/

/-- All sizes are multiples of `k`. -/
def Multiples (k : Nat) (segments : List Segment) : Prop :=
  ∀ s ∈ segments, k ∣ s.size

theorem Multiples.headers (h : Multiples k segments) (hheader : k ∣ header) (ha : k ∣ a) :
    ∀ b ∈ headers header a segments, k ∣ b := by
  induction segments generalizing a with
  | nil => simp [Segments.headers]
  | cons s rest ih =>
      obtain ⟨hs, hrest⟩ := List.forall_mem_cons.mp h
      refine List.forall_mem_cons.mpr ⟨ha, ih hrest ?_⟩
      exact Nat.dvd_add (Nat.dvd_add ha hheader) hs

theorem Multiples.coalesce (h : Multiples k segments) (hheader : k ∣ header) :
    Multiples k (coalesce header segments) := by
  induction segments using coalesce.induct header with
  | case1 =>
      rw [Segments.coalesce]
      exact h
  | case2 s =>
      rw [Segments.coalesce]
      exact h
  | case3 s t rest hfree ih =>
      obtain ⟨hs, hrest⟩ := List.forall_mem_cons.mp h
      obtain ⟨ht, hrest⟩ := List.forall_mem_cons.mp hrest
      rw [Segments.coalesce, if_pos hfree]
      refine ih (List.forall_mem_cons.mpr ⟨?_, hrest⟩)
      exact Nat.dvd_add hs (Nat.dvd_add ht hheader)
  | case4 s t rest hfree ih =>
      obtain ⟨hs, hrest⟩ := List.forall_mem_cons.mp h
      rw [Segments.coalesce, if_neg hfree]
      exact List.forall_mem_cons.mpr ⟨hs, ih hrest⟩

theorem Multiples.releases {segments' : List Segment} (h : Multiples k segments)
    (hreleases : Releases header segments segments') (hheader : k ∣ header) :
    Multiples k segments' := by
  obtain ⟨pre, n, suf, rfl, rfl⟩ := hreleases
  refine Multiples.coalesce (fun t ht => ?_) hheader
  have hn : k ∣ n := h ⟨n, false⟩ (by simp)
  rcases List.mem_append.mp ht with hpre | hsuf
  · exact h t (List.mem_append_left _ hpre)
  · rcases List.mem_cons.mp hsuf with rfl | hsuf
    · exact hn
    · exact h t (by simp [hsuf])

/-- An allocation keeps the sizes multiples if the request is one, or nothing is split. -/
theorem Multiples.allocate (h : Multiples k segments) (hheader : k ∣ header)
    (hrequest : ∀ pre s suf, firstFit request segments = some (pre, s, suf) →
      request + header < s.size → k ∣ request) (a : Nat) :
    Multiples k (allocate header a request segments).2 := by
  unfold Segments.allocate
  cases hfound : firstFit request segments with
  | none => exact h
  | some found =>
      obtain ⟨pre, s, suf⟩ := found
      obtain ⟨rfl, -, -⟩ := firstFit_eq_some hfound
      have hs : k ∣ s.size := h s (by simp)
      have hsplit : Multiples k (split header request s) := by
        unfold split
        split
        · next hlarge =>
          have hk := hrequest pre s suf hfound hlarge
          have hrest : k ∣ s.size - request - header := Nat.dvd_sub (Nat.dvd_sub hs hk) hheader
          simp [Multiples, hk, hrest]
        · simpa [Multiples] using hs
      intro t ht
      rcases List.mem_append.mp ht with ht | ht
      · rcases List.mem_append.mp ht with ht | ht
        · exact h t (List.mem_append_left _ ht)
        · exact hsplit t ht
      · exact h t (by simp [ht])

end Segments
end OperatingSystems
