import Mathlib.Data.List.Basic
import Mathlib.Data.List.Chain
import Mathlib.Data.List.Pairwise

/-!
# A heap tiled by segments

An allocator with boundary headers sees its heap as a list of segments, each of them
a header followed by a payload, with no gap in between.  The list determines every
address: a segment starts where the one before it ends.

* `extent`, `headers`, `used` — the bytes the segments take, the addresses of their
  headers, and the payloads that are in use.
* `firstFit`, `split` — what `allocate` does; `coalesce` — merging of adjacent free segments,
  which follows a release (`Releases`).
* `Reduced` — no two adjacent segments are free: what `coalesce` makes and `split` keeps.
* `used_pairwise` — payloads in use lie one after the other, a header before each;
  `used_split`, `used_release`, `used_coalesce` — what the operations do to them.
-/

namespace OperatingSystems
namespace Segments

/-- A segment: the size of its payload, and whether it is free. -/
structure Segment where
  size : Nat
  free : Bool
  deriving DecidableEq

variable (header : Nat)

/-- The bytes that the segments take. -/
def extent : List Segment → Nat
  | [] => 0
  | s :: rest => header + s.size + extent rest

/-- The addresses of the headers, for a heap that starts at `a`. -/
def headers (a : Nat) : List Segment → List Nat
  | [] => []
  | s :: rest => a :: headers (a + header + s.size) rest

/-- The payloads in use: address and size. -/
def used (a : Nat) : List Segment → List (Nat × Nat)
  | [] => []
  | s :: rest =>
      if s.free then used (a + header + s.size) rest
      else (a + header, s.size) :: used (a + header + s.size) rest

/-- The first segment that is free and large enough, with what comes before and
after it. -/
def firstFit (request : Nat) : List Segment → Option (List Segment × Segment × List Segment)
  | [] => none
  | s :: rest =>
      if s.free = true ∧ request ≤ s.size then some ([], s, rest)
      else (firstFit request rest).map fun found => (s :: found.1, found.2)

/-- Take `request` bytes of a segment; a remainder becomes a free segment if it holds
more than a header. -/
def split (request : Nat) (s : Segment) : List Segment :=
  if request + header < s.size then
    [⟨request, false⟩, ⟨s.size - request - header, true⟩]
  else [⟨s.size, false⟩]

/-- Merge every run of adjacent free segments into one. -/
def coalesce : List Segment → List Segment
  | [] => []
  | [s] => [s]
  | s :: t :: rest =>
      if s.free = true ∧ t.free = true then
        coalesce (⟨s.size + (t.size + header), true⟩ :: rest)
      else s :: coalesce (t :: rest)
termination_by segments => segments.length

/-- An allocation in a heap that starts at `a`: the address of the payload, if a segment fits,
and the segments behind it. -/
def allocate (a request : Nat) (segments : List Segment) : Option Nat × List Segment :=
  match firstFit request segments with
  | none => (none, segments)
  | some (pre, s, suf) =>
      (some (a + extent header pre + header), pre ++ split header request s ++ suf)

/-- One segment is released, and the segments are merged. -/
def Releases (segments segments' : List Segment) : Prop :=
  ∃ pre n suf, segments = pre ++ ⟨n, false⟩ :: suf ∧
    segments' = coalesce header (pre ++ ⟨n, true⟩ :: suf)

variable {header} {a n request : Nat} {s : Segment} {pre suf segments : List Segment}

/-! ### Concatenation -/

theorem extent_append (l l' : List Segment) :
    extent header (l ++ l') = extent header l + extent header l' := by
  induction l with
  | nil => simp [extent]
  | cons s l ih =>
      simp only [List.cons_append, extent, ih]
      omega

theorem headers_append (a : Nat) (l l' : List Segment) :
    headers header a (l ++ l') = headers header a l ++ headers header (a + extent header l) l' := by
  induction l generalizing a with
  | nil => rfl
  | cons s l ih =>
      have haddress : a + header + s.size + extent header l =
          a + (header + s.size + extent header l) := by omega
      simp only [List.cons_append, headers, extent, ih, haddress]

theorem used_append (a : Nat) (l l' : List Segment) :
    used header a (l ++ l') = used header a l ++ used header (a + extent header l) l' := by
  induction l generalizing a with
  | nil => rfl
  | cons s l ih =>
      have haddress : a + header + s.size + extent header l =
          a + (header + s.size + extent header l) := by omega
      simp only [List.cons_append, used, extent, ih, haddress]
      split <;> rfl

theorem length_le_extent (header : Nat) (l : List Segment) : header * l.length ≤ extent header l := by
  induction l with
  | nil => simp
  | cons s l ih =>
      rw [List.length_cons, Nat.mul_succ, extent]
      omega

/-! ### Where headers and payloads lie -/

theorem headers_bounds {b : Nat} (h : b ∈ headers header a segments) :
    a ≤ b ∧ b + header ≤ a + extent header segments := by
  induction segments generalizing a with
  | nil => simp [headers] at h
  | cons s rest ih =>
      simp only [headers, List.mem_cons] at h
      simp only [extent]
      rcases h with rfl | h
      · omega
      · have := ih h
        omega

theorem used_bounds {p : Nat × Nat} (h : p ∈ used header a segments) :
    a + header ≤ p.1 ∧ p.1 + p.2 ≤ a + extent header segments := by
  induction segments generalizing a with
  | nil => simp [used] at h
  | cons s rest ih =>
      simp only [used] at h
      simp only [extent]
      split at h
      · have := ih h
        omega
      · rcases List.mem_cons.mp h with rfl | h
        · simp only
          omega
        · have := ih h
          omega

/-- Headers lie in increasing order, without overlap. -/
theorem headers_pairwise (a : Nat) (segments : List Segment) :
    (headers header a segments).Pairwise fun b c => b + header ≤ c := by
  induction segments generalizing a with
  | nil => exact List.Pairwise.nil
  | cons s rest ih =>
      refine List.pairwise_cons.mpr ⟨fun c hc => ?_, ih _⟩
      have := headers_bounds hc
      omega

/-- Payloads in use lie in increasing order, a header before each. -/
theorem used_pairwise (header a : Nat) (segments : List Segment) :
    (used header a segments).Pairwise fun p q => p.1 + p.2 + header ≤ q.1 := by
  induction segments generalizing a with
  | nil => exact List.Pairwise.nil
  | cons s rest ih =>
      simp only [used]
      split
      · exact ih _
      · refine List.pairwise_cons.mpr ⟨fun q hq => ?_, ih _⟩
        have := used_bounds hq
        omega

/-- Two payloads in use at different addresses do not overlap. -/
theorem used_apart {p q : Nat × Nat} (hp : p ∈ used header a segments)
    (hq : q ∈ used header a segments) (hne : p.1 ≠ q.1) :
    p.1 + p.2 + header ≤ q.1 ∨ q.1 + q.2 + header ≤ p.1 := by
  let apart := fun p q : Nat × Nat => p.1 + p.2 + header ≤ q.1 ∨ q.1 + q.2 + header ≤ p.1
  have : Std.Symm apart := ⟨fun _ _ h => h.symm⟩
  have hpair : (used header a segments).Pairwise apart :=
    (used_pairwise header a segments).imp Or.inl
  exact hpair.forall hp hq fun heq => hne (congrArg Prod.fst heq)

/-- No header lies in a payload in use. -/
theorem headers_off_used {b : Nat} {p : Nat × Nat} (hb : b ∈ headers header a segments)
    (hp : p ∈ used header a segments) : b + header ≤ p.1 ∨ p.1 + p.2 ≤ b := by
  induction segments generalizing a with
  | nil => simp [headers] at hb
  | cons s rest ih =>
      simp only [headers, List.mem_cons] at hb
      have hrest (hp : p ∈ used header (a + header + s.size) rest) :
          b + header ≤ p.1 ∨ p.1 + p.2 ≤ b := by
        rcases hb with rfl | hb
        · have := used_bounds hp
          omega
        · exact ih hb hp
      simp only [used] at hp
      split at hp
      · exact hrest hp
      · rcases List.mem_cons.mp hp with rfl | hp
        · rcases hb with rfl | hb
          · exact Or.inl (Nat.le_refl _)
          · exact Or.inr (headers_bounds hb).1
        · exact hrest hp

/-- A payload in use belongs to a segment of the list, and starts behind its header. -/
theorem exists_of_mem_used {p : Nat × Nat} (h : p ∈ used header a segments) :
    ∃ pre suf, segments = pre ++ ⟨p.2, false⟩ :: suf ∧ p.1 = a + extent header pre + header := by
  induction segments generalizing a with
  | nil => simp [used] at h
  | cons s rest ih =>
      simp only [used] at h
      have hrest (h : p ∈ used header (a + header + s.size) rest) :
          ∃ pre suf, s :: rest = pre ++ ⟨p.2, false⟩ :: suf ∧
            p.1 = a + extent header pre + header := by
        obtain ⟨pre, suf, rfl, haddress⟩ := ih h
        refine ⟨s :: pre, suf, rfl, ?_⟩
        simp only [extent]
        omega
      split at h
      · exact hrest h
      · next hused =>
        rcases List.mem_cons.mp h with rfl | h
        · rw [Bool.not_eq_true] at hused
          refine ⟨[], rest, ?_, by simp [extent]⟩
          rw [List.nil_append, ← hused]
        · exact hrest h

/-! ### Allocation -/

theorem firstFit_eq_some (h : firstFit request segments = some (pre, s, suf)) :
    segments = pre ++ s :: suf ∧ s.free = true ∧ request ≤ s.size := by
  induction segments generalizing pre with
  | nil => simp [firstFit] at h
  | cons t rest ih =>
      simp only [firstFit] at h
      split at h
      · next hfit =>
        simp only [Option.some.injEq, Prod.mk.injEq] at h
        obtain ⟨rfl, rfl, rfl⟩ := h
        exact ⟨rfl, hfit⟩
      · obtain ⟨⟨pre', found⟩, hfound, heq⟩ := Option.map_eq_some_iff.mp h
        simp only [Prod.mk.injEq] at heq
        obtain ⟨rfl, rfl⟩ := heq
        obtain ⟨rfl, hfit⟩ := ih hfound
        exact ⟨rfl, hfit⟩

/-- Splitting does not change what a segment takes. -/
theorem extent_split (request : Nat) (s : Segment) :
    extent header (split header request s) = extent header [s] := by
  unfold split
  split
  · simp only [extent]
    omega
  · rfl

/-- An allocation adds one payload in use, of at least the size asked for. -/
theorem used_split (header a : Nat) (pre suf : List Segment) (hfree : s.free = true)
    (h : request ≤ s.size) :
    ∃ taken, request ≤ taken ∧
      used header a (pre ++ split header request s ++ suf) =
        used header a pre ++ (a + extent header pre + header, taken) ::
          used header (a + extent header pre + header + s.size) suf ∧
      used header a (pre ++ s :: suf) =
        used header a pre ++ used header (a + extent header pre + header + s.size) suf := by
  have hend : a + (extent header pre + extent header [s]) =
      a + extent header pre + header + s.size := by
    simp only [extent]
    omega
  have hbefore : used header a (pre ++ s :: suf) =
      used header a pre ++ used header (a + extent header pre + header + s.size) suf := by
    rw [used_append]
    simp [used, hfree]
  refine ⟨if request + header < s.size then request else s.size, ?_, ?_, hbefore⟩
  · split <;> omega
  · rw [used_append, used_append, extent_append, extent_split, hend, List.append_assoc]
    unfold split
    split <;> simp [used]

/-! ### Release -/

theorem used_release (header a n : Nat) (pre suf : List Segment) :
    used header a (pre ++ ⟨n, false⟩ :: suf) =
        used header a pre ++ (a + extent header pre + header, n) ::
          used header (a + extent header pre + header + n) suf ∧
      used header a (pre ++ ⟨n, true⟩ :: suf) =
        used header a pre ++ used header (a + extent header pre + header + n) suf := by
  constructor <;> simp [used_append, used]

/-- A release takes one payload out of use. -/
theorem mem_used_release_iff (hheader : 0 < header) {n : Nat} {pre suf : List Segment}
    {q : Nat × Nat} :
    q ∈ used header a (pre ++ ⟨n, true⟩ :: suf) ↔
      q ∈ used header a (pre ++ ⟨n, false⟩ :: suf) ∧ q.1 ≠ a + extent header pre + header := by
  obtain ⟨hbefore, hafter⟩ := used_release header a n pre suf
  have hpair := used_pairwise header a (pre ++ ⟨n, false⟩ :: suf)
  rw [hbefore, List.pairwise_append, List.pairwise_cons] at hpair
  obtain ⟨-, ⟨hbehind, -⟩, hfront⟩ := hpair
  rw [hbefore, hafter, List.mem_append, List.mem_append, List.mem_cons]
  constructor
  · intro hq
    refine ⟨hq.imp_right Or.inr, ?_⟩
    rcases hq with hq | hq
    · have hle := hfront q hq _ List.mem_cons_self
      omega
    · have hle := hbehind q hq
      omega
  · rintro ⟨hq | rfl | hq, hne⟩
    · exact Or.inl hq
    · exact absurd rfl hne
    · exact Or.inr hq

theorem extent_coalesce (segments : List Segment) :
    extent header (coalesce header segments) = extent header segments := by
  induction segments using coalesce.induct header with
  | case1 => rw [coalesce]
  | case2 s => rw [coalesce]
  | case3 s t rest hfree ih =>
      rw [coalesce, if_pos hfree, ih]
      simp only [extent]
      omega
  | case4 s t rest hfree ih =>
      rw [coalesce, if_neg hfree]
      simp only [extent] at ih ⊢
      omega

theorem coalesce_ne_nil (s : Segment) (rest : List Segment) :
    coalesce header (s :: rest) ≠ [] := by
  induction rest generalizing s with
  | nil => simp [coalesce]
  | cons t rest ih =>
      rw [coalesce]
      split
      · exact ih _
      · simp

/-- Merging does not touch the payloads in use. -/
theorem used_coalesce (a : Nat) (segments : List Segment) :
    used header a (coalesce header segments) = used header a segments := by
  induction segments using coalesce.induct header generalizing a with
  | case1 => rw [coalesce]
  | case2 s => rw [coalesce]
  | case3 s t rest hfree ih =>
      have hend : a + header + (s.size + (t.size + header)) =
          a + header + s.size + header + t.size := by omega
      rw [coalesce, if_pos hfree, ih]
      simp only [used, hfree.1, hfree.2, hend, if_true]
  | case4 s t rest hfree ih =>
      rw [coalesce, if_neg hfree]
      simp only [used] at ih ⊢
      rw [ih]

/-! ### Reduced lists -/

/-- No two adjacent segments are both free. -/
def Reduced (segments : List Segment) : Prop :=
  segments.IsChain fun s t => ¬(s.free = true ∧ t.free = true)

/-- Merging keeps the flag in front. -/
theorem coalesce_cons (header : Nat) (s : Segment) (rest : List Segment) :
    ∃ t rest', coalesce header (s :: rest) = t :: rest' ∧ t.free = s.free := by
  induction rest generalizing s with
  | nil => exact ⟨s, [], by rw [coalesce], rfl⟩
  | cons t rest ih =>
      rw [coalesce]
      split
      · next hfree =>
        obtain ⟨u, rest', heq, hu⟩ := ih ⟨s.size + (t.size + header), true⟩
        exact ⟨u, rest', heq, hu.trans hfree.1.symm⟩
      · exact ⟨s, _, rfl, rfl⟩

theorem reduced_coalesce (segments : List Segment) : Reduced (coalesce header segments) := by
  induction segments using coalesce.induct header with
  | case1 =>
      rw [coalesce]
      exact .nil
  | case2 s =>
      rw [coalesce]
      exact .singleton s
  | case3 s t rest hfree ih =>
      rw [coalesce, if_pos hfree]
      exact ih
  | case4 s t rest hfree ih =>
      obtain ⟨u, rest', heq, hu⟩ := coalesce_cons header t rest
      rw [coalesce, if_neg hfree]
      rw [heq] at ih ⊢
      exact .cons_cons (hu.symm ▸ hfree) ih

/-- The remainder of a split is in front of a segment in use. -/
theorem Reduced.split (h : Reduced (pre ++ s :: suf)) (hfree : s.free = true) :
    Reduced (pre ++ split header request s ++ suf) := by
  obtain ⟨hpre, hrest, hjoin⟩ := List.isChain_append.mp h
  obtain ⟨hsuf, htail⟩ := List.isChain_cons.mp hrest
  have hback : Reduced (Segments.split header request s ++ suf) := by
    unfold Segments.split
    split
    · refine .cons_cons (by simp) (List.isChain_cons.mpr ⟨fun t ht hboth => ?_, htail⟩)
      exact hsuf t ht ⟨hfree, hboth.2⟩
    · exact List.isChain_cons.mpr ⟨by simp, htail⟩
  have hused : ∀ t ∈ (Segments.split header request s ++ suf).head?, t.free = false := by
    unfold Segments.split
    split <;> simp
  rw [List.append_assoc]
  refine List.isChain_append.mpr ⟨hpre, hback, fun t _ u hu hboth => ?_⟩
  simp [hused u hu] at hboth

theorem Reduced.allocate (h : Reduced segments) (a request : Nat) :
    Reduced (allocate header a request segments).2 := by
  unfold Segments.allocate
  cases hfound : firstFit request segments with
  | none => exact h
  | some found =>
      obtain ⟨pre, s, suf⟩ := found
      obtain ⟨rfl, hfree, -⟩ := firstFit_eq_some hfound
      exact h.split hfree

theorem Releases.reduced {segments' : List Segment} (h : Releases header segments segments') :
    Reduced segments' := by
  obtain ⟨pre, n, suf, -, rfl⟩ := h
  exact reduced_coalesce _

/-- When nothing is in use, a reduced list is one free segment. -/
theorem Reduced.eq_singleton (h : Reduced segments) (hused : used header a segments = [])
    (hne : segments ≠ []) : segments = [⟨extent header segments - header, true⟩] := by
  obtain ⟨s, rest, rfl⟩ := List.exists_cons_of_ne_nil hne
  simp only [used] at hused
  split at hused
  · next hfree =>
    cases rest with
    | nil =>
        rw [extent, extent, Nat.add_zero, Nat.add_sub_cancel_left, ← hfree]
    | cons t rest =>
        simp only [used] at hused
        split at hused
        · next hfree' => exact absurd ⟨hfree, hfree'⟩ (List.isChain_cons_cons.mp h).1
        · simp at hused
  · simp at hused

end Segments
end OperatingSystems
