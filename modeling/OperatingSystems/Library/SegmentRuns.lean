import Mathlib.Data.List.SplitBy
import OperatingSystems.Library.Segments

/-!
# Runs of free segments

What `coalesce` makes of a list of segments, said without its loop.

* `placed` — the segments with their addresses; `runs` — these cut up into the longest runs of free
  neighbours, with the segments in use between them.
* `Joined` — the one segment that stands for a run.
* `coalesce_runs` — `coalesce` puts one such segment in the place of each run.
-/

namespace OperatingSystems
namespace Segments

variable (header : Nat)

/-- The segments with the addresses of their headers, for a heap that starts at `a`. -/
def placed (a : Nat) : List Segment → List (Nat × Segment)
  | [] => []
  | s :: rest => (a, s) :: placed (a + header + s.size) rest

/-- The headers of the free segments. -/
def freeHeaders (a : Nat) : List Segment → List Nat
  | [] => []
  | s :: rest =>
      if s.free then a :: freeHeaders (a + header + s.size) rest
      else freeHeaders (a + header + s.size) rest

/-- Two neighbours that are in one run. -/
def bothFree (p q : Nat × Segment) : Bool :=
  p.2.free && q.2.free

/-- The longest runs of free neighbours, and the segments in use, each of them alone. -/
def runs (a : Nat) (segments : List Segment) : List (List (Nat × Segment)) :=
  (placed header a segments).splitBy bothFree

/-- A run becomes one segment at the address of the first, which takes the bytes that all of them
took; a segment in use stays what it is. -/
structure Joined (run : List (Nat × Segment)) (p : Nat × Segment) : Prop where
  address : run.head?.map Prod.fst = some p.1
  free : ∀ q ∈ run, q.2.free = p.2.free
  extent : extent header [p.2] = extent header (run.map Prod.snd)
  alone : p.2.free = false → run = [p]

variable {header} {a b : Nat} {s : Segment} {segments : List Segment} {p : Nat × Segment}

/-! ### Splitting a list -/

section SplitBy

variable {α : Type*} {r : α → α → Bool} {x y : α} {l : List α}

theorem splitBy_cons_cons_of_not (h : r x y = false) :
    (x :: y :: l).splitBy r = [x] :: (y :: l).splitBy r :=
  List.splitBy_append_cons (l := [x]) l (by simpa using h)

theorem splitBy_cons_cons (h : r x y = true) {g : List α} {gs : List (List α)}
    (hsplit : (y :: l).splitBy r = (y :: g) :: gs) :
    (x :: y :: l).splitBy r = (x :: y :: g) :: gs := by
  rw [List.splitBy_eq_iff] at hsplit ⊢
  obtain ⟨hflat, hnil, hchain, hapart⟩ := hsplit
  refine ⟨by simpa using hflat, by simpa using hnil, ?_, ?_⟩
  · intro m hm
    rcases List.mem_cons.mp hm with rfl | hm
    · exact .cons_cons h (hchain _ List.mem_cons_self)
    · exact hchain m (List.mem_cons_of_mem _ hm)
  · refine List.isChain_cons.mpr ⟨fun m hm => ?_, hapart.tail⟩
    obtain ⟨hlast, hhead, hno⟩ := (List.isChain_cons.mp hapart).1 m hm
    exact ⟨by simp, hhead, by simpa using hno⟩

/-- The first group depends on its first element only through what may come behind it. -/
theorem exists_splitBy_cons (r : α → α → Bool) (y : α) (l : List α) :
    ∃ g gs, ∀ x, r x = r y → (x :: l).splitBy r = (x :: g) :: gs := by
  induction l generalizing y with
  | nil => exact ⟨[], [], fun x _ => rfl⟩
  | cons z l ih =>
      obtain ⟨g, gs, hsplit⟩ := ih z
      by_cases hyz : r y z = true
      · refine ⟨z :: g, gs, fun x hx => ?_⟩
        exact splitBy_cons_cons ((congrFun hx z).trans hyz) (hsplit z rfl)
      · refine ⟨[], (z :: l).splitBy r, fun x hx => ?_⟩
        exact splitBy_cons_cons_of_not ((congrFun hx z).trans (by simpa using hyz))

end SplitBy

/-! ### Where the segments lie -/

theorem freeHeaders_sublist (a : Nat) (segments : List Segment) :
    (freeHeaders header a segments).Sublist (headers header a segments) := by
  induction segments generalizing a with
  | nil => exact .slnil
  | cons s rest ih =>
      rw [freeHeaders, headers]
      split
      · exact (ih _).cons_cons a
      · exact (ih _).cons a

theorem placed_bounds (h : p ∈ placed header a segments) :
    a ≤ p.1 ∧ p.1 + header + p.2.size ≤ a + extent header segments := by
  induction segments generalizing a with
  | nil => cases h
  | cons s rest ih =>
      simp only [extent]
      rcases List.mem_cons.mp h with rfl | h
      · exact ⟨le_refl a, by show a + header + s.size ≤ _; omega⟩
      · have := ih h
        omega

/-- A segment in use lies off the headers of the free ones. -/
theorem freeHeaders_off (hp : p ∈ placed header a segments) (hused : p.2.free = false)
    (hb : b ∈ freeHeaders header a segments) :
    b + header ≤ p.1 ∨ p.1 + header + p.2.size ≤ b := by
  induction segments generalizing a with
  | nil => cases hp
  | cons s rest ih =>
      have hrest : ∀ c ∈ freeHeaders header (a + header + s.size) rest,
          a + header + s.size ≤ c := fun c hc =>
        (headers_bounds ((freeHeaders_sublist _ _).subset hc)).1
      rw [freeHeaders] at hb
      rcases List.mem_cons.mp hp with rfl | hp
      · have hs : s.free = false := hused
        rw [if_neg (by simp [hs])] at hb
        exact .inr (hrest b hb)
      · split at hb
        · rcases List.mem_cons.mp hb with rfl | hb
          · have := (placed_bounds hp).1
            omega
          · exact ih hp hb
        · exact ih hp hb

/-! ### Merging -/

theorem Joined.cons_cons {t : Segment} {g : List (Nat × Segment)}
    (hs : s.free = true) (ht : t.free = true)
    (h : Joined header ((a, ⟨s.size + (t.size + header), true⟩) :: g) p) :
    Joined header ((a, s) :: (b, t) :: g) p := by
  have hfree : p.2.free = true := (h.free _ List.mem_cons_self).symm
  refine ⟨h.address, fun q hq => ?_, ?_, fun hused => ?_⟩
  · rcases List.mem_cons.mp hq with rfl | hq
    · rw [hs, hfree]
    · rcases List.mem_cons.mp hq with rfl | hq
      · rw [ht, hfree]
      · exact h.free q (List.mem_cons_of_mem _ hq)
  · rw [h.extent]
    simp only [List.map_cons, Segments.extent]
    omega
  · rw [hfree] at hused
    cases hused

/-- Every run becomes one segment. -/
theorem coalesce_runs (a : Nat) (segments : List Segment) :
    List.Forall₂ (Joined header) (runs header a segments)
      (placed header a (coalesce header segments)) := by
  unfold runs
  induction segments using coalesce.induct header generalizing a with
  | case1 =>
      rw [coalesce]
      exact .nil
  | case2 s =>
      rw [coalesce]
      exact .cons ⟨rfl, by simp, rfl, fun _ => rfl⟩ .nil
  | case3 s t rest hfree ih =>
      -- The two are in one run with what comes behind them, as their sum would be.
      rw [coalesce, if_pos hfree]
      have hend : a + header + (s.size + (t.size + header)) =
          a + header + s.size + header + t.size := by omega
      obtain ⟨g, gs, hsplit⟩ := exists_splitBy_cons bothFree
        (a + header + s.size, t) (placed header (a + header + s.size + header + t.size) rest)
      have hmerged := ih a
      rw [placed, hend, hsplit _ (by funext q; simp [bothFree, hfree.2])] at hmerged
      rw [placed, placed, splitBy_cons_cons (by simp [bothFree, hfree]) (hsplit _ rfl)]
      obtain ⟨q, qs, hjoined, hrest, heq⟩ := List.forall₂_cons_left_iff.mp hmerged
      rw [heq]
      exact .cons (hjoined.cons_cons hfree.1 hfree.2) hrest
  | case4 s t rest hfree ih =>
      rw [coalesce, if_neg hfree, placed, placed, splitBy_cons_cons_of_not, placed]
      · exact .cons ⟨rfl, by simp, rfl, fun _ => rfl⟩ (ih _)
      · simpa [bothFree] using hfree

/-- Whatever is in a run is in the run of one of the segments that are made. -/
theorem exists_joined {runs : List (List (Nat × Segment))} {merged : List (Nat × Segment)}
    (h : List.Forall₂ (Joined header) runs merged) (hp : p ∈ runs.flatten) :
    ∃ run, p ∈ run ∧ ∃ q ∈ merged, Joined header run q := by
  induction h with
  | nil => cases hp
  | @cons run q runs merged hjoined _ ih =>
      rw [List.flatten_cons, List.mem_append] at hp
      rcases hp with hp | hp
      · exact ⟨run, hp, q, List.mem_cons_self, hjoined⟩
      · obtain ⟨run', hp', q', hq', hjoined'⟩ := ih hp
        exact ⟨run', hp', q', List.mem_cons_of_mem _ hq', hjoined'⟩

/-- Segments in use stay where they are. -/
theorem mem_placed_coalesce (hp : p ∈ placed header a segments) (hused : p.2.free = false) :
    p ∈ placed header a (coalesce header segments) := by
  rw [← List.flatten_splitBy bothFree (placed header a segments)] at hp
  obtain ⟨run, hmem, q, hq, hjoined⟩ := exists_joined (coalesce_runs a segments) hp
  have heq := hjoined.alone ((hjoined.free p hmem).symm.trans hused)
  rw [heq, List.mem_singleton] at hmem
  exact hmem ▸ hq

end Segments
end OperatingSystems
