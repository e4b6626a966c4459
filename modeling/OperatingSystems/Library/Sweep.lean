import Mathlib.Data.List.Basic
import Mathlib.NumberTheory.Padics.PadicVal.Basic

/-!
# Sweeps round a ring

A sweep walks round a ring and looks for an element that is due.  An element that is gone is
taken out of the ring, and the sweep then goes on behind its successor without having looked
at that one.  It also ends where it comes back to `stop`, unless `stop` itself has been taken
out.  The ring is the list of what follows the present position, which comes last.

* `before`, `passes` — the gone elements directly before an element, and how often the sweep
  passes it over.
* `sweep_ends_iff` — when a sweep ends.
* `sweep_first_iff` — when it ends at the first element of the ring that is due.
-/

namespace OperatingSystems
namespace Sweep

variable {α : Type*} [DecidableEq α]

/-- The element at which the sweep ends, `none` when the fuel runs out. -/
def sweep (gone due : α → Prop) [DecidablePred gone] [DecidablePred due] (stop : α) :
    Nat → List α → Option α
  | fuel + 1, y :: l =>
      if gone y then
        match l with
        | [] => none
        | z :: l => if z = stop then some z else sweep gone due stop fuel (l ++ [z])
      else if due y ∨ y = stop then some y
      else sweep gone due stop fuel (l ++ [y])
  | _, _ => none

/-- The number of gone elements directly before `d`, when `r` of them are directly before the
list. -/
def before (gone : α → Prop) [DecidablePred gone] (d : α) : Nat → List α → Nat
  | r, [] => r
  | r, y :: l => if y = d then r else before gone d (if gone y then r + 1 else 0) l

/-- The number of gone elements at the end of a list. -/
def trailing (gone : α → Prop) [DecidablePred gone] (r : Nat) (l : List α) : Nat :=
  l.foldl (fun r y => if gone y then r + 1 else 0) r

/-- How often the sweep passes `d` over, where it takes `stop` out: every time round, one of
two neighbouring gone elements is taken out.  Those up to the present position are due to be
met once more than those behind it. -/
def passes (gone : α → Prop) [DecidablePred gone] (l : List α) (d : α) : Nat :=
  padicValNat 2 (before gone d (2 * trailing gone 0 l) l + 1)

/-- The sweep will take `stop` out, if it is still there. -/
def Loses (gone : α → Prop) [DecidablePred gone] (stop : α) (l : List α) : Prop :=
  stop ∈ l → gone stop ∧ before gone stop 0 l % 2 = 0

instance (gone : α → Prop) [DecidablePred gone] (stop : α) (l : List α) :
    Decidable (Loses gone stop l) :=
  inferInstanceAs (Decidable (_ → _))

section Counts

variable {gone : α → Prop} [DecidablePred gone] {l k : List α} {d y z : α} {r r' : Nat}

theorem before_append_of_mem (hd : d ∈ l) : before gone d r (l ++ k) = before gone d r l := by
  induction l generalizing r with
  | nil => simp at hd
  | cons y l ih =>
      simp only [List.cons_append, before]
      by_cases hy : y = d
      · rw [if_pos hy, if_pos hy]
      · rw [if_neg hy, if_neg hy]
        exact ih ((List.mem_cons.mp hd).resolve_left (Ne.symm hy))

theorem before_append_self (hd : d ∉ l) : before gone d r (l ++ d :: k) = trailing gone r l := by
  induction l generalizing r with
  | nil => simp [before, trailing]
  | cons y l ih =>
      simp only [List.mem_cons, not_or] at hd
      simp only [List.cons_append, before]
      rw [if_neg (Ne.symm hd.1), ih hd.2]
      rfl

omit [DecidableEq α] in
theorem trailing_append : trailing gone r (l ++ k) = trailing gone (trailing gone r l) k :=
  List.foldl_append

omit [DecidableEq α] in
/-- What comes before an element that stays does not matter behind it. -/
theorem trailing_eq_of_mem (hd : d ∈ l) (hstays : ¬gone d) :
    trailing gone r l = trailing gone r' l := by
  obtain ⟨a, b, rfl⟩ := List.append_of_mem hd
  rw [trailing_append, trailing_append]
  show trailing gone (if gone d then _ else 0) b = trailing gone (if gone d then _ else 0) b
  rw [if_neg hstays, if_neg hstays]

omit [DecidableEq α] in
theorem trailing_mod_two (h : r % 2 = r' % 2) :
    trailing gone r l % 2 = trailing gone r' l % 2 := by
  induction l generalizing r r' with
  | nil => exact h
  | cons y l ih =>
      show trailing gone (if gone y then r + 1 else 0) l % 2 =
        trailing gone (if gone y then r' + 1 else 0) l % 2
      apply ih
      split <;> omega

theorem before_mod_two (h : r % 2 = r' % 2) :
    before gone d r l % 2 = before gone d r' l % 2 := by
  induction l generalizing r r' with
  | nil => exact h
  | cons y l ih =>
      simp only [before]
      split
      · exact h
      · apply ih
        split <;> omega

/-- Behind two elements of which the first is gone. -/
theorem before_cons_cons (hy : gone y) (hyd : y ≠ d) (hzd : z ≠ d) :
    before gone d r (y :: z :: l) = before gone d (if gone z then r + 2 else 0) l := by
  simp only [before]
  rw [if_neg hyd, if_neg hzd, if_pos hy]

theorem before_cons_of_stays (hy : ¬gone y) (hyd : y ≠ d) :
    before gone d r (y :: l) = before gone d 0 l := by
  simp only [before]
  rw [if_neg hyd, if_neg hy]

theorem padicValNat_of_even {n : Nat} (h : n % 2 = 0) : padicValNat 2 (n + 1) = 0 :=
  padicValNat.eq_zero_of_not_dvd (by omega)

theorem padicValNat_double (n : Nat) :
    padicValNat 2 (2 * n + 1 + 1) = padicValNat 2 (n + 1) + 1 := by
  rw [show 2 * n + 1 + 1 = 2 * (n + 1) by omega, padicValNat.mul (by omega) (by omega),
    padicValNat_self]
  omega

/-- The first element is looked at. -/
theorem passes_cons_self : passes gone (d :: l) d = 0 := by
  simp only [passes, before, if_true]
  exact padicValNat_of_even (by omega)

/-- Behind an element that stays. -/
theorem passes_of_stays (hy : ¬gone y) (hyd : y ≠ d) (hd : d ∈ l) :
    passes gone (l ++ [y]) d = passes gone (y :: l) d := by
  have htrailing : trailing gone 0 (l ++ [y]) = 0 := by
    rw [trailing_append]
    show (if gone y then _ else 0) = 0
    rw [if_neg hy]
  rw [passes, passes, htrailing, before_append_of_mem hd, before_cons_of_stays hy hyd]

/-- Behind a gone element and its successor. -/
theorem passes_of_gone (hy : gone y) (hyd : y ≠ d) (hzd : z ≠ d) (hd : d ∈ l)
    (hstays : ¬gone d) : passes gone (l ++ [z]) d = passes gone (y :: z :: l) d := by
  rw [passes, passes, before_append_of_mem hd, before_cons_cons hy hyd hzd, trailing_append]
  show padicValNat 2 (before gone d (2 * (if gone z then trailing gone 0 l + 1 else 0)) l + 1) = _
  by_cases hz : gone z
  · have htrailing : trailing gone 0 (y :: z :: l) = trailing gone 0 l :=
      trailing_eq_of_mem hd hstays
    rw [if_pos hz, if_pos hz, htrailing]
    rfl
  · rw [if_neg hz, if_neg hz]

/-- The successor of a gone element is passed over once. -/
theorem passes_of_passed (hy : gone y) (hyz : y ≠ z) (hz : ¬gone z) (hzl : z ∉ l) :
    passes gone (y :: z :: l) z = passes gone (l ++ [z]) z + 1 := by
  have htrailing : trailing gone 0 (l ++ [z]) = 0 := by
    rw [trailing_append]
    show (if gone z then _ else 0) = 0
    rw [if_neg hz]
  have hback : trailing gone 0 (y :: z :: l) = trailing gone 0 l := by
    show trailing gone (if gone z then _ else 0) l = trailing gone 0 l
    rw [if_neg hz]
  rw [passes, passes, htrailing, hback, before_append_self hzl, ← padicValNat_double]
  simp [before, hyz, hy]

end Counts

/-! ### One turn -/

section Turns

variable {gone due : α → Prop} [DecidablePred gone] [DecidablePred due] {stop : α} {fuel : Nat}
  {l : List α} {c d y z : α}

theorem sweep_of_gone (hy : gone y) :
    sweep gone due stop (fuel + 1) (y :: z :: l) =
      if z = stop then some z else sweep gone due stop fuel (l ++ [z]) := by
  simp only [sweep]
  rw [if_pos hy]

theorem sweep_of_stays (hy : ¬gone y) :
    sweep gone due stop (fuel + 1) (y :: l) =
      if due y ∨ y = stop then some y else sweep gone due stop fuel (l ++ [y]) := by
  simp only [sweep]
  rw [if_neg hy]

/-- The sweep depends only on who is gone and who is due. -/
theorem sweep_congr {gone' due' : α → Prop} [DecidablePred gone'] [DecidablePred due']
    (hgone : ∀ y, gone' y ↔ gone y) (hdue : ∀ y, due' y ↔ due y) :
    sweep gone' due' stop fuel l = sweep gone due stop fuel l := by
  induction fuel generalizing l with
  | zero => simp [sweep]
  | succ fuel ih =>
      cases l with
      | nil => simp [sweep]
      | cons y l => cases l <;> simp only [sweep, hgone, hdue, ih]

/-- A ring without repetitions, in which somebody stays; who is due stays. -/
structure Ready (gone due : α → Prop) (l : List α) : Prop where
  nodup : l.Nodup
  stays : ∃ m ∈ l, ¬gone m
  due : ∀ y, due y → ¬gone y

namespace Ready

omit [DecidableEq α] [DecidablePred gone] [DecidablePred due] in
theorem turn_of_gone (h : Ready gone due (y :: z :: l)) (hy : gone y) :
    Ready gone due (l ++ [z]) ∧ y ∉ z :: l ∧ z ∉ l := by
  obtain ⟨hnodup, ⟨m, hm, hstays⟩, hdue⟩ := h
  obtain ⟨hyl, hzl⟩ := List.nodup_cons.mp hnodup
  have hperm : (l ++ [z]).Perm (z :: l) := List.perm_append_singleton z l
  refine ⟨⟨hperm.nodup_iff.mpr hzl, ⟨m, hperm.mem_iff.mpr ?_, hstays⟩, hdue⟩, hyl,
    (List.nodup_cons.mp hzl).1⟩
  rcases List.mem_cons.mp hm with rfl | hm
  · exact absurd hy hstays
  · exact hm

omit [DecidableEq α] [DecidablePred gone] [DecidablePred due] in
theorem turn_of_stays (h : Ready gone due (y :: l)) : Ready gone due (l ++ [y]) ∧ y ∉ l := by
  obtain ⟨hnodup, ⟨m, hm, hstays⟩, hdue⟩ := h
  have hperm : (l ++ [y]).Perm (y :: l) := List.perm_append_singleton y l
  exact ⟨⟨hperm.nodup_iff.mpr hnodup, ⟨m, hperm.mem_iff.mpr hm, hstays⟩, hdue⟩,
    (List.nodup_cons.mp hnodup).1⟩

omit [DecidableEq α] [DecidablePred gone] [DecidablePred due] in
/-- Nobody is alone and gone. -/
theorem ne_nil_of_gone (h : Ready gone due (y :: l)) (hy : gone y) : ∃ z k, l = z :: k := by
  obtain ⟨m, hm, hstays⟩ := h.stays
  apply List.exists_cons_of_ne_nil
  rintro rfl
  exact hstays (List.mem_singleton.mp hm ▸ hy)

end Ready

/-- A turn of a sweep: what it looks at is gone, or not. -/
theorem turn (stop : α) (h : Ready gone due l) :
    (∃ y z k, l = y :: z :: k ∧ gone y ∧ y ∉ z :: k ∧ z ∉ k ∧ Ready gone due (k ++ [z]) ∧
      ∀ fuel, sweep gone due stop (fuel + 1) l =
        if z = stop then some z else sweep gone due stop fuel (k ++ [z])) ∨
    ∃ y k, l = y :: k ∧ ¬gone y ∧ y ∉ k ∧ Ready gone due (k ++ [y]) ∧
      ∀ fuel, sweep gone due stop (fuel + 1) l =
        if due y ∨ y = stop then some y else sweep gone due stop fuel (k ++ [y]) := by
  cases l with
  | nil =>
      obtain ⟨m, hm, -⟩ := h.stays
      simp at hm
  | cons y k =>
      by_cases hy : gone y
      · obtain ⟨z, k, rfl⟩ := h.ne_nil_of_gone hy
        obtain ⟨hready, hyl, hzl⟩ := h.turn_of_gone hy
        exact .inl ⟨y, z, k, rfl, hy, hyl, hzl, hready, fun _ => sweep_of_gone hy⟩
      · obtain ⟨hready, hyl⟩ := h.turn_of_stays
        exact .inr ⟨y, k, rfl, hy, hyl, hready, fun _ => sweep_of_stays hy⟩

/-! ### What a turn does to the places of the others -/

theorem idxOf_of_gone (hyd : y ≠ d) (hzd : z ≠ d) (hd : d ∈ l) :
    (y :: z :: l).idxOf d = (l ++ [z]).idxOf d + 2 := by
  rw [List.idxOf_cons_ne _ hyd, List.idxOf_cons_ne _ hzd, List.idxOf_append_of_mem hd]

theorem idxOf_of_stays (hyd : y ≠ d) (hd : d ∈ l) :
    (y :: l).idxOf d = (l ++ [y]).idxOf d + 1 := by
  rw [List.idxOf_cons_ne _ hyd, List.idxOf_append_of_mem hd]

theorem before_of_gone (hy : gone y) (hyd : y ≠ d) (hzd : z ≠ d) (hd : d ∈ l) :
    before gone d 0 (y :: z :: l) % 2 = before gone d 0 (l ++ [z]) % 2 := by
  rw [before_cons_cons hy hyd hzd, before_append_of_mem hd]
  apply before_mod_two
  split <;> rfl

theorem before_of_stays (hy : ¬gone y) (hyd : y ≠ d) (hd : d ∈ l) :
    before gone d 0 (y :: l) = before gone d 0 (l ++ [y]) := by
  rw [before_cons_of_stays hy hyd, before_append_of_mem hd]

theorem before_passed (hy : gone y) (hyz : y ≠ z) : before gone z 0 (y :: z :: l) = 1 := by
  simp [before, hyz, hy]

/-- `stop` is not met before it is taken out. -/
theorem Loses.of_gone (h : Loses gone stop (y :: z :: l)) (hy : gone y) (hyl : y ∉ z :: l) :
    z ≠ stop ∧ Loses gone stop (l ++ [z]) := by
  have hz : z ≠ stop := by
    rintro rfl
    have hodd := (h (by simp)).2
    rw [before_passed hy fun hyz => hyl (by simp [hyz])] at hodd
    omega
  refine ⟨hz, fun hmem => ?_⟩
  have hstop : stop ∈ l := by simpa [hz.symm] using hmem
  obtain ⟨hgone, heven⟩ := h (by simp [hstop])
  have hystop : y ≠ stop := by
    rintro rfl
    exact hyl (by simp [hstop])
  exact ⟨hgone, (before_of_gone hy hystop hz hstop).symm.trans heven⟩

theorem Loses.of_stays (h : Loses gone stop (y :: l)) (hy : ¬gone y) :
    y ≠ stop ∧ Loses gone stop (l ++ [y]) := by
  have hystop : y ≠ stop := by
    rintro rfl
    exact hy (h (by simp)).1
  refine ⟨hystop, fun hmem => ?_⟩
  have hstop : stop ∈ l := by simpa [hystop.symm] using hmem
  obtain ⟨hgone, heven⟩ := h (by simp [hstop])
  exact ⟨hgone, (before_of_stays hy hystop hstop) ▸ heven⟩

/-- The sweep comes to `stop`, or nearer to it. -/
theorem not_loses_of_gone (h : ¬Loses gone stop (y :: z :: l)) (hy : gone y) :
    y ≠ stop ∧ (z = stop ∨ ¬Loses gone stop (l ++ [z])) := by
  obtain ⟨hmem, hmeets⟩ := Classical.not_imp.mp h
  have hystop : y ≠ stop := by
    rintro rfl
    exact hmeets ⟨hy, by simp [before]⟩
  refine ⟨hystop, ?_⟩
  by_cases hz : z = stop
  · exact .inl hz
  · have hstop : stop ∈ l := by simpa [Ne.symm hystop, Ne.symm hz] using hmem
    refine .inr fun hlater => hmeets ?_
    obtain ⟨hgone, heven⟩ := hlater (by simp [hstop])
    exact ⟨hgone, (before_of_gone hy hystop hz hstop).trans heven⟩

theorem not_loses_of_stays (h : ¬Loses gone stop (y :: l)) (hy : ¬gone y) :
    y = stop ∨ ¬Loses gone stop (l ++ [y]) := by
  obtain ⟨hmem, hmeets⟩ := Classical.not_imp.mp h
  by_cases hystop : y = stop
  · exact .inl hystop
  · have hstop : stop ∈ l := by simpa [Ne.symm hystop] using hmem
    refine .inr fun hlater => hmeets ?_
    obtain ⟨hgone, heven⟩ := hlater (by simp [hstop])
    rw [before_of_stays hy hystop hstop]
    exact ⟨hgone, heven⟩

theorem mem_of_not_loses (h : ¬Loses gone stop l) : stop ∈ l :=
  (Classical.not_imp.mp h).1

/-! ### When a sweep ends -/

/-- A longer sweep ends at the same element. -/
theorem sweep_succ (h : Ready gone due l) (hc : sweep gone due stop fuel l = some c) :
    sweep gone due stop (fuel + 1) l = some c := by
  induction fuel generalizing l with
  | zero => simp [sweep] at hc
  | succ fuel ih =>
      rcases turn stop h with ⟨y, z, k, rfl, -, -, -, hready, hturn⟩ |
        ⟨y, k, rfl, -, -, hready, hturn⟩
      · rw [hturn] at hc ⊢
        split at hc
        · next hz => rw [if_pos hz, hc]
        · next hz => rw [if_neg hz, ih hready hc]
      · rw [hturn] at hc ⊢
        split at hc
        · next hend => rw [if_pos hend, hc]
        · next hgo => rw [if_neg hgo, ih hready hc]

theorem sweep_of_le {fuel' : Nat} (h : Ready gone due l) (hle : fuel ≤ fuel')
    (hc : sweep gone due stop fuel l = some c) : sweep gone due stop fuel' l = some c := by
  induction hle with
  | refl => exact hc
  | step _ ih => exact sweep_succ h ih

/-- The fuel does not matter. -/
theorem sweep_unique {fuel' : Nat} {c' : α} (h : Ready gone due l)
    (hc : sweep gone due stop fuel l = some c) (hc' : sweep gone due stop fuel' l = some c') :
    c = c' := by
  have hmax := sweep_of_le h (Nat.le_max_left fuel fuel') hc
  rw [sweep_of_le h (Nat.le_max_right fuel fuel') hc'] at hmax
  exact (Option.some.inj hmax).symm

/-- The sweep comes to `stop`, when it does not take it out. -/
theorem sweep_ends_of_not_loses (h : Ready gone due l) (hstop : ¬Loses gone stop l) :
    ∃ fuel c, sweep gone due stop fuel l = some c := by
  -- Every turn brings `stop` nearer, by one place or by two.
  induction hn : l.idxOf stop using Nat.strong_induction_on generalizing l with
  | _ n ih =>
      rcases turn stop h with ⟨y, z, k, rfl, hy, hyl, hzl, hready, hturn⟩ |
        ⟨y, k, rfl, hy, hyk, hready, hturn⟩
      · obtain ⟨hystop, hz | hlater⟩ := not_loses_of_gone hstop hy
        · exact ⟨1, z, by rw [hturn, if_pos hz]⟩
        · by_cases hz : z = stop
          · exact ⟨1, z, by rw [hturn, if_pos hz]⟩
          · have hmem : stop ∈ k := by simpa [Ne.symm hz] using mem_of_not_loses hlater
            have hidx := idxOf_of_gone hystop hz hmem
            obtain ⟨fuel, c, hc⟩ := ih _ (by omega) hready hlater rfl
            exact ⟨fuel + 1, c, by rw [hturn, if_neg hz, hc]⟩
      · by_cases hend : due y ∨ y = stop
        · exact ⟨1, y, by rw [hturn, if_pos hend]⟩
        · obtain ⟨-, hystop⟩ := not_or.mp hend
          have hlater := (not_loses_of_stays hstop hy).resolve_left hystop
          have hmem : stop ∈ k := by simpa [Ne.symm hystop] using mem_of_not_loses hlater
          have hidx := idxOf_of_stays hystop hmem
          obtain ⟨fuel, c, hc⟩ := ih _ (by omega) hready hlater rfl
          exact ⟨fuel + 1, c, by rw [hturn, if_neg hend, hc]⟩

/-- The sweep takes out one element after the other until it looks at one that is due. -/
theorem sweep_ends_of_due (stop : α) (h : Ready gone due l) (hd : d ∈ l) (hdue : due d) :
    ∃ fuel c, sweep gone due stop fuel l = some c := by
  -- A turn at a gone element makes the ring shorter, another one brings `d` nearer.
  induction hn : l.length using Nat.strong_induction_on generalizing l with
  | _ n ih =>
      induction hi : l.idxOf d using Nat.strong_induction_on generalizing l with
      | _ i ihi =>
          rcases turn stop h with ⟨y, z, k, rfl, hy, hyl, hzl, hready, hturn⟩ |
            ⟨y, k, rfl, hy, hyk, hready, hturn⟩
          · by_cases hz : z = stop
            · exact ⟨1, z, by rw [hturn, if_pos hz]⟩
            · have hyd : y ≠ d := fun heq => h.due d hdue (heq ▸ hy)
              have hmem : d ∈ k ++ [z] := by
                have := (List.mem_cons.mp hd).resolve_left (Ne.symm hyd)
                exact (List.perm_append_singleton z k).mem_iff.mpr this
              have hlength : (k ++ [z]).length < n := by
                rw [← hn]
                simp
              obtain ⟨fuel, c, hc⟩ := ih _ hlength hready hmem rfl
              exact ⟨fuel + 1, c, by rw [hturn, if_neg hz, hc]⟩
          · by_cases hend : due y ∨ y = stop
            · exact ⟨1, y, by rw [hturn, if_pos hend]⟩
            · have hyd : y ≠ d := fun heq => hend (.inl (heq ▸ hdue))
              have hmem : d ∈ k := (List.mem_cons.mp hd).resolve_left (Ne.symm hyd)
              have hidx := idxOf_of_stays hyd hmem
              obtain ⟨fuel, c, hc⟩ := ihi _ (by omega) hready (by simp [hmem])
                (by simpa using hn) rfl
              exact ⟨fuel + 1, c, by rw [hturn, if_neg hend, hc]⟩

/-- With `stop` taken out and nobody due the sweep goes on for ever. -/
theorem sweep_eq_none (h : Ready gone due l) (hloses : Loses gone stop l)
    (hnone : ∀ d ∈ l, ¬due d) (fuel : Nat) : sweep gone due stop fuel l = none := by
  induction fuel generalizing l with
  | zero => simp [sweep]
  | succ fuel ih =>
      rcases turn stop h with ⟨y, z, k, rfl, hy, hyl, hzl, hready, hturn⟩ |
        ⟨y, k, rfl, hy, hyk, hready, hturn⟩
      · obtain ⟨hz, hlater⟩ := hloses.of_gone hy hyl
        rw [hturn, if_neg hz]
        refine ih hready hlater fun d hd => hnone d (List.mem_cons_of_mem y ?_)
        exact (List.perm_append_singleton z k).mem_iff.mp hd
      · obtain ⟨hystop, hlater⟩ := hloses.of_stays hy
        rw [hturn, if_neg (by simp [hystop, hnone y])]
        refine ih hready hlater fun d hd => hnone d ?_
        exact (List.perm_append_singleton y k).mem_iff.mp hd

/-- When a sweep ends. -/
theorem sweep_ends_iff (h : Ready gone due l) :
    (∃ fuel c, sweep gone due stop fuel l = some c) ↔
      ¬Loses gone stop l ∨ ∃ d ∈ l, due d := by
  constructor
  · rintro ⟨fuel, c, hc⟩
    by_contra hnever
    obtain ⟨hloses, hnone⟩ := not_or.mp hnever
    have hforever := sweep_eq_none h (not_not.mp hloses)
      (fun d hd hdue => hnone ⟨d, hd, hdue⟩) fuel
    simp [hforever] at hc
  · rintro (hstop | ⟨d, hd, hdue⟩)
    · exact sweep_ends_of_not_loses h hstop
    · exact sweep_ends_of_due stop h hd hdue

/-! ### Where a sweep ends -/

/-- Passed over less often, or as often and first on the ring. -/
def Earlier (gone : α → Prop) [DecidablePred gone] (l : List α) (c d : α) : Prop :=
  passes gone l c < passes gone l d ∨
    passes gone l c = passes gone l d ∧ l.idxOf c ≤ l.idxOf d

theorem Earlier.head : Earlier gone (c :: l) c d := by
  have hpasses : passes gone (c :: l) c = 0 := passes_cons_self
  have hidx : (c :: l).idxOf c = 0 := List.idxOf_cons_self
  unfold Earlier
  omega

/-- In a turn at a gone element only its successor `z` is passed over, and becomes the last. -/
theorem place_of_gone (hy : gone y) (hyl : y ∉ z :: l) (hzl : z ∉ l) (hd : d ∈ z :: l)
    (hstays : ¬gone d) :
    (d = z ∧ passes gone (y :: z :: l) d = passes gone (l ++ [z]) d + 1 ∧
      (y :: z :: l).idxOf d = 1 ∧ (l ++ [z]).idxOf d = l.length) ∨
    (passes gone (y :: z :: l) d = passes gone (l ++ [z]) d ∧
      (y :: z :: l).idxOf d = (l ++ [z]).idxOf d + 2 ∧ (l ++ [z]).idxOf d < l.length) := by
  have hyd : y ≠ d := fun heq => hyl (heq ▸ hd)
  by_cases hdz : z = d
  · subst hdz
    refine .inl ⟨rfl, passes_of_passed hy hyd hstays hzl, ?_, ?_⟩
    · rw [List.idxOf_cons_ne _ hyd, List.idxOf_cons_self]
    · rw [List.idxOf_append_of_notMem hzl, List.idxOf_cons_self]
      rfl
  · have hdl : d ∈ l := (List.mem_cons.mp hd).resolve_left (Ne.symm hdz)
    refine .inr ⟨(passes_of_gone hy hyd hdz hdl hstays).symm, idxOf_of_gone hyd hdz hdl, ?_⟩
    rw [List.idxOf_append_of_mem hdl]
    exact List.idxOf_lt_length_of_mem hdl

/-- A turn keeps the order in which the others are reached. -/
theorem Earlier.of_gone (h : Earlier gone (l ++ [z]) c d) (hy : gone y) (hyl : y ∉ z :: l)
    (hzl : z ∉ l) (hc : c ∈ z :: l) (hcstays : ¬gone c) (hd : d ∈ z :: l) (hdstays : ¬gone d) :
    Earlier gone (y :: z :: l) c d := by
  have hcplace := place_of_gone hy hyl hzl hc hcstays
  have hdplace := place_of_gone hy hyl hzl hd hdstays
  unfold Earlier at h ⊢
  rcases hcplace with ⟨rfl, hcplace⟩ | hcplace <;>
    rcases hdplace with ⟨rfl, hdplace⟩ | hdplace <;> omega

theorem Earlier.of_stays (h : Earlier gone (l ++ [y]) c d) (hy : ¬gone y) (hyc : y ≠ c)
    (hc : c ∈ l) (hyd : y ≠ d) (hd : d ∈ l) : Earlier gone (y :: l) c d := by
  have hcpasses := passes_of_stays hy hyc hc
  have hdpasses := passes_of_stays hy hyd hd
  have hcidx := idxOf_of_stays hyc hc
  have hdidx := idxOf_of_stays hyd hd
  unfold Earlier at h ⊢
  omega

/-- Without `stop` the sweep ends at the one that is due and is looked at first. -/
theorem sweep_earliest (h : Ready gone due l) (hloses : Loses gone stop l)
    (hc : sweep gone due stop fuel l = some c) :
    c ∈ l ∧ due c ∧ ∀ d ∈ l, due d → Earlier gone l c d := by
  induction fuel generalizing l with
  | zero => simp [sweep] at hc
  | succ fuel ih =>
      rcases turn stop h with ⟨y, z, k, rfl, hy, hyl, hzl, hready, hturn⟩ |
        ⟨y, k, rfl, hy, hyk, hready, hturn⟩
      -- `y` goes, and `z` waits for the next round behind the others.
      · obtain ⟨hz, hlater⟩ := hloses.of_gone hy hyl
        rw [hturn, if_neg hz] at hc
        obtain ⟨hmem, hduec, hearliest⟩ := ih hready hlater hc
        have hperm : (k ++ [z]).Perm (z :: k) := List.perm_append_singleton z k
        have hck : c ∈ z :: k := hperm.mem_iff.mp hmem
        refine ⟨List.mem_cons_of_mem y hck, hduec, fun d hd hdued => ?_⟩
        have hdy : d ≠ y := by
          rintro rfl
          exact h.due d hdued hy
        have hdk : d ∈ z :: k := (List.mem_cons.mp hd).resolve_left hdy
        have hcd := hearliest d (hperm.mem_iff.mpr hdk) hdued
        exact hcd.of_gone hy hyl hzl hck (h.due c hduec) hdk (h.due d hdued)
      · obtain ⟨hystop, hlater⟩ := hloses.of_stays hy
        rw [hturn] at hc
        by_cases hdue : due y
        · rw [if_pos (.inl hdue)] at hc
          obtain rfl := Option.some.inj hc
          exact ⟨List.mem_cons_self, hdue, fun d _ _ => .head⟩
        · rw [if_neg (by simp [hystop, hdue])] at hc
          obtain ⟨hmem, hduec, hearliest⟩ := ih hready hlater hc
          have hperm : (k ++ [y]).Perm (y :: k) := List.perm_append_singleton y k
          have hbehind : ∀ d ∈ y :: k, due d → y ≠ d ∧ d ∈ k := by
            intro d hd hdued
            have hyd : y ≠ d := by
              rintro rfl
              exact hdue hdued
            exact ⟨hyd, (List.mem_cons.mp hd).resolve_left (Ne.symm hyd)⟩
          obtain ⟨hyc, hck⟩ := hbehind c (hperm.mem_iff.mp hmem) hduec
          refine ⟨hperm.mem_iff.mp hmem, hduec, fun d hd hdued => ?_⟩
          obtain ⟨hyd, hdk⟩ := hbehind d hd hdued
          exact (hearliest d (hperm.mem_iff.mpr hd) hdued).of_stays hy hyc hck hyd hdk

/-- An element that is not passed over the first time is reached, when nobody before it is
due. -/
theorem sweep_of_even {a b : List α} (hdue : due d) (hstays : ¬gone d)
    (hfirst : ∀ y ∈ a, ¬due y ∧ y ≠ stop) (heven : trailing gone 0 a % 2 = 0) :
    ∃ fuel, sweep gone due stop fuel (a ++ d :: b) = some d := by
  -- A gone element takes its successor along, so that the last of `a` is not gone alone.
  induction hn : a.length using Nat.strong_induction_on generalizing a b with
  | _ n ih =>
      cases a with
      | nil => exact ⟨1, by rw [List.nil_append, sweep_of_stays hstays, if_pos (.inl hdue)]⟩
      | cons y a =>
          obtain ⟨hynot, hystop⟩ := hfirst y List.mem_cons_self
          by_cases hy : gone y
          · cases a with
            | nil => simp [trailing, hy] at heven
            | cons z a =>
                obtain ⟨-, hzstop⟩ := hfirst z (by simp)
                have hrest : trailing gone 0 a % 2 = 0 := by
                  have hsame : trailing gone 0 a % 2 =
                      trailing gone (if gone z then 2 else 0) a % 2 := by
                    apply trailing_mod_two
                    split <;> rfl
                  rw [hsame]
                  simpa [trailing, hy] using heven
                obtain ⟨fuel, hfuel⟩ := ih a.length (by simp [← hn])
                  (b := b ++ [z]) (fun w hw => hfirst w (by simp [hw])) hrest rfl
                refine ⟨fuel + 1, ?_⟩
                rw [List.cons_append, List.cons_append, sweep_of_gone hy, if_neg hzstop]
                simpa using hfuel
          · have hrest : trailing gone 0 a % 2 = 0 := by
              simpa [trailing, hy] using heven
            obtain ⟨fuel, hfuel⟩ := ih a.length (by simp [← hn])
              (b := b ++ [y]) (fun w hw => hfirst w (by simp [hw])) hrest rfl
            refine ⟨fuel + 1, ?_⟩
            rw [List.cons_append, sweep_of_stays hy, if_neg (by simp [hynot, hystop])]
            simpa using hfuel

theorem mem_of_idxOf_lt (hstop : stop ∈ l) (hlt : (l ++ [y]).idxOf d < (l ++ [y]).idxOf stop) :
    d ∈ l := by
  by_contra hd
  have hstoplt := List.idxOf_lt_length_of_mem hstop
  rw [List.idxOf_append_of_notMem hd, List.idxOf_append_of_mem hstop] at hlt
  omega

/-- An element that is passed over the first time is not reached before `stop`. -/
theorem sweep_ne_of_odd (h : Ready gone due l) (hstop : ¬Loses gone stop l) (hne : d ≠ stop)
    (hodd : l.idxOf d < l.idxOf stop → before gone d 0 l % 2 = 1)
    (hc : sweep gone due stop fuel l = some c) : c ≠ d := by
  induction fuel generalizing l with
  | zero => simp [sweep] at hc
  | succ fuel ih =>
      rcases turn stop h with ⟨y, z, k, rfl, hy, hyl, hzl, hready, hturn⟩ |
        ⟨y, k, rfl, hy, hyk, hready, hturn⟩
      -- The two that are passed over together keep the parity in front of `d`.
      · rw [hturn] at hc
        obtain ⟨hystop, hlater⟩ := not_loses_of_gone hstop hy
        by_cases hz : z = stop
        · rw [if_pos hz] at hc
          obtain rfl := Option.some.inj hc
          exact hz.trans_ne hne.symm
        · rw [if_neg hz] at hc
          have hlater := hlater.resolve_left hz
          have hstopk : stop ∈ k := by simpa [Ne.symm hz] using mem_of_not_loses hlater
          refine ih hready hlater (fun hlt => ?_) hc
          have hdk := mem_of_idxOf_lt hstopk hlt
          have hyd : y ≠ d := fun heq => hyl (by simp [heq, hdk])
          have hzd : z ≠ d := fun heq => hzl (heq ▸ hdk)
          rw [← before_of_gone hy hyd hzd hdk]
          apply hodd
          rw [idxOf_of_gone hyd hzd hdk, idxOf_of_gone hystop hz hstopk]
          omega
      · rw [hturn] at hc
        by_cases hend : due y ∨ y = stop
        · rw [if_pos hend] at hc
          obtain rfl := Option.some.inj hc
          rintro rfl
          have hlt : (y :: k).idxOf y < (y :: k).idxOf stop := by
            rw [List.idxOf_cons_self, List.idxOf_cons_ne _ hne]
            omega
          simpa [before] using hodd hlt
        · rw [if_neg hend] at hc
          obtain ⟨-, hystop⟩ := not_or.mp hend
          have hlater := (not_loses_of_stays hstop hy).resolve_left hystop
          have hstopk : stop ∈ k := by simpa [Ne.symm hystop] using mem_of_not_loses hlater
          refine ih hready hlater (fun hlt => ?_) hc
          have hdk := mem_of_idxOf_lt hstopk hlt
          have hyd : y ≠ d := fun heq => hyk (heq ▸ hdk)
          rw [← before_of_stays hy hyd hdk]
          apply hodd
          rw [idxOf_of_stays hyd hdk, idxOf_of_stays hystop hstopk]
          omega

/-- When a sweep ends at `d`, the first element of the ring that is due. -/
theorem sweep_first_iff {a b : List α} (h : Ready gone due (a ++ d :: b)) (hdue : due d)
    (hfirst : ∀ y ∈ a, ¬due y) (hstop : stop ∈ b) :
    (∃ fuel, sweep gone due stop fuel (a ++ d :: b) = some d) ↔
      before gone d 0 (a ++ d :: b) % 2 = 0 ∨
        (Loses gone stop (a ++ d :: b) ∧ ∀ x ∈ a ++ d :: b, due x →
          passes gone (a ++ d :: b) d ≤ passes gone (a ++ d :: b) x) := by
  obtain ⟨-, hdb, hapart⟩ := List.nodup_append.mp h.nodup
  have hda : d ∉ a := fun hmem => hapart d hmem d List.mem_cons_self rfl
  have hstopa : stop ∉ a := fun hmem => hapart stop hmem stop (by simp [hstop]) rfl
  have hne : d ≠ stop := by
    rintro rfl
    exact (List.nodup_cons.mp hdb).1 hstop
  have hidx : (a ++ d :: b).idxOf d = a.length := by
    rw [List.idxOf_append_of_notMem hda, List.idxOf_cons_self]
    rfl
  by_cases heven : before gone d 0 (a ++ d :: b) % 2 = 0
  · refine iff_of_true (sweep_of_even hdue (h.due d hdue) (fun y hy => ⟨hfirst y hy, ?_⟩) ?_)
      (.inl heven)
    · rintro rfl
      exact hstopa hy
    · rwa [before_append_self hda] at heven
  -- `d` is passed over the first time: it comes again only when the sweep misses `stop`.
  · by_cases hloses : Loses gone stop (a ++ d :: b)
    · constructor
      · rintro ⟨fuel, hc⟩
        obtain ⟨-, -, hearliest⟩ := sweep_earliest h hloses hc
        refine .inr ⟨hloses, fun x hx hduex => ?_⟩
        have hdx := hearliest x hx hduex
        unfold Earlier at hdx
        omega
      · rintro (heven' | ⟨-, hleast⟩)
        · exact absurd heven' heven
        · obtain ⟨fuel, c, hc⟩ := sweep_ends_of_due stop h (by simp) hdue
          obtain ⟨hcmem, hcdue, hearliest⟩ := sweep_earliest h hloses hc
          have hcd := hearliest d (by simp) hdue
          have hdc := hleast c hcmem hcdue
          unfold Earlier at hcd
          have hca : c ∉ a := fun hmem => hfirst c hmem hcdue
          have hcidx : (a ++ d :: b).idxOf c = a.length + (d :: b).idxOf c :=
            List.idxOf_append_of_notMem hca
          by_cases hcd' : c = d
          · exact ⟨fuel, hcd' ▸ hc⟩
          · rw [List.idxOf_cons_ne _ (Ne.symm hcd')] at hcidx
            omega
    · refine iff_of_false ?_ ?_
      · rintro ⟨fuel, hc⟩
        exact sweep_ne_of_odd h hloses hne (fun _ => by omega) hc rfl
      · rintro (heven' | ⟨hloses', -⟩)
        · exact heven heven'
        · exact hloses hloses'

end Turns

end Sweep
end OperatingSystems
