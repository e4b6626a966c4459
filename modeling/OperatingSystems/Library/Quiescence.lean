import Mathlib.Algebra.Order.BigOperators.Group.Finset
import OperatingSystems.Library.Locks

/-!
# Threads that come to rest

* `Program.length_runIf_le` — a measure that every step lowers bounds the length of a schedule.
* `Program.count_runIf_le` — a measure of one thread bounds the number of its steps.
* `Program.thread_of_runIf` — a thread that is not in a schedule stays where it is.
* `LockDiscipline.returned_of_stuck` — threads that block only on locks and are not
  deadlocked have all returned when none of them can go on.
* `LockDiscipline.unlocked_of_held` — when no thread holds a lock, every lock is free.
-/

namespace OperatingSystems
namespace Threads

section Bound

variable {ι σ τ ο : Type*} [DecidableEq ι] {P : Program ι σ τ ο} {init : State ι σ τ → Prop}
  {ok : State ι σ τ → ι → Prop}

/-- A step lowers the sum if it takes from the measure of its thread more than it adds to those
of the others. -/
theorem State.sum_advance_lt [Fintype ι] (measure : σ → τ → Nat) {s : State ι σ τ} {i : ι}
    {memory : σ} {t : τ} (extra : ι → Nat)
    (hothers : ∀ j ≠ i,
      measure memory (s.thread j) ≤ measure s.shared (s.thread j) + extra j)
    (hown : measure memory t + ∑ j, extra j < measure s.shared (s.thread i)) :
    ∑ j, measure memory ((s.advance i memory t).thread j) <
      ∑ j, measure s.shared (s.thread j) := by
  rw [← Finset.add_sum_erase _ _ (Finset.mem_univ i), State.advance_thread_self,
    ← Finset.add_sum_erase _ (fun j => measure s.shared (s.thread j)) (Finset.mem_univ i)]
  have hrest : ∑ j ∈ Finset.univ.erase i, measure memory ((s.advance i memory t).thread j) ≤
      ∑ j ∈ Finset.univ.erase i, (measure s.shared (s.thread j) + extra j) := by
    refine Finset.sum_le_sum fun j hj => ?_
    rw [State.advance_thread_of_ne _ _ _ (Finset.ne_of_mem_erase hj)]
    exact hothers j (Finset.ne_of_mem_erase hj)
  have hextra : ∑ j ∈ Finset.univ.erase i, extra j ≤ ∑ j, extra j :=
    Finset.sum_le_sum_of_subset (Finset.erase_subset i Finset.univ)
  rw [Finset.sum_add_distrib] at hrest
  omega

/-- A measure that every step lowers bounds the length of a schedule. -/
theorem Program.length_runIf_le (P : Program ι σ τ ο) (measure : State ι σ τ → Nat)
    {test : State ι σ τ → ι → Bool} (htest : ∀ s i, test s i = true → ok s i)
    (hlower : ∀ s i o memory, P.ReachableUnder init ok s → ok s i → P.op (s.thread i) = some o →
      P.exec i o s.shared = some memory →
      measure (s.advance i memory (P.resume s.shared (s.thread i))) < measure s)
    {s s' : State ι σ τ} {schedule : List ι} (hs : P.ReachableUnder init ok s)
    (hrun : P.runIf test s schedule = some s') :
    schedule.length + measure s' ≤ measure s := by
  induction schedule generalizing s with
  | nil =>
      obtain rfl := Option.some.inj hrun
      simp
  | cons i schedule ih =>
      obtain ⟨hpass, hrun⟩ := Option.ite_none_right_eq_some.mp hrun
      cases hstep : P.step s i with
      | none => simp [hstep] at hrun
      | some next =>
          rw [hstep] at hrun
          have hlength := ih (.step hs (htest s i hpass) hstep) hrun
          obtain ⟨o, memory, hop, hexec, rfl⟩ := P.step_eq_some_iff.mp hstep
          have hless := hlower s i o memory hs (htest s i hpass) hop hexec
          rw [List.length_cons]
          omega

/-- A measure of a thread that its own steps lower bounds the number of its places in a schedule. -/
theorem Program.count_runIf_le {measure : τ → Nat} {i : ι} {test : State ι σ τ → ι → Bool}
    (htest : ∀ s i, test s i = true → ok s i)
    (hlower : ∀ s o memory, P.ReachableUnder init ok s → P.op (s.thread i) = some o →
      P.exec i o s.shared = some memory →
      measure (P.resume s.shared (s.thread i)) < measure (s.thread i))
    {s s' : State ι σ τ} {schedule : List ι} (hs : P.ReachableUnder init ok s)
    (hrun : P.runIf test s schedule = some s') :
    schedule.count i + measure (s'.thread i) ≤ measure (s.thread i) := by
  induction schedule generalizing s with
  | nil =>
      obtain rfl := Option.some.inj hrun
      simp
  | cons j schedule ih =>
      obtain ⟨hpass, hrun⟩ := Option.ite_none_right_eq_some.mp hrun
      cases hstep : P.step s j with
      | none => simp [hstep] at hrun
      | some next =>
          rw [hstep] at hrun
          have hcount := ih (.step hs (htest s j hpass) hstep) hrun
          obtain ⟨o, memory, hop, hexec, rfl⟩ := P.step_eq_some_iff.mp hstep
          by_cases hij : i = j
          · subst hij
            have hless := hlower s o memory hs hop hexec
            rw [State.advance_thread_self] at hcount
            rw [List.count_cons_self]
            omega
          · rw [State.advance_thread_of_ne _ _ _ hij] at hcount
            rwa [List.count_cons_of_ne (Ne.symm hij)]

end Bound

/-- A thread that is not in a schedule stays where it is. -/
theorem Program.thread_of_runIf {ι σ τ ο : Type*} [DecidableEq ι] (P : Program ι σ τ ο)
    {test : State ι σ τ → ι → Bool} {s s' : State ι σ τ} {schedule : List ι} {i : ι}
    (hi : i ∉ schedule) (hrun : P.runIf test s schedule = some s') : s'.thread i = s.thread i := by
  induction schedule generalizing s with
  | nil => rw [Option.some.inj hrun]
  | cons j schedule ih =>
      obtain ⟨-, hrun⟩ := Option.ite_none_right_eq_some.mp hrun
      cases hstep : P.step s j with
      | none => simp [hstep] at hrun
      | some next =>
          rw [hstep] at hrun
          obtain ⟨o, memory, -, -, rfl⟩ := P.step_eq_some_iff.mp hstep
          rw [ih (fun h => hi (List.mem_cons_of_mem j h)) hrun]
          exact State.advance_thread_of_ne _ _ _ fun h => hi (h ▸ List.mem_cons_self)

/-- A lock that cannot be taken is held. -/
theorem RwLock.heldBy_of_acquire_none {ι : Type*} [DecidableEq ι] {l : RwLock ι} {i : ι}
    {m : Mode} (h : l.acquire i m = none) : ∃ j m', l.HeldBy j m' := by
  by_contra hfree
  have hunlocked : l = .unlocked := RwLock.eq_unlocked fun j m' hheld => hfree ⟨j, m', hheld⟩
  subst hunlocked
  cases m with
  | read => simp [RwLock.acquire, RwLock.unlocked] at h
  | write => simp [RwLock.acquire, RwLock.unlocked] at h

namespace LockDiscipline

variable {ι σ τ ο Λ : Type*} [DecidableEq ι] [DecidableEq Λ] {P : Program ι σ τ ο}
  {ok : σ → τ → Prop} {D : LockDiscipline P Λ ok} {s : State ι σ τ}

/-- Threads that block only on locks, and hold none when they have returned, have all
returned when none of them can go on, the other threads hold no lock, and no set of threads is
deadlocked. -/
theorem returned_of_stuck {T : Set ι} (hagrees : ∀ i, D.Agrees i s.shared (s.thread i))
    (hblocks : ∀ i o memory, P.exec i o memory = none →
      ∃ l m, D.effect o = .acquire l m ∧ (D.locks memory l).acquire i m = none)
    (hheld : ∀ t, P.op t = none → D.held t = [])
    (hrest : ∀ i, i ∉ T → D.held (s.thread i) = []) (hfree : ∀ S, ¬ D.Deadlocked s S)
    (hstuck : ∀ i ∈ T, P.step s i = none) {i : ι} (hi : i ∈ T) : P.op (s.thread i) = none := by
  by_contra hgoing
  -- The threads that have not returned wait for each other.
  refine hfree { i | i ∈ T ∧ P.op (s.thread i) ≠ none } ⟨⟨i, hi, hgoing⟩, fun j ⟨hjT, hj⟩ => ?_⟩
  obtain ⟨o, hop⟩ := Option.ne_none_iff_exists'.mp hj
  have hexec : P.exec j o s.shared = none := by
    by_contra hgoes
    obtain ⟨memory, hexec⟩ := Option.ne_none_iff_exists'.mp hgoes
    have hstep := P.step_eq_some_iff.mpr ⟨o, memory, hop, hexec, rfl⟩
    simp [hstuck j hjT] at hstep
  obtain ⟨l, m, heffect, hacquire⟩ := hblocks j o s.shared hexec
  obtain ⟨k, m', hholds⟩ := RwLock.heldBy_of_acquire_none hacquire
  have hmem := ((hagrees k).heldBy_iff l m').mp hholds
  refine ⟨l, m, by simp [waitsFor, hop, heffect], k, ⟨?_, fun hreturned => ?_⟩, m', hholds⟩
  · by_contra hk
    simp [hrest k hk] at hmem
  · simp [hheld _ hreturned] at hmem

/-- When no thread holds a lock, every lock is free. -/
theorem unlocked_of_held (hagrees : ∀ i, D.Agrees i s.shared (s.thread i))
    (hheld : ∀ i, D.held (s.thread i) = []) (l : Λ) : D.locks s.shared l = .unlocked := by
  refine RwLock.eq_unlocked fun i m hholds => ?_
  have hmem := ((hagrees i).heldBy_iff l m).mp hholds
  simp [hheld i] at hmem

end LockDiscipline
end Threads
end OperatingSystems
