import Mathlib.Logic.Function.Basic

/-!
# Machines with an environment

A program whose next step depends on what the outside world answers: the results of
its system calls, and which of its threads goes on.  `step s a` is the state after the
input `a`, and `none` if `a` cannot happen in `s`.

* `ReachableUnder init ok` — the states reached from `init` by inputs which all satisfy
  `ok`; `Reachable init` — by any inputs.
* `ReachableUnder.induction` — the invariant rule.
* `ReachableUnder.exists_run` — a list of inputs that leads to a state with a property
  that can be computed.
* `length_run_le`, `exists_run_stuck` — a measure that every input lowers bounds the length of a run,
  and every run can go on to a state in which no input can happen.
-/

namespace OperatingSystems

/-- A machine with states `σ` and inputs `α`. -/
structure Machine (σ α : Type*) where
  step : σ → α → Option σ

namespace Machine

variable {σ α : Type*} (M : Machine σ α)

/-- The state after a list of inputs, as long as every one passes the test. -/
def run (test : σ → α → Bool) (s : σ) : List α → Option σ
  | [] => some s
  | a :: inputs => if test s a then (M.step s a).bind fun s' => run test s' inputs else none

variable (init : σ → Prop) (ok : σ → α → Prop)

/-- The states reached from `init` by inputs which all satisfy `ok`. -/
inductive ReachableUnder : σ → Prop
  | start {s : σ} : init s → ReachableUnder s
  | step {s s' : σ} {a : α} : ReachableUnder s → ok s a → M.step s a = some s' → ReachableUnder s'

/-- The states reached from `init` by any inputs. -/
abbrev Reachable : σ → Prop :=
  M.ReachableUnder init fun _ _ => True

variable {M init ok}

theorem ReachableUnder.mono {ok' : σ → α → Prop} (hok : ∀ s a, ok s a → ok' s a) {s : σ}
    (hs : M.ReachableUnder init ok s) : M.ReachableUnder init ok' s := by
  induction hs with
  | start h => exact .start h
  | step _ hstepOk hstep ih => exact .step ih (hok _ _ hstepOk) hstep

theorem ReachableUnder.reachable {s : σ} (hs : M.ReachableUnder init ok s) :
    M.Reachable init s :=
  hs.mono fun _ _ _ => trivial

/-- The invariant rule. -/
theorem ReachableUnder.induction {I : σ → Prop} (hinit : ∀ s, init s → I s)
    (hstep : ∀ s a s', I s → ok s a → M.step s a = some s' → I s') {s : σ}
    (hs : M.ReachableUnder init ok s) : I s := by
  induction hs with
  | start h => exact hinit _ h
  | step _ hok h ih => exact hstep _ _ _ ih hok h

/-- Inputs that pass their tests lead to a reachable state. -/
theorem ReachableUnder.run {test : σ → α → Bool} (htest : ∀ s a, test s a = true → ok s a)
    {s s' : σ} {inputs : List α} (hs : M.ReachableUnder init ok s)
    (hrun : M.run test s inputs = some s') : M.ReachableUnder init ok s' := by
  induction inputs generalizing s with
  | nil =>
      obtain rfl := Option.some.inj hrun
      exact hs
  | cons a inputs ih =>
      simp only [Machine.run] at hrun
      split at hrun
      · next hpass =>
        obtain ⟨next, hstep, hrest⟩ := Option.bind_eq_some_iff.mp hrun
        exact ih (.step hs (htest s a hpass) hstep) hrest
      · simp at hrun

/-- Inputs whose last state passes a test that can be computed. -/
theorem ReachableUnder.exists_run {test : σ → α → Bool}
    (htest : ∀ s a, test s a = true → ok s a) {s : σ} (hs : M.ReachableUnder init ok s)
    (goal : σ → Prop) [DecidablePred goal] {inputs : List α}
    (h : (M.run test s inputs).any (fun s => goal s) = true) :
    ∃ s' ∈ M.run test s inputs, M.ReachableUnder init ok s' ∧ goal s' := by
  obtain ⟨s', hrun, hgoal⟩ := (Option.any_eq_true _ _).mp h
  exact ⟨s', hrun, hs.run htest hrun, of_decide_eq_true hgoal⟩

/-- A measure that every passing input lowers bounds the number of inputs. -/
theorem length_run_le {test : σ → α → Bool} (measure : σ → Nat) {s s' : σ} {inputs : List α}
    (hs : M.ReachableUnder init (fun s a => test s a = true) s)
    (hlower : ∀ s a s', M.ReachableUnder init (fun s a => test s a = true) s → test s a = true →
      M.step s a = some s' → measure s' < measure s)
    (hrun : M.run test s inputs = some s') : inputs.length + measure s' ≤ measure s := by
  induction inputs generalizing s with
  | nil =>
      obtain rfl := Option.some.inj hrun
      simp
  | cons a inputs ih =>
      obtain ⟨hpass, hrun⟩ := Option.ite_none_right_eq_some.mp hrun
      obtain ⟨next, hstep, hrest⟩ := Option.bind_eq_some_iff.mp hrun
      have hnext := hlower s a next hs hpass hstep
      have hlength := ih (.step hs hpass hstep) hrest
      rw [List.length_cons]
      omega

/-- With such a measure every run can go on until no passing input can happen. -/
theorem exists_run_stuck {test : σ → α → Bool} (measure : σ → Nat) {s : σ}
    (hs : M.ReachableUnder init (fun s a => test s a = true) s)
    (hlower : ∀ s a s', M.ReachableUnder init (fun s a => test s a = true) s → test s a = true →
      M.step s a = some s' → measure s' < measure s) :
    ∃ inputs, ∃ t ∈ M.run test s inputs,
      M.ReachableUnder init (fun s a => test s a = true) t ∧
        ∀ a, test t a = true → M.step t a = none := by
  induction hmeasure : measure s using Nat.strongRecOn generalizing s with
  | ind n ih =>
      by_cases hstuck : ∀ a, test s a = true → M.step s a = none
      · exact ⟨[], s, rfl, hs, hstuck⟩
      · obtain ⟨a, ha⟩ := not_forall.mp hstuck
        obtain ⟨hpass, hne⟩ := Classical.not_imp.mp ha
        obtain ⟨next, hstep⟩ := Option.ne_none_iff_exists'.mp hne
        have hnext := hmeasure ▸ hlower s a next hs hpass hstep
        obtain ⟨inputs, t, hrun, ht⟩ := ih _ hnext (.step hs hpass hstep) rfl
        refine ⟨a :: inputs, t, ?_, ht⟩
        rw [Option.mem_def, Machine.run, if_pos hpass, hstep]
        exact hrun

end Machine
end OperatingSystems
