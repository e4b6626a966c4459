import Mathlib.Logic.Function.Basic

/-!
# Threads over one shared memory

A program run by any number of threads, in interleaving semantics.  A thread
in local state `t` is about to execute the shared action `op t`; `exec` is the
effect of that action on the shared memory (`none` while the action is blocked)
and `resume` computes the local state after it from the memory the action read.
A thread whose `op` is `none` has returned.

* `Program.step` — one thread executes its next action; `Program.runIf` — a whole
  schedule, each step of which passes a test.
* `Program.ReachableUnder ok` — the states of the runs all of whose steps
  satisfy `ok`; `Program.Reachable` — the states of all runs.
* `Program.ReachableUnder.induction` — an invariant of the start states which
  every admissible step keeps holds in every reachable state.
* `Program.ReachableUnder.forall_threads` — the same for an invariant given
  thread by thread: the acting thread re-establishes its own assertion and
  does not interfere with the assertions of the others.
-/

namespace OperatingSystems
namespace Threads

/-- The code of the threads: `ι` names the threads, `σ` is the shared memory,
`τ` the local state of a thread and `ο` the type of shared actions. -/
structure Program (ι σ τ ο : Type*) where
  op : τ → Option ο
  exec : ι → ο → σ → Option σ
  resume : σ → τ → τ

/-- A state of the whole system. -/
structure State (ι σ τ : Type*) where
  shared : σ
  thread : ι → τ

variable {ι σ τ ο : Type*} [DecidableEq ι]

namespace State

/-- Thread `i` moves to local state `t` and leaves the shared memory `memory`. -/
def advance (s : State ι σ τ) (i : ι) (memory : σ) (t : τ) : State ι σ τ :=
  ⟨memory, Function.update s.thread i t⟩

variable (s : State ι σ τ) (i : ι) (memory : σ) (t : τ)

@[simp] theorem advance_shared : (s.advance i memory t).shared = memory := rfl

@[simp] theorem advance_thread_self : (s.advance i memory t).thread i = t :=
  Function.update_self ..

variable {i} in
theorem advance_thread_of_ne {j : ι} (h : j ≠ i) :
    (s.advance i memory t).thread j = s.thread j :=
  Function.update_of_ne h ..

/-- A step that changes nothing. -/
theorem advance_self : s.advance i s.shared (s.thread i) = s := by
  rw [advance, Function.update_eq_self]

/-- A part of the shared memory, and a part of every thread. -/
def map {σ' τ' : Type*} (g : σ → σ') (f : τ → τ') (s : State ι σ τ) : State ι σ' τ' :=
  ⟨g s.shared, fun i => f (s.thread i)⟩

theorem map_advance {σ' τ' : Type*} (g : σ → σ') (f : τ → τ') :
    (s.advance i memory t).map g f = (s.map g f).advance i (g memory) (f t) := by
  simp only [map, advance, mk.injEq, true_and]
  funext j
  by_cases hj : j = i
  · subst hj
    simp
  · simp [hj]

/-- A step that changes nothing of the part. -/
theorem map_advance_self {σ' τ' : Type*} {g : σ → σ'} {f : τ → τ'}
    (hmemory : g memory = g s.shared) (ht : f t = f (s.thread i)) :
    (s.advance i memory t).map g f = s.map g f := by
  rw [map_advance, hmemory, ht]
  exact (s.map g f).advance_self i

end State

namespace Program

variable (P : Program ι σ τ ο)

/-- Thread `i` executes its next action; `none` when it has returned or when
its action is blocked. -/
def step (s : State ι σ τ) (i : ι) : Option (State ι σ τ) :=
  match P.op (s.thread i) with
  | none => none
  | some o =>
      match P.exec i o s.shared with
      | none => none
      | some memory =>
          some (s.advance i memory (P.resume s.shared (s.thread i)))

/-- A schedule: the named threads step one after the other, as long as every step
passes the test. -/
def runIf (test : State ι σ τ → ι → Bool) (s : State ι σ τ) : List ι → Option (State ι σ τ)
  | [] => some s
  | i :: schedule =>
      if test s i then
        match P.step s i with
        | none => none
        | some s' => runIf test s' schedule
      else none

/-- Everything a step does: the action it executes, its effect on the memory,
and the new local state of the acting thread. -/
theorem step_eq_some_iff {s s' : State ι σ τ} {i : ι} :
    P.step s i = some s' ↔
      ∃ o memory, P.op (s.thread i) = some o ∧ P.exec i o s.shared = some memory ∧
        s' = s.advance i memory (P.resume s.shared (s.thread i)) := by
  unfold step
  cases hop : P.op (s.thread i) with
  | none => simp
  | some o =>
      cases hexec : P.exec i o s.shared with
      | none => simp [hexec]
      | some memory => simp [hexec, eq_comm]

variable (init : State ι σ τ → Prop) (ok : State ι σ τ → ι → Prop)

/-- The states reached from `init` by steps which all satisfy `ok`. -/
inductive ReachableUnder : State ι σ τ → Prop
  | start {s : State ι σ τ} : init s → ReachableUnder s
  | step {s s' : State ι σ τ} {i : ι} :
      ReachableUnder s → ok s i → P.step s i = some s' → ReachableUnder s'

/-- The states reached by any interleaving of the threads. -/
abbrev Reachable : State ι σ τ → Prop :=
  P.ReachableUnder init fun _ _ => True

variable {P init ok}

theorem ReachableUnder.mono {init' : State ι σ τ → Prop} {ok' : State ι σ τ → ι → Prop}
    (hinit : ∀ s, init s → init' s) (hok : ∀ s i, ok s i → ok' s i) {s : State ι σ τ}
    (hs : P.ReachableUnder init ok s) : P.ReachableUnder init' ok' s := by
  induction hs with
  | start h => exact .start (hinit _ h)
  | step _ hstepOk hstep ih => exact .step ih (hok _ _ hstepOk) hstep

theorem ReachableUnder.reachable {s : State ι σ τ}
    (hs : P.ReachableUnder init ok s) : P.Reachable init s :=
  hs.mono (fun _ => id) fun _ _ _ => trivial

/-- The invariant rule. -/
theorem ReachableUnder.induction {I : State ι σ τ → Prop}
    (hinit : ∀ s, init s → I s)
    (hstep : ∀ s i o memory, P.ReachableUnder init ok s → I s → ok s i →
      P.op (s.thread i) = some o → P.exec i o s.shared = some memory →
      I (s.advance i memory (P.resume s.shared (s.thread i))))
    {s : State ι σ τ} (hs : P.ReachableUnder init ok s) : I s := by
  induction hs with
  | start h => exact hinit _ h
  | step hs hstepOk h ih =>
      obtain ⟨o, memory, hop, hexec, rfl⟩ := P.step_eq_some_iff.mp h
      exact hstep _ _ _ _ hs ih hstepOk hop hexec

/-- The invariant rule, thread by thread.  `own` is the sequential obligation
of the acting thread, `other` is freedom from interference. -/
theorem ReachableUnder.forall_threads {L : ι → σ → τ → Prop}
    (hinit : ∀ s, init s → ∀ i, L i s.shared (s.thread i))
    (own : ∀ s i o memory, P.ReachableUnder init ok s → ok s i →
      (∀ j, L j s.shared (s.thread j)) → P.op (s.thread i) = some o →
      P.exec i o s.shared = some memory →
      L i memory (P.resume s.shared (s.thread i)))
    (other : ∀ s i j o memory, P.ReachableUnder init ok s → ok s i → j ≠ i →
      (∀ k, L k s.shared (s.thread k)) → P.op (s.thread i) = some o →
      P.exec i o s.shared = some memory → L j memory (s.thread j))
    {s : State ι σ τ} (hs : P.ReachableUnder init ok s) :
    ∀ i, L i s.shared (s.thread i) := by
  refine hs.induction (I := fun s => ∀ i, L i s.shared (s.thread i)) hinit ?_
  intro s i o memory hreach hall hok hop hexec j
  by_cases hji : j = i
  · subst j
    simpa using own s i o memory hreach hok hall hop hexec
  · simpa [State.advance_thread_of_ne _ _ _ hji] using
      other s i j o memory hreach hok hji hall hop hexec

/-- A schedule that runs to its end leads to a reachable state. -/
theorem ReachableUnder.runIf {test : State ι σ τ → ι → Bool}
    (htest : ∀ s i, test s i = true → ok s i) {s s' : State ι σ τ} {schedule : List ι}
    (hs : P.ReachableUnder init ok s) (hrun : P.runIf test s schedule = some s') :
    P.ReachableUnder init ok s' := by
  induction schedule generalizing s with
  | nil =>
      simp only [Program.runIf, Option.some.injEq] at hrun
      exact hrun ▸ hs
  | cons i schedule ih =>
      simp only [Program.runIf] at hrun
      split at hrun
      · next hpass =>
        cases hstep : P.step s i with
        | none => simp [hstep] at hrun
        | some next =>
            rw [hstep] at hrun
            exact ih (.step hs (htest s i hpass) hstep) hrun
      · simp at hrun

/-- A schedule whose last state passes a test that can be computed. -/
theorem ReachableUnder.exists_runIf {test : State ι σ τ → ι → Bool}
    (htest : ∀ s i, test s i = true → ok s i) {s : State ι σ τ}
    (hs : P.ReachableUnder init ok s) (goal : State ι σ τ → Prop) [DecidablePred goal]
    {schedule : List ι} (h : (P.runIf test s schedule).any (fun s => goal s) = true) :
    ∃ s' ∈ P.runIf test s schedule, P.ReachableUnder init ok s' ∧ goal s' := by
  obtain ⟨s', hrun, hgoal⟩ := (Option.any_eq_true _ _).mp h
  exact ⟨s', hrun, hs.runIf htest hrun, of_decide_eq_true hgoal⟩

/-- A run that goes on from a reachable state. -/
theorem ReachableUnder.trans {ok' : State ι σ τ → ι → Prop} {s s' : State ι σ τ}
    (hs : P.Reachable init s) (hs' : P.ReachableUnder (· = s) ok' s') : P.Reachable init s' := by
  induction hs' with
  | start h => exact h ▸ hs
  | step _ _ hstep ih => exact .step ih trivial hstep

end Program
end Threads
end OperatingSystems
