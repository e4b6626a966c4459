import Mathlib.Data.List.Count

/-!
# Descriptor discipline

A trace of what a program did to its file descriptors: `opened` is the call that
returned a descriptor, `used` any later call on it but `close`.  In the first part descriptors
are named by the call that returned them, so a name is never handed out twice; in the second
they are numbers, which the system hands out again when they are closed.

* `Disciplined` — every opened descriptor is closed exactly once, and nothing is
  done to a descriptor after it was closed.
* `Owns current trace` — the invariant of code that has at most one descriptor open
  at a time, with one rule for each action; code that ends with nothing open is
  `Disciplined`.
* `openAfter`, `OnlyOpen` — the numbers that are open after a trace, and traces that use and
  close only numbers that are open at that time.
-/

namespace OperatingSystems
namespace Descriptors

/-- What a program does to a descriptor. -/
inductive Action (ι : Type*)
  | opened (fd : ι)
  | used (fd : ι)
  | closed (fd : ι)
  deriving DecidableEq

variable {ι : Type*}

/-- The descriptor of an action. -/
def Action.descriptor : Action ι → ι
  | .opened fd | .used fd | .closed fd => fd

/-- `later` does not touch a descriptor which `a` has closed. -/
def Action.Spares (a later : Action ι) : Prop :=
  a = .closed later.descriptor → later = .opened later.descriptor

instance [DecidableEq ι] : DecidableRel (Action.Spares : Action ι → Action ι → Prop) :=
  fun _ _ => inferInstanceAs (Decidable (_ → _))

/-- Nothing is used or closed after it was closed. -/
def NoUseAfterClose (trace : List (Action ι)) : Prop :=
  trace.Pairwise Action.Spares

instance [DecidableEq ι] (trace : List (Action ι)) : Decidable (NoUseAfterClose trace) :=
  inferInstanceAs (Decidable (trace.Pairwise _))

/-- Every opened descriptor is closed exactly once, and not touched afterwards. -/
structure Disciplined [DecidableEq ι] (trace : List (Action ι)) : Prop where
  closedOnce : ∀ fd, .opened fd ∈ trace → trace.count (.closed fd) = 1
  noUseAfterClose : NoUseAfterClose trace

theorem NoUseAfterClose.of_prefix {trace more : List (Action ι)} (hmore : trace <+: more)
    (h : NoUseAfterClose more) : NoUseAfterClose trace :=
  List.Pairwise.sublist hmore.sublist h

/-- A use of a closed descriptor breaks the discipline. -/
theorem not_noUseAfterClose {trace : List (Action ι)} {fd : ι} (h : .closed fd ∈ trace) :
    ¬ NoUseAfterClose (trace ++ [.used fd]) := by
  intro hsafe
  have hspares := (List.pairwise_append.mp hsafe).2.2 _ h _ (List.mem_singleton_self _)
  exact absurd (hspares rfl) (by simp)

/-- An action on a descriptor that was not closed can be added. -/
theorem NoUseAfterClose.append {trace : List (Action ι)} {a : Action ι}
    (h : NoUseAfterClose trace) (ha : .closed a.descriptor ∉ trace) :
    NoUseAfterClose (trace ++ [a]) := by
  refine List.pairwise_append.mpr ⟨h, List.pairwise_singleton _ _, ?_⟩
  intro b hb c hc hclosed
  obtain rfl := List.mem_singleton.mp hc
  exact absurd (hclosed ▸ hb) ha

/-- What code knows of its trace that has `current` open and nothing else. -/
structure Owns [DecidableEq ι] (current : Option ι) (trace : List (Action ι)) : Prop where
  safe : NoUseAfterClose trace
  closed : ∀ fd, .opened fd ∈ trace → current ≠ some fd → trace.count (.closed fd) = 1
  unclosed : ∀ fd, current = some fd → .closed fd ∉ trace

namespace Owns

variable [DecidableEq ι] {current : Option ι} {trace : List (Action ι)} {fd : ι}

theorem nil : Owns none ([] : List (Action ι)) :=
  ⟨List.Pairwise.nil, fun _ h => absurd h List.not_mem_nil, nofun⟩

/-- With nothing open, everything is closed. -/
theorem disciplined (h : Owns none trace) : Disciplined trace :=
  ⟨fun fd hopen => h.closed fd hopen nofun, h.safe⟩

/-- A descriptor which the trace does not name is opened. -/
theorem opened (h : Owns none trace) (hnew : ∀ a ∈ trace, a.descriptor ≠ fd) :
    Owns (some fd) (trace ++ [.opened fd]) := by
  have hclosed : .closed fd ∉ trace := fun hmem => hnew _ hmem rfl
  refine ⟨h.safe.append hclosed, fun other hopen hother => ?_, fun other hother => ?_⟩
  · have hne : other ≠ fd := fun heq => hother (congrArg some heq.symm)
    have hopen : .opened other ∈ trace := by simpa [hne] using hopen
    rw [List.count_append, h.closed other hopen nofun]
    simp
  · obtain rfl := Option.some.inj hother
    simpa using hclosed

/-- The open descriptor is used. -/
theorem used (h : Owns (some fd) trace) : Owns (some fd) (trace ++ [.used fd]) := by
  have hclosed : .closed fd ∉ trace := h.unclosed fd rfl
  refine ⟨h.safe.append hclosed, fun other hopen hother => ?_, fun other hother => ?_⟩
  · rw [List.count_append, h.closed other (by simpa using hopen) hother]
    simp
  · simpa using h.unclosed other hother

/-- The open descriptor is closed. -/
theorem close (h : Owns (some fd) trace) : Owns none (trace ++ [.closed fd]) := by
  have hclosed : .closed fd ∉ trace := h.unclosed fd rfl
  refine ⟨h.safe.append hclosed, fun other hopen _ => ?_, nofun⟩
  rw [List.count_append]
  by_cases hother : other = fd
  · rw [hother, List.count_eq_zero_of_not_mem hclosed]
    simp
  · rw [h.closed other (by simpa using hopen) fun heq => hother (Option.some.inj heq).symm]
    simp [Ne.symm hother]

end Owns

/-! ### Numbers that are handed out again -/

section Numbers

variable [DecidableEq ι]

/-- The open numbers after one more action. -/
def Action.openNext (open_ : List ι) : Action ι → List ι
  | .opened fd => fd :: open_
  | .used _ => open_
  | .closed fd => open_.erase fd

/-- The numbers that are open after a trace. -/
def openAfter (trace : List (Action ι)) : List ι :=
  trace.foldl Action.openNext []

/-- A number is opened when it is closed, and used or closed when it is open. -/
def Action.Allowed (open_ : List ι) : Action ι → Prop
  | .opened fd => fd ∉ open_
  | .used fd | .closed fd => fd ∈ open_

/-- Every action of the trace is allowed where it stands. -/
def OnlyOpen (trace : List (Action ι)) : Prop :=
  ∀ before a after, trace = before ++ a :: after → a.Allowed (openAfter before)

variable {trace : List (Action ι)} {a : Action ι}

theorem openAfter_concat (trace : List (Action ι)) (a : Action ι) :
    openAfter (trace ++ [a]) = a.openNext (openAfter trace) := by
  simp [openAfter]

theorem OnlyOpen.nil : OnlyOpen ([] : List (Action ι)) := by
  intro before a after heq
  simp at heq

/-- An allowed action can be added. -/
theorem OnlyOpen.concat (h : OnlyOpen trace) (ha : a.Allowed (openAfter trace)) :
    OnlyOpen (trace ++ [a]) := by
  intro before b after heq
  rcases List.eq_nil_or_concat after with rfl | ⟨rest, c, rfl⟩
  · obtain ⟨rfl, hlast⟩ := List.append_inj' heq rfl
    obtain rfl := List.singleton_inj.mp hlast
    exact ha
  · rw [List.concat_eq_append, ← List.cons_append, ← List.append_assoc] at heq
    exact h before b rest (List.append_inj' heq rfl).1

end Numbers
end Descriptors
end OperatingSystems
