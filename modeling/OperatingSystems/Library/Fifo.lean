import Mathlib.Data.List.Induction

/-!
# A bounded first-in first-out queue as one atomic object

`Event` is an operation together with its answer; `step bound` says which answers are right
and what they do to the contents, and `run bound` replays a whole history.

* `added_eq` — the values taken out and the contents are the values put in, in order.
* `length_le` — the contents never exceed the bound.
-/

namespace OperatingSystems
namespace Fifo

/-- `add a ok` has put `a` in when `ok` holds and has found the queue full otherwise;
`get r` has taken `r` out, or has found the queue empty. -/
inductive Event (α : Type*)
  | add (a : α) (ok : Bool)
  | get (r : Option α)
  deriving DecidableEq

variable {α : Type*}

namespace Event

/-- The value that has been put in. -/
def added : Event α → Option α
  | .add a true => some a
  | _ => none

/-- The value that has been taken out. -/
def got : Event α → Option α
  | .get r => r
  | _ => none

/-- The operation has done what it was called for. -/
def ok : Event α → Bool
  | .add _ ok => ok
  | .get r => r.isSome

end Event

variable [DecidableEq α]

/-- The contents after an event; `none` when the answer is wrong. -/
def step (bound : Nat) : List α → Event α → Option (List α)
  | l, .add a true => if l.length < bound then some (l ++ [a]) else none
  | l, .add _ false => if l.length = bound then some l else none
  | [], .get none => some []
  | b :: l, .get (some a) => if a = b then some l else none
  | _, _ => none

/-- The contents after a history of the queue, which starts empty. -/
def run (bound : Nat) (history : List (Event α)) : Option (List α) :=
  history.foldlM (step bound) []

variable {bound : Nat} {history : List (Event α)} {l l' : List α} {a : α}

theorem run_concat {e : Event α} (h : run bound history = some l) :
    run bound (history ++ [e]) = step bound l e := by
  unfold run at h ⊢
  rw [List.foldlM_append, h]
  simp

theorem step_add (h : l.length < bound) : step bound l (.add a true) = some (l ++ [a]) := by
  cases l <;> simp_all [step]

theorem step_full (h : l.length = bound) : step bound l (.add a false) = some l := by
  cases l <;> simp_all [step]

theorem step_empty : step bound ([] : List α) (.get none) = some [] := rfl

theorem step_get : step bound (a :: l) (.get (some a)) = some l := by
  simp [step]

/-- What one event does to the contents and to the values put in and taken out. -/
theorem step_eq_some {e : Event α} (h : step bound l e = some l') :
    e.got.toList ++ l' = l ++ e.added.toList ∧ (l.length ≤ bound → l'.length ≤ bound) := by
  unfold step at h
  split at h
  · obtain ⟨hlength, h⟩ := Option.ite_none_right_eq_some.mp h
    obtain rfl := Option.some.inj h
    refine ⟨rfl, fun _ => ?_⟩
    rw [List.length_append, List.length_singleton]
    omega
  · obtain ⟨-, h⟩ := Option.ite_none_right_eq_some.mp h
    obtain rfl := Option.some.inj h
    exact ⟨by simp [Event.got, Event.added], id⟩
  · obtain rfl := Option.some.inj h
    exact ⟨rfl, id⟩
  · obtain ⟨rfl, hrest⟩ := Option.ite_none_right_eq_some.mp h
    obtain rfl := Option.some.inj hrest
    refine ⟨by simp [Event.got, Event.added], fun hlength => ?_⟩
    rw [List.length_cons] at hlength
    omega
  · cases h

/-- Nothing is lost, invented, duplicated or reordered, and the bound is kept. -/
theorem run_eq_some (h : run bound history = some l) :
    history.filterMap Event.added = history.filterMap Event.got ++ l ∧ l.length ≤ bound := by
  induction history using List.reverseRecOn generalizing l with
  | nil =>
      obtain rfl := Option.some.inj h
      simp
  | append_singleton history e ih =>
      unfold run at h
      rw [List.foldlM_append] at h
      obtain ⟨before, hbefore, hstep⟩ := Option.bind_eq_some_iff.mp h
      obtain ⟨hadded, hlength⟩ := ih hbefore
      simp only [List.foldlM_cons, List.foldlM_nil] at hstep
      obtain ⟨hmove, hbound⟩ := step_eq_some (by simpa using hstep)
      refine ⟨?_, hbound hlength⟩
      calc (history ++ [e]).filterMap Event.added
          = history.filterMap Event.got ++ (before ++ e.added.toList) := by
            rw [List.filterMap_append, hadded, List.append_assoc]
            congr 2
        _ = history.filterMap Event.got ++ (e.got.toList ++ l) := by rw [hmove]
        _ = (history ++ [e]).filterMap Event.got ++ l := by
            rw [List.filterMap_append, List.append_assoc]
            congr 2

theorem added_eq (h : run bound history = some l) :
    history.filterMap Event.added = history.filterMap Event.got ++ l :=
  (run_eq_some h).1

theorem length_le (h : run bound history = some l) : l.length ≤ bound :=
  (run_eq_some h).2

/-- The values taken out are the first of the values put in. -/
theorem got_prefix (h : run bound history = some l) :
    history.filterMap Event.got <+: history.filterMap Event.added :=
  ⟨l, (added_eq h).symm⟩

end Fifo
end OperatingSystems
