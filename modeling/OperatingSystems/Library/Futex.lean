import Mathlib.Data.List.Nodup
import Mathlib.Data.List.Perm.Basic

/-!
# Futex wait queues

The kernel keeps, for every futex word, the threads that sleep on it.
`FUTEX_WAIT(addr, expected)` compares the word and queues the caller in one step;
`FUTEX_WAKE(1)` takes one sleeper, whichever the kernel picks, off the queue.

* `sleep`, `wake` — the two operations.
* `wake_spec` — a wake-up of a non-empty queue removes exactly one sleeper.
-/

namespace OperatingSystems
namespace Futex

variable {ι : Type*}

/-- `FUTEX_WAIT`: the caller sleeps if the word has the expected value. -/
def sleep (word expected : Int) (caller : ι) (queue : List ι) : List ι :=
  if word = expected then caller :: queue else queue

/-- `FUTEX_WAKE` of one sleeper; `pick` is the choice of the kernel. -/
def wake (pick : Nat) (queue : List ι) : List ι :=
  queue.eraseIdx (pick % queue.length)

@[simp] theorem wake_nil (pick : Nat) : wake pick ([] : List ι) = [] := rfl

/-- One sleeper is taken off a queue that is not empty. -/
theorem wake_spec [DecidableEq ι] (pick : Nat) {queue : List ι} (hne : queue ≠ [])
    (hnodup : queue.Nodup) :
    ∃ woken ∈ queue, (wake pick queue).Nodup ∧
      ∀ x, x ∈ wake pick queue ↔ x ∈ queue ∧ x ≠ woken := by
  have hlt : pick % queue.length < queue.length :=
    Nat.mod_lt _ (List.length_pos_iff.mpr hne)
  refine ⟨queue[pick % queue.length], List.getElem_mem hlt,
    hnodup.sublist (List.eraseIdx_sublist _ _), ?_⟩
  intro x
  rw [wake, ← hnodup.erase_getElem _ hlt, hnodup.mem_erase_iff, and_comm]

end Futex
end OperatingSystems
