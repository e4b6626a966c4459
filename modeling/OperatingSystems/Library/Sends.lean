import Mathlib.Data.List.Infix

/-!
# Sending on a stream socket

A call of `send` passes a buffer, and its result is `-1` or the number of
elements that were taken from the front of the buffer.  A sequence of calls is
the list of its buffers, with the result of the `k`-th call given by `reply k`.

* `received` — what the peer has received of a sequence of calls.
* `Whole` — every call took its whole buffer; `Gapless` — every call but the last
  one did.
* `Gapless.received_prefix` — then what was received is a prefix of what was to be
  sent.
* `Relayed` — the buffers are the beginning of a stream that is read block by block.
* `sendEach` — one call for each buffer, up to the first that fails; `Pieces` — buffers into which
  data is cut up.
-/

namespace OperatingSystems
namespace Sends

variable {α : Type*} {reply : Nat → Int} {buffers : List (List α)}

/-- What a `send` with this result takes from its buffer. -/
def taken (buffer : List α) (result : Int) : List α :=
  buffer.take result.toNat

/-- What the peer has received. -/
def received (reply : Nat → Int) (buffers : List (List α)) : List α :=
  (buffers.mapIdx fun k buffer => taken buffer (reply k)).flatten

/-- Some call took a part of its buffer only, and did not fail. -/
def CutShort (reply : Nat → Int) (buffers : List (List α)) : Prop :=
  ∃ p ∈ buffers.zipIdx, reply p.2 ≠ -1 ∧ reply p.2 < p.1.length

instance (reply : Nat → Int) (buffers : List (List α)) : Decidable (CutShort reply buffers) :=
  inferInstanceAs (Decidable (∃ p ∈ buffers.zipIdx, _))

/-- Every call took its whole buffer. -/
def Whole (reply : Nat → Int) (buffers : List (List α)) : Prop :=
  ∀ p ∈ buffers.zipIdx, (p.1.length : Int) ≤ reply p.2

/-- Every call but the last one took its whole buffer. -/
def Gapless (reply : Nat → Int) (buffers : List (List α)) : Prop :=
  Whole reply buffers.dropLast

theorem taken_isPrefix (buffer : List α) (result : Int) : taken buffer result <+: buffer :=
  List.take_prefix _ _

theorem taken_of_le {buffer : List α} {result : Int} (h : (buffer.length : Int) ≤ result) :
    taken buffer result = buffer :=
  List.take_of_length_le (by omega)

theorem taken_eq_self_iff {buffer : List α} {result : Int} (hbuffer : buffer ≠ []) :
    taken buffer result = buffer ↔ (buffer.length : Int) ≤ result := by
  have hpos := List.length_pos_iff.mpr hbuffer
  rw [taken, List.take_eq_self_iff]
  omega

theorem received_append_singleton (buffer : List α) :
    received reply (buffers ++ [buffer]) =
      received reply buffers ++ taken buffer (reply buffers.length) := by
  simp [received, List.mapIdx_append]

theorem Whole.nil : Whole reply ([] : List (List α)) := by
  simp [Whole]

theorem whole_append_singleton (buffer : List α) :
    Whole reply (buffers ++ [buffer]) ↔
      Whole reply buffers ∧ (buffer.length : Int) ≤ reply buffers.length := by
  simp [Whole, List.zipIdx_append, or_imp, forall_and]

/-- Calls that did not fail and were not cut short took everything. -/
theorem Whole.of_not_cutShort (hcut : ¬ CutShort reply buffers)
    (hfail : ∀ k < buffers.length, reply k ≠ -1) : Whole reply buffers := by
  intro p hp
  by_contra hshort
  have hlt : p.2 < buffers.length := by
    simpa using List.snd_lt_of_mem_zipIdx hp
  exact hcut ⟨p, hp, hfail p.2 hlt, by omega⟩

/-- A peer of whole calls has received everything. -/
theorem Whole.received_eq (h : Whole reply buffers) : received reply buffers = buffers.flatten := by
  induction buffers using List.reverseRecOn with
  | nil => rfl
  | append_singleton buffers buffer ih =>
      obtain ⟨hbefore, hlast⟩ := (whole_append_singleton buffer).mp h
      rw [received_append_singleton, ih hbefore, taken_of_le hlast]
      simp

/-- One more call, after whole ones. -/
theorem Whole.gapless_append (h : Whole reply buffers) (buffer : List α) :
    Gapless reply (buffers ++ [buffer]) := by
  rwa [Gapless, List.dropLast_concat]

/-- A single call leaves no gap. -/
theorem Gapless.of_length_le_one (h : buffers.length ≤ 1) : Gapless reply buffers := by
  have hnil : buffers.dropLast = [] := by
    rw [← List.length_eq_zero_iff, List.length_dropLast]
    omega
  rw [Gapless, hnil]
  exact Whole.nil

/-- Without a gap what was received is a prefix of what was to be sent. -/
theorem Gapless.received_prefix (h : Gapless reply buffers) :
    received reply buffers <+: buffers.flatten := by
  induction buffers using List.reverseRecOn with
  | nil => exact List.prefix_rfl
  | append_singleton buffers buffer _ =>
      rw [Gapless, List.dropLast_concat] at h
      rw [received_append_singleton, h.received_eq, List.flatten_append, List.flatten_singleton]
      exact (List.prefix_append_right_inj _).mpr (taken_isPrefix _ _)

/-! ### Relaying a stream -/

/-- What was passed on is a prefix of the stream, and as long as the receiver is active
the pending block and what is still to be read come next. -/
structure Relayed (stream : List α) (active : Bool) (buffers : List (List α))
    (pending rest : List α) : Prop where
  passed : buffers.flatten <+: stream
  next : active = true → buffers.flatten ++ (pending ++ rest) <+: stream

namespace Relayed

variable {stream pending rest block : List α} {active : Bool}

/-- The block that is read next is pending. -/
theorem read (h : Relayed stream active buffers [] (block ++ rest)) :
    Relayed stream active buffers block rest :=
  ⟨h.passed, h.next⟩

/-- The pending block is passed on. -/
theorem pass (h : Relayed stream true buffers pending rest) (active : Bool) :
    Relayed stream active (buffers ++ [pending]) [] rest := by
  have hnext : (buffers ++ [pending]).flatten ++ rest <+: stream := by
    simpa using h.next rfl
  exact ⟨(List.prefix_append _ _).trans hnext, fun _ => hnext⟩

/-- Nothing more is read. -/
theorem stop (h : Relayed stream active buffers pending rest) (active' : Bool) :
    Relayed stream active' buffers [] [] :=
  ⟨h.passed, fun _ => by simpa using h.passed⟩

/-- The receiver is not active any more. -/
theorem leave (h : Relayed stream active buffers pending rest) (pending' rest' : List α) :
    Relayed stream false buffers pending' rest' :=
  ⟨h.passed, fun hactive => absurd hactive Bool.false_ne_true⟩

end Relayed

/-! ### One buffer after the other -/

/-- One call for each buffer, the first of them the `k`-th call; a call that fails is the last. -/
def sendEach (reply : Nat → Int) : Nat → List (List α) → Int × List (List α)
  | _, [] => (0, [])
  | k, buffer :: rest =>
      if reply k = -1 then (-1, [buffer])
      else ((sendEach reply (k + 1) rest).1, buffer :: (sendEach reply (k + 1) rest).2)

theorem sendEach_of_ok {k : Nat} (h : ∀ j < buffers.length, reply (k + j) ≠ -1) :
    sendEach reply k buffers = (0, buffers) := by
  induction buffers generalizing k with
  | nil => rfl
  | cons buffer rest ih =>
      have hfirst : reply k ≠ -1 := h 0 (by simp)
      have hrest := ih (k := k + 1) fun j hj => by
        have hnext := h (j + 1) (by simpa using hj)
        rwa [← Nat.add_assoc, Nat.add_right_comm] at hnext
      rw [sendEach, if_neg hfirst, hrest]

theorem sendEach_of_fails {k j : Nat} (hj : j < buffers.length) (hfails : reply (k + j) = -1)
    (hok : ∀ i < j, reply (k + i) ≠ -1) :
    sendEach reply k buffers = (-1, buffers.take (j + 1)) := by
  induction buffers generalizing k j with
  | nil => cases hj
  | cons buffer rest ih =>
      rw [sendEach]
      cases j with
      | zero =>
          rw [Nat.add_zero] at hfails
          rw [if_pos hfails]
          rfl
      | succ j =>
          have hfirst : reply k ≠ -1 := hok 0 (Nat.succ_pos j)
          have hrest := ih (k := k + 1) (j := j) (by simpa using hj)
            (by rwa [Nat.add_assoc, Nat.add_comm 1 j]) fun i hi => by
              have hnext := hok (i + 1) (by omega)
              rwa [← Nat.add_assoc, Nat.add_right_comm] at hnext
          rw [if_neg hfirst, hrest]
          rfl

theorem Whole.ne_neg_one (h : Whole reply buffers) {k : Nat} (hk : k < buffers.length) :
    reply k ≠ -1 := by
  have hmem : (buffers[k], k) ∈ buffers.zipIdx := List.mk_mem_zipIdx_iff_getElem?.mpr (by simp)
  have hle := h _ hmem
  simp only at hle
  omega

/-- The data, cut up into pieces of at most so many elements, none of them empty. -/
structure Pieces (size : Nat) (data : List α) (pieces : List (List α)) : Prop where
  flatten : pieces.flatten = data
  le : ∀ piece ∈ pieces, piece.length ≤ size
  ne_nil : ∀ piece ∈ pieces, piece ≠ []

theorem Pieces.cons {size : Nat} {data piece : List α} {pieces : List (List α)}
    (h : Pieces size data pieces) (hle : piece.length ≤ size) (hne : piece ≠ []) :
    Pieces size (piece ++ data) (piece :: pieces) := by
  refine ⟨by rw [List.flatten_cons, h.flatten], fun p hp => ?_, fun p hp => ?_⟩
  · rcases List.mem_cons.mp hp with rfl | hp
    · exact hle
    · exact h.le p hp
  · rcases List.mem_cons.mp hp with rfl | hp
    · exact hne
    · exact h.ne_nil p hp

end Sends
end OperatingSystems
