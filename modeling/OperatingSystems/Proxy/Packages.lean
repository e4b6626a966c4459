import OperatingSystems.Proxy.ShortSends

/-!
# Sending in packages

With a package size, `send_to_client` passes its data to `send` package by package; the last one,
which may be shorter, is sent behind the loop.

* `sendToClientInt` — `send_to_client` with the limits of its `int` products.
* `packageLoop_sendEach` — the loop and the call behind it are one `send` for each piece.
* `sendToClient_packages` — what is sent, and what happens when a call fails.
-/

namespace OperatingSystems
namespace Proxy

open Sends

/-- The loop of `send_to_client` from the block `package` on; `none` when a value that is computed
as an `int` does not fit. -/
def packageLoopInt (reply : Nat → Int) (data : List Byte) (packagesSize length : Nat) :
    Nat → Nat → Option (Int × List (List Byte))
  | 0, _ => some (0, [])
  | fuel + 1, package =>
      if 2 ^ 31 ≤ package * packagesSize + packagesSize then none
      else if package * packagesSize + packagesSize < length then
        let block := (data.drop (package * packagesSize)).take packagesSize
        if reply package = -1 then some (-1, [block])
        else
          (packageLoopInt reply data packagesSize length fuel (package + 1)).map fun rest =>
            (rest.1, block :: rest.2)
      else if package * packagesSize < length then
        some (if reply package = -1 then -1 else 0,
          [(data.drop (package * packagesSize)).take (length - package * packagesSize)])
      else some (if package = 0 then -1 else 0, [])

/-- `send_to_client`: the result and the buffers passed to `send`. -/
def sendToClientInt (reply : Nat → Int) (data : List Byte) (packagesSize length : Int) :
    Option (Int × List (List Byte)) :=
  if length ≤ 0 then some (0, [])
  else if packagesSize ≤ 0 then some (if reply 0 = -1 then -1 else 0, [data.take length.toNat])
  else packageLoopInt reply data packagesSize.toNat length.toNat length.toNat 0

section Loop

variable {reply : Nat → Int} {data : List Byte} {packagesSize length : Nat}

/-- The loop ends before a product can get too large. -/
theorem packageLoopInt_eq (hbound : length + packagesSize < 2 ^ 31) (fuel package : Nat)
    (hpackage : package * packagesSize ≤ length) :
    packageLoopInt reply data packagesSize length fuel package =
      some (packageLoop reply data packagesSize length fuel package) := by
  induction fuel generalizing package with
  | zero => rfl
  | succ fuel ih =>
      rw [packageLoopInt, packageLoop, if_neg (by omega)]
      by_cases hmore : package * packagesSize + packagesSize < length
      · have hnext : (package + 1) * packagesSize = package * packagesSize + packagesSize :=
          Nat.succ_mul _ _
        rw [if_pos hmore, if_pos hmore, ih (package + 1) (by omega)]
        dsimp only
        split <;> rfl
      · rw [if_neg hmore, if_neg hmore]
        split <;> rfl

/-- A whole package and what stands behind it. -/
theorem package_append (data : List Byte) {package : Nat}
    (hmore : package * packagesSize + packagesSize ≤ length) :
    (data.drop (package * packagesSize)).take packagesSize ++
        (data.take length).drop ((package + 1) * packagesSize) =
      (data.take length).drop (package * packagesSize) := by
  have hnext : (package + 1) * packagesSize = package * packagesSize + packagesSize :=
    Nat.succ_mul _ _
  have hmin : min packagesSize (length - package * packagesSize) = packagesSize := by omega
  rw [hnext, ← List.drop_drop, List.drop_take, ← hmin, ← List.take_take, hmin]
  exact List.take_append_drop _ _

/-- The data from the block `package` on is cut up in the same way whatever the calls return. -/
theorem packageLoop_sendEach (hsize : 0 < packagesSize) (hdata : length ≤ data.length)
    (fuel package : Nat) (hrest : package * packagesSize < length)
    (hfuel : length ≤ package * packagesSize + fuel) :
    ∃ pieces, Pieces packagesSize ((data.take length).drop (package * packagesSize)) pieces ∧
      ∀ reply, packageLoop reply data packagesSize length fuel package =
        sendEach reply package pieces := by
  induction fuel generalizing package with
  | zero => omega
  | succ fuel ih =>
      have hlength : (data.take length).length = length := by
        rw [List.length_take]
        omega
      by_cases hmore : package * packagesSize + packagesSize < length
      · -- A whole package, and there is more.
        have hnext : (package + 1) * packagesSize = package * packagesSize + packagesSize :=
          Nat.succ_mul _ _
        obtain ⟨pieces, hpieces, hloop⟩ := ih (package + 1) (by omega) (by omega)
        have hblock : ((data.drop (package * packagesSize)).take packagesSize).length =
            packagesSize := by
          rw [List.length_take, List.length_drop]
          omega
        have hsplit := package_append data hmore.le
        refine ⟨(data.drop (package * packagesSize)).take packagesSize :: pieces, ?_,
          fun reply => ?_⟩
        · rw [← hsplit]
          apply hpieces.cons hblock.le
          apply List.ne_nil_of_length_pos
          omega
        · rw [packageLoop, if_pos hmore, sendEach, hloop reply]
      · -- The last package, whole or not.
        have hlast : (data.drop (package * packagesSize)).take (length - package * packagesSize) =
            (data.take length).drop (package * packagesSize) := List.drop_take.symm
        have hlen : ((data.take length).drop (package * packagesSize)).length =
            length - package * packagesSize := by
          rw [List.length_drop, hlength]
        refine ⟨[(data.take length).drop (package * packagesSize)], ⟨by simp, ?_, ?_⟩,
          fun reply => ?_⟩
        · intro piece hpiece
          rw [List.mem_singleton.mp hpiece, hlen]
          omega
        · intro piece hpiece
          rw [List.mem_singleton.mp hpiece]
          apply List.ne_nil_of_length_pos
          omega
        · rw [packageLoop, if_neg hmore, if_pos hrest, hlast, sendEach]
          split <;> rfl

end Loop

/-- With packages of any size, `send_to_client` passes to `send` pieces of at most this size, none
of them empty, which are together the first `length` bytes.  When every call takes its whole piece
the result is 0, and the client has received what it receives without packages; when a call fails
the result is -1, and no call follows it. -/
theorem sendToClient_packages {data : List Byte} {packagesSize length : Int}
    (hsize : 1 ≤ packagesSize) (hbound : length + packagesSize < 2 ^ 31)
    (hdata : length ≤ data.length) :
    ∃ pieces, Pieces packagesSize.toNat (data.take length.toNat) pieces ∧
      (∀ reply, Whole reply pieces →
        sendToClientInt reply data packagesSize length = some (0, pieces) ∧
          ∀ size' ≤ 0, ∀ reply', length ≤ reply' 0 → ∃ buffers,
            sendToClientInt reply' data size' length = some (0, buffers) ∧
              received reply pieces = received reply' buffers) ∧
      ∀ reply k, k < pieces.length → reply k = -1 → (∀ j < k, reply j ≠ -1) →
        sendToClientInt reply data packagesSize length = some (-1, pieces.take (k + 1)) := by
  by_cases hlength : length ≤ 0
  · have hzero : length.toNat = 0 := by omega
    refine ⟨[], ⟨by simp [hzero], by simp, by simp⟩, fun reply _ => ⟨if_pos hlength, ?_⟩,
      fun reply k hk => by simp at hk⟩
    intro size' _ reply' _
    exact ⟨[], if_pos hlength, rfl⟩
  have hsize : 0 < packagesSize.toNat := by omega
  have hfits : length.toNat ≤ data.length := by omega
  obtain ⟨pieces, hpieces, hloop⟩ := packageLoop_sendEach hsize hfits length.toNat 0 (by omega)
    (by omega)
  rw [Nat.zero_mul, List.drop_zero] at hpieces
  have hsends : ∀ reply, sendToClientInt reply data packagesSize length =
      some (sendEach reply 0 pieces) := by
    intro reply
    rw [sendToClientInt, if_neg hlength, if_neg (by omega),
      packageLoopInt_eq (by omega) _ _ (by omega), hloop reply]
  refine ⟨pieces, hpieces, fun reply hwhole => ⟨?_, ?_⟩, fun reply k hk hfails hok => ?_⟩
  · rw [hsends, sendEach_of_ok fun j hj => by simpa using hwhole.ne_neg_one hj]
  · intro size' hsize' reply' hreply'
    refine ⟨[data.take length.toNat], ?_, ?_⟩
    · rw [sendToClientInt, if_neg hlength, if_pos hsize', if_neg (by omega)]
    · have hall : Whole reply' [data.take length.toNat] := by
        rw [← List.nil_append [data.take length.toNat], whole_append_singleton]
        refine ⟨.nil, le_trans ?_ hreply'⟩
        rw [List.length_take]
        omega
      rw [hwhole.received_eq, hall.received_eq, hpieces.flatten]
      simp
  · rw [hsends, sendEach_of_fails hk (by simpa using hfails) (by simpa using hok)]

/-- Five bytes in packages of two: the last one is a single byte. -/
theorem sendToClient_packages_odd :
    ∃ pieces, Pieces 2 ((bytes "hello").take 5) pieces ∧
      (∀ reply, Whole reply pieces →
        sendToClientInt reply (bytes "hello") 2 5 = some (0, pieces) ∧
          ∀ size' ≤ 0, ∀ reply', 5 ≤ reply' 0 → ∃ buffers,
            sendToClientInt reply' (bytes "hello") size' 5 = some (0, buffers) ∧
              received reply pieces = received reply' buffers) ∧
      ∀ reply k, k < pieces.length → reply k = -1 → (∀ j < k, reply j ≠ -1) →
        sendToClientInt reply (bytes "hello") 2 5 = some (-1, pieces.take (k + 1)) :=
  sendToClient_packages (by decide : (1 : Int) ≤ 2) (by decide : (5 : Int) + 2 < 2 ^ 31)
    (by decide : (5 : Int) ≤ (bytes "hello").length)

end Proxy
end OperatingSystems
