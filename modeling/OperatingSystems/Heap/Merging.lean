import OperatingSystems.Heap.Tiling

/-!
# Merging

`mergeBlocks` on any chain that tiles the heap, not only on those that a program can bring about.

* `mergeFrom_of_reduced` — a chain without free neighbours is left as it is.
* `mergeBlocks_coalesces` — every run of free blocks becomes one block, and a second call changes
  nothing.
-/

namespace OperatingSystems
namespace Heap

open Segments

variable {m : ByteMemory} {a : Nat} {blocks : List Segment}

/-- The loop only walks along a chain in which no two neighbours are free. -/
theorem mergeFrom_of_reduced {rounds : Nat} (hpos : 0 < a) (hrep : Represents m 0 a blocks)
    (hreduced : Reduced blocks) (hrounds : blocks.length < rounds) :
    mergeFrom rounds m (first a blocks) = some m := by
  induction blocks generalizing a rounds with
  | nil =>
      obtain ⟨rounds, rfl⟩ := Nat.exists_eq_succ_of_ne_zero (by omega : rounds ≠ 0)
      rfl
  | cons s rest ih =>
      obtain ⟨rounds, rfl⟩ := Nat.exists_eq_succ_of_ne_zero (by omega : rounds ≠ 0)
      rw [first_cons, mergeFrom]
      cases rest with
      | nil =>
          have hnext : next m a = 0 := next_eq hrep.1
          rw [if_pos (Or.inr hnext)]
      | cons t rest =>
          have hnext : next m a = a + sizeofBlock + s.size := next_eq hrep.1
          have hfree : free m a = s.free := free_eq hrep.1
          have hfree' : free m (a + sizeofBlock + s.size) = t.free := free_eq hrep.2.1
          obtain ⟨hapart, htail⟩ := List.isChain_cons_cons.mp hreduced
          rw [hnext, if_neg (by omega), hfree, hfree', if_neg hapart]
          have hwalk := ih (by omega) hrep.2 htail (by simpa using hrounds)
          rwa [first_cons] at hwalk

/-- There are enough rounds for every chain that tiles the heap. -/
theorem length_lt_heapSize (htiles : extent sizeofBlock blocks = heapSize) :
    blocks.length < heapSize := by
  have hle := length_le_extent sizeofBlock blocks
  unfold sizeofBlock heapSize at *
  omega

theorem first_of_tiles (htiles : extent sizeofBlock blocks = heapSize) : first a blocks = a := by
  apply if_neg
  rintro rfl
  cases htiles

/-- `mergeBlocks` in a heap that is tiled by a chain of blocks, of any sizes and with any flags: it
returns, and the chain tiles the heap again; every run of free neighbours has become one block,
at the address of the first and as large as all of them; the blocks in use are what they were, byte
for byte; and a second call changes nothing. -/
theorem mergeBlocks_coalesces (region : Region) (hrep : Represents m 0 region.heap blocks)
    (htiles : extent sizeofBlock blocks = heapSize) :
    ∃ m' merged, mergeBlocks m region.heap = some m' ∧
      Represents m' 0 region.heap merged ∧ extent sizeofBlock merged = heapSize ∧
      List.Forall₂ (Joined sizeofBlock) (runs sizeofBlock region.heap blocks)
        (placed sizeofBlock region.heap merged) ∧
      (∀ p ∈ placed sizeofBlock region.heap blocks, p.2.free = false →
        p ∈ placed sizeofBlock region.heap merged ∧
          ∀ x, p.1 ≤ x → x < p.1 + sizeofBlock + p.2.size → m' x = m x) ∧
      mergeBlocks m' region.heap = some m' := by
  have hlength := length_lt_heapSize htiles
  obtain ⟨m', hmerge, hrep', hframe⟩ :=
    mergeFrom_spec region.pos hrep (htiles ▸ region.fits) hlength
  have htiles' : extent sizeofBlock (coalesce sizeofBlock blocks) = heapSize :=
    (extent_coalesce blocks).trans htiles
  have hagain := mergeFrom_of_reduced region.pos hrep' (reduced_coalesce blocks)
    (length_lt_heapSize htiles')
  rw [first_of_tiles htiles] at hmerge
  rw [first_of_tiles htiles'] at hagain
  refine ⟨m', coalesce sizeofBlock blocks, hmerge, hrep', htiles',
    coalesce_runs region.heap blocks, fun p hp hused => ?_, hagain⟩
  refine ⟨mem_placed_coalesce hp hused, fun x hx hlt => hframe x fun b hb => ?_⟩
  have hoff := freeHeaders_off hp hused hb
  omega

/-- Three free blocks, the second of them of size 0, then a block in use and a free one. -/
def fragmented : List Segment :=
  [⟨100, true⟩, ⟨0, true⟩, ⟨52, true⟩, ⟨8, false⟩, ⟨heapSize - 280, true⟩]

/-- Their headers, in a heap that starts at 4096. -/
def fragmentedMemory : ByteMemory :=
  let write (size next free current : Nat) (m : ByteMemory) :=
    setFree (setNext (setSize m current size) current next) current free
  write 100 4220 1 4096 <| write 0 4244 1 4220 <| write 52 4320 7 4244 <|
    write 8 4352 0 4320 <| write (heapSize - 280) 0 1 4352 fun _ => 0

theorem represents_fragmented : Represents fragmentedMemory 0 4096 fragmented := by
  have hheaders : [4096, 4220, 4244, 4320, 4352].map (fun b => (size fragmentedMemory b,
      next fragmentedMemory b, free fragmentedMemory b)) = [(100, 4220, true), (0, 4244, true),
        (52, 4320, true), (8, 4352, false), (heapSize - 280, 0, true)] := by
    decide +kernel
  simp only [List.map_cons, List.map_nil, List.cons.injEq, Prod.mk.injEq, and_true] at hheaders
  simp [Represents, fragmented, header, hheaders, sizeofBlock]

theorem mergeBlocks_coalesces_fragmented :
    ∃ m' merged, mergeBlocks fragmentedMemory 4096 = some m' ∧
      Represents m' 0 4096 merged ∧ extent sizeofBlock merged = heapSize ∧
      List.Forall₂ (Joined sizeofBlock) (runs sizeofBlock 4096 fragmented)
        (placed sizeofBlock 4096 merged) ∧
      (∀ p ∈ placed sizeofBlock 4096 fragmented, p.2.free = false →
        p ∈ placed sizeofBlock 4096 merged ∧
          ∀ x, p.1 ≤ x → x < p.1 + sizeofBlock + p.2.size → m' x = fragmentedMemory x) ∧
      mergeBlocks m' 4096 = some m' :=
  mergeBlocks_coalesces ⟨4096, by decide, by decide⟩ represents_fragmented (by decide)

end Heap
end OperatingSystems
