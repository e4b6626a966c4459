import OperatingSystems.Heap.Frame
import OperatingSystems.Library.SegmentFit

/-!
# When an allocation fails

`myMalloc` looks at one block at a time.  Because no two neighbours are free in any state of a
program, it misses nothing by that.

* `offered` — what a run of neighbouring free blocks offers, its inner headers included.
* `myMalloc_fit` — `NULL` if and only if no longest run offers enough, and nothing has changed
  then; otherwise the lowest block that fits is taken, and `Taken` says what is left.
-/

namespace OperatingSystems
namespace Heap

open Segments

/-! ### Blocks by their addresses -/

/-- The payload that a run of neighbouring blocks offers, with the headers between them. -/
def offered (m : ByteMemory) (run : List Nat) : Nat :=
  (run.map (size m)).sum + sizeofBlock * (run.length - 1)

/-- The payload of all free blocks. -/
def freePayload (m : ByteMemory) (blocks : List Nat) : Nat :=
  ((blocks.filter (free m)).map (size m)).sum

/-- `b` is free and large enough, and no block in front of it is. -/
structure LowestFit (m : ByteMemory) (blocks : List Nat) (request b : Nat) : Prop where
  mem : b ∈ blocks
  free : Heap.free m b = true
  enough : request ≤ size m b
  lowest : ∀ c ∈ blocks, Heap.free m c = true → request ≤ size m c → b ≤ c

/-- The free payload loses the request and a header if the block is split, which adds a block,
and the whole block otherwise. -/
structure Taken (heap : Nat) (m m' : ByteMemory) (blocks : List Nat) (request b : Nat) : Prop where
  split : request + sizeofBlock < size m b → ∃ blocks', Tiles heap m' blocks' ∧
    blocks'.length = blocks.length + 1 ∧
    freePayload m' blocks' + (request + sizeofBlock) = freePayload m blocks
  whole : size m b ≤ request + sizeofBlock → Tiles heap m' blocks ∧
    freePayload m' blocks + size m b = freePayload m blocks

section Represents

variable {m : ByteMemory} {stop a : Nat} {blocks : List Segment}

/-- What holds of the sizes and flags in the headers holds of the list. -/
theorem Represents.forall_headers (h : Represents m stop a blocks) (P : Nat → Bool → Prop) :
    (∀ b ∈ headers sizeofBlock a blocks, P (size m b) (free m b)) ↔
      ∀ s ∈ blocks, P s.size s.free := by
  induction blocks generalizing a with
  | nil => simp [headers]
  | cons s rest ih =>
      rw [headers, List.forall_mem_cons, List.forall_mem_cons, ih h.2, size_eq h.1, free_eq h.1]

theorem Represents.freePayload (h : Represents m stop a blocks) :
    freePayload m (headers sizeofBlock a blocks) = Segments.freePayload blocks := by
  induction blocks generalizing a with
  | nil => rfl
  | cons s rest ih =>
      have hrest := ih h.2
      have hsize := size_eq h.1
      have hfree := free_eq h.1
      unfold Heap.freePayload Segments.freePayload at *
      rw [headers, List.filter_cons, List.filter_cons, hfree]
      split
      · rw [List.map_cons, List.map_cons, List.sum_cons, List.sum_cons, hsize, hrest]
      · exact hrest

/-- The header of a segment in the middle. -/
theorem Represents.header_at {pre suf : List Segment} {s : Segment}
    (h : Represents m stop a (pre ++ s :: suf)) :
    size m (a + extent sizeofBlock pre) = s.size ∧ free m (a + extent sizeofBlock pre) = s.free := by
  have hheader := ((represents_append pre s suf).mp h).2.1
  exact ⟨size_eq hheader, free_eq hheader⟩

/-- The segment that is taken is the lowest block that fits. -/
theorem Represents.lowestFit {request : Nat} {pre suf : List Segment} {s : Segment}
    (h : Represents m stop a blocks) (hfound : firstFit request blocks = some (pre, s, suf)) :
    LowestFit m (headers sizeofBlock a blocks) request (a + extent sizeofBlock pre) := by
  have hbefore := firstFit_before hfound
  obtain ⟨rfl, hfree, hle⟩ := firstFit_eq_some hfound
  obtain ⟨hsize, hflag⟩ := h.header_at
  have hpre := (((represents_append pre s suf).mp h).1.forall_headers
    fun size free => free = true → size < request).mpr hbefore
  refine ⟨?_, hflag.trans hfree, hsize ▸ hle, fun c hc hcfree hcle => ?_⟩
  · rw [headers_append]
    exact List.mem_append_right _ List.mem_cons_self
  · rw [headers_append] at hc
    rcases List.mem_append.mp hc with hc | hc
    · have hsmall := hpre c hc hcfree
      omega
    · exact (headers_bounds hc).1

end Represents

/-! ### Runs of free blocks -/

/-- In a reduced heap some longest run offers enough exactly if some free block does. -/
theorem forall_run_iff {m : ByteMemory} {blocks : List Nat} {request : Nat}
    (hreduced : blocks.IsChain fun b c => ¬(free m b = true ∧ free m c = true)) :
    (∀ run, Run (free m) blocks run → offered m run < request) ↔
      ∀ b ∈ blocks, free m b = true → size m b < request := by
  have hsingle : ∀ b, offered m [b] = size m b := by
    intro b
    simp [offered]
  constructor
  · intro h b hb hfree
    rw [← hsingle b]
    exact h [b] (run_singleton hreduced hb hfree)
  · intro h run hrun
    obtain ⟨b, hb, hfree, rfl⟩ := hrun.eq_singleton hreduced
    rw [hsingle b]
    exact h b hb hfree

/-! ### `myMalloc` -/

theorem length_headers (a : Nat) (blocks : List Segment) :
    (headers sizeofBlock a blocks).length = blocks.length := by
  induction blocks generalizing a with
  | nil => rfl
  | cons s rest ih => rw [headers, List.length_cons, List.length_cons, ih]

/-- A segment that is not split keeps its header where it is. -/
theorem headers_whole {request : Nat} {pre suf : List Segment} {s : Segment}
    (hsmall : s.size ≤ request + sizeofBlock) (a : Nat) :
    headers sizeofBlock a (pre ++ Segments.split sizeofBlock request s ++ suf) =
      headers sizeofBlock a (pre ++ s :: suf) := by
  have hwhole : Segments.split sizeofBlock request s = [⟨s.size, false⟩] := by
    unfold Segments.split
    rw [if_neg (by omega)]
  rw [hwhole, List.append_assoc, headers_append a pre, headers_append a pre]
  rfl

theorem Models.taken (region : Region) {s s' : State} {blocks pre suf : List Segment}
    {t : Segment} {request : Nat} (h : Models region.heap s blocks)
    (hfound : firstFit request blocks = some (pre, t, suf))
    (h' : Models region.heap s' (pre ++ Segments.split sizeofBlock request t ++ suf)) :
    Taken region.heap s.memory s'.memory (headers sizeofBlock region.heap blocks) request
      (region.heap + extent sizeofBlock pre) := by
  obtain ⟨rfl, hfree, -⟩ := firstFit_eq_some hfound
  obtain ⟨hsize, -⟩ := h.represents.header_at
  have hpayload := freePayload_take sizeofBlock request hfree pre suf
  rw [← h.represents.freePayload, ← h'.represents.freePayload] at hpayload
  constructor
  · intro hlarge
    rw [hsize] at hlarge
    rw [if_pos hlarge] at hpayload
    refine ⟨_, h'.tiles region, ?_, hpayload⟩
    rw [length_headers, length_headers]
    unfold Segments.split
    rw [if_pos hlarge]
    simp only [List.length_append, List.length_cons, List.length_nil]
    omega
  · intro hsmall
    rw [hsize] at hsmall ⊢
    have htiles := h'.tiles region
    rw [if_neg (by omega)] at hpayload
    rw [headers_whole hsmall] at hpayload htiles
    exact ⟨htiles, hpayload⟩

/-- In every state of every program and for every size, `myMalloc` returns `NULL` if and only if
no longest run of neighbouring free blocks offers that much, and has changed nothing then;
otherwise it returns the payload of the lowest block that fits, and the free payload has lost
what was taken. -/
theorem myMalloc_fit (region : Region) {m : ByteMemory} {s : State}
    (hs : Reachable m region.heap s) (request : BitVec 64) :
    ∃ blocks, Tiles region.heap s.memory blocks ∧
      ∃ m' p, myMalloc s.memory region.heap request.toNat = some (m', p) ∧
        (p = 0 ↔ ∀ run, Run (free s.memory) blocks run →
          offered s.memory run < request.toNat) ∧
        (p = 0 → m' = s.memory) ∧
        (p ≠ 0 → ∃ b, p = b + sizeofBlock ∧ LowestFit s.memory blocks request.toNat b ∧
          Taken region.heap s.memory m' blocks request.toNat b) := by
  obtain ⟨segments, h, hreduced⟩ := exists_models region hs
  obtain ⟨m', p, hresult, hpointer, hsame, hmodels, -⟩ := h.myMalloc region request.toNat
  have hchain := h.represents.isChain hreduced
  refine ⟨_, h.tiles region, m', p, hresult, ?_, hsame, fun hp => ?_⟩
  · rw [forall_run_iff hchain, h.represents.forall_headers
      fun size free => free = true → size < request.toNat, ← firstFit_eq_none_iff, hpointer]
    unfold allocate
    cases hfound : firstFit request.toNat segments with
    | none => simp
    | some found =>
        have hpos := region.pos
        simp only [Option.getD_some, reduceCtorEq, iff_false]
        omega
  · unfold allocate at hpointer hmodels
    cases hfound : firstFit request.toNat segments with
    | none =>
        rw [hfound] at hpointer
        exact absurd hpointer hp
    | some found =>
        obtain ⟨pre, t, suf⟩ := found
        rw [hfound] at hpointer hmodels
        exact ⟨_, hpointer, h.represents.lowestFit hfound, h.taken region hfound hmodels⟩

/-- Two free blocks around an allocation: neither of them is large enough. -/
theorem myMalloc_fit_between :
    let region : Region := ⟨4096, by decide, by decide⟩
    ∃ s ∈ run region.heap (start (fun _ => 0) region.heap)
        [.myMalloc 5000000, .myMalloc 1000, .myFree 4120],
      ∃ blocks, Tiles region.heap s.memory blocks ∧
        ∃ p, myMalloc s.memory region.heap (BitVec.toNat (6000000 : BitVec 64)) =
            some (s.memory, p) ∧ p = 0 ∧
          ∀ run, Run (free s.memory) blocks run → offered s.memory run < 6000000 := by
  intro region
  obtain ⟨s, hrun, hgoal⟩ := (Option.any_eq_true _ _).mp
    (by decide +kernel : (run region.heap (start (fun _ => 0) region.heap)
      [.myMalloc 5000000, .myMalloc 1000, .myFree 4120]).any
      (fun s => decide ((myMalloc s.memory region.heap 6000000).any (·.2 = 0))) = true)
  obtain ⟨blocks, htiles, m', p, hresult, hnull, hsame, -⟩ :=
    myMalloc_fit region (.run .start hrun) 6000000
  have hzero : p = 0 := by
    have hreturned := of_decide_eq_true hgoal
    change (myMalloc s.memory region.heap (BitVec.toNat (6000000 : BitVec 64))).any _ = true
      at hreturned
    rw [hresult] at hreturned
    simpa using hreturned
  rw [hsame hzero] at hresult
  exact ⟨s, hrun, blocks, htiles, p, hresult, hzero, hnull.mp hzero⟩

end Heap
end OperatingSystems
