import OperatingSystems.Heap.Tiling

/-!
# What the calls leave alone, and what they leave behind

* `heap_frame` — `myMalloc` and `myFree` keep every other allocation, byte for byte.
* `heap_coalesced` — no two neighbours are free; a heap whose pointers have all been freed,
  in any order, is the heap that `initialize` has made.
-/

namespace OperatingSystems
namespace Heap

open Segments

/-! ### Other allocations -/

/-- The allocation `q` is where it was, with the same size and the same bytes. -/
structure Kept (s s' : State) (q : Nat × Nat) : Prop where
  live : q ∈ s'.live
  size : payloadSize s'.memory q.1 = payloadSize s.memory q.1
  bytes : ∀ x, q.1 ≤ x → x < q.1 + payloadSize s.memory q.1 → s'.memory x = s.memory x

theorem Models.payload_used {heap : Nat} {s : State} {blocks : List Segment}
    (h : Models heap s blocks) {q : Nat × Nat} (hq : q ∈ s.live) :
    (q.1, payloadSize s.memory q.1) ∈ used sizeofBlock heap blocks := by
  obtain ⟨taken, -, hused⟩ := h.live q hq
  have hsize : payloadSize s.memory q.1 = taken := h.represents.payloadSize hused
  rw [hsize]
  exact hused

/-- A live allocation whose payload is spared is kept. -/
theorem Models.kept {heap : Nat} {s s' : State} {blocks' : List Segment}
    (h' : Models heap s' blocks') {q : Nat × Nat} (hq : q ∈ s'.live)
    (hspares : Spares heap s.memory s'.memory blocks' (q.1, payloadSize s.memory q.1)) :
    Kept s s' q :=
  ⟨hq, h'.represents.payloadSize hspares.used, hspares.bytes⟩

/-- Whatever is allocated next, and whichever allocation is freed next, every other live
allocation keeps its address, its size and its bytes. -/
theorem heap_frame (region : Region) {m : ByteMemory} {s : State}
    (hs : Reachable m region.heap s) :
    (∀ request, ∃ s', step region.heap s (.myMalloc request) = some s' ∧
      ∀ q ∈ s.live, Kept s s' q) ∧
    ∀ p ∈ s.live, ∃ s', step region.heap s (.myFree p.1) = some s' ∧
      ∀ q ∈ s.live, q ≠ p → Kept s s' q := by
  obtain ⟨blocks, h, -⟩ := exists_models region hs
  refine ⟨fun request => ?_, fun p hp => ?_⟩
  · obtain ⟨m', a, hresult, -, -, hmodels, hspares⟩ := h.myMalloc region request.toNat
    refine ⟨⟨m', if a = 0 then s.live else (a, request.toNat) :: s.live⟩,
      by rw [step, hresult]; rfl, fun q hq => ?_⟩
    refine hmodels.kept ?_ (hspares _ (h.payload_used hq))
    show q ∈ if a = 0 then s.live else (a, request.toNat) :: s.live
    split
    · exact hq
    · exact List.mem_cons_of_mem _ hq
  · obtain ⟨m', blocks', hresult, hmodels, hspares, -⟩ := h.myFree region hp
    refine ⟨⟨m', s.live.filter (·.1 ≠ p.1)⟩, by rw [step, hresult]; rfl, fun q hq hne => ?_⟩
    have haddress : q.1 ≠ p.1 := fun heq =>
      hne (List.inj_on_of_nodup_map h.distinct hq hp heq)
    exact hmodels.kept (List.mem_filter.mpr ⟨hq, by simpa using haddress⟩)
      (hspares _ (h.payload_used hq) haddress)

/-- Two allocations, one of them empty, and a byte that the program has written. -/
theorem heap_frame_written :
    let region : Region := ⟨4096, by decide, by decide⟩
    ∃ s ∈ run region.heap (start (fun _ => 0) region.heap)
        [.myMalloc 1000, .myMalloc 0, .write 4120 72],
      s.live = [(5144, 0), (4120, 1000)] ∧
        (∃ s', step region.heap s (.myMalloc 5000) = some s' ∧ Kept s s' (4120, 1000)) ∧
        ∃ s', step region.heap s (.myFree 5144) = some s' ∧ Kept s s' (4120, 1000) := by
  intro region
  obtain ⟨s, hrun, hgoal⟩ := (Option.any_eq_true _ _).mp
    (by decide +kernel : (run region.heap (start (fun _ => 0) region.heap)
      [.myMalloc 1000, .myMalloc 0, .write 4120 72]).any
      (fun s => decide (s.live = [(5144, 0), (4120, 1000)])) = true)
  have hlive : s.live = [(5144, 0), (4120, 1000)] := of_decide_eq_true hgoal
  have hmem : (4120, 1000) ∈ s.live := by simp [hlive]
  obtain ⟨hmalloc, hfree⟩ := heap_frame region (.run .start hrun)
  obtain ⟨s₁, hstep₁, hkept₁⟩ := hmalloc 5000
  obtain ⟨s₂, hstep₂, hkept₂⟩ := hfree (5144, 0) (by simp [hlive])
  exact ⟨s, hrun, hlive, ⟨s₁, hstep₁, hkept₁ _ hmem⟩, s₂, hstep₂, hkept₂ _ hmem (by decide)⟩

/-! ### Freeing everything -/

/-- The flags of the headers are those of the list. -/
theorem Represents.map_free {m : ByteMemory} {stop a : Nat} {blocks : List Segment}
    (h : Represents m stop a blocks) :
    (headers sizeofBlock a blocks).map (free m) = blocks.map Segment.free := by
  induction blocks generalizing a with
  | nil => rfl
  | cons s rest ih =>
      rw [headers, List.map_cons, List.map_cons, ih h.2, free_eq h.1]

/-- No two neighbouring blocks of a reduced heap are free. -/
theorem Represents.isChain {m : ByteMemory} {stop a : Nat} {blocks : List Segment}
    (h : Represents m stop a blocks) (hreduced : Reduced blocks) :
    (headers sizeofBlock a blocks).IsChain fun b c => ¬(free m b = true ∧ free m c = true) := by
  have hflags : (blocks.map Segment.free).IsChain fun b c => ¬(b = true ∧ c = true) :=
    (List.isChain_map _).mpr hreduced
  rw [← h.map_free] at hflags
  exact (List.isChain_map _).mp hflags

/-- A heap without live allocations is one free block. -/
theorem Models.eq_initial {heap : Nat} {s : State} {blocks : List Segment}
    (h : Models heap s blocks) (hreduced : Reduced blocks) (hlive : s.live = []) :
    header s.memory heap = ⟨heapSize - sizeofBlock, 0, true⟩ := by
  have hused : used sizeofBlock heap blocks = [] := by
    refine List.eq_nil_iff_forall_not_mem.mpr fun p hp => ?_
    have hmem := h.complete p hp
    rw [hlive] at hmem
    cases hmem
  have hsingle := hreduced.eq_singleton hused h.blocks_ne_nil
  have hheader := h.represents
  rw [hsingle, h.fills] at hheader
  exact hheader.1

/-- Freeing the live pointers one after the other leaves none. -/
theorem exists_freeAll (region : Region) {m : ByteMemory} {s : State} {order : List Nat}
    (hs : Reachable m region.heap s) (horder : order.Perm (s.live.map Prod.fst)) :
    ∃ s', run region.heap s (order.map .myFree) = some s' ∧ Reachable m region.heap s' ∧
      s'.live = [] := by
  induction order generalizing s with
  | nil => exact ⟨s, rfl, hs, List.map_eq_nil_iff.mp (List.nil_perm.mp horder)⟩
  | cons a order ih =>
      obtain ⟨blocks, h, -⟩ := exists_models region hs
      have ha : a ∈ s.live.map Prod.fst := horder.subset List.mem_cons_self
      have hallowed : (Call.myFree a).Allowed s.live := .inr ha
      obtain ⟨p, hp, rfl⟩ := List.mem_map.mp ha
      obtain ⟨m', -, hresult, -⟩ := h.myFree region hp
      have hstep : step region.heap s (.myFree p.1) =
          some ⟨m', s.live.filter (·.1 ≠ p.1)⟩ := by
        rw [step, hresult]
        rfl
      have hrest : order.Perm ((s.live.filter (·.1 ≠ p.1)).map Prod.fst) := by
        have herase : (s.live.filter (·.1 ≠ p.1)).map Prod.fst =
            (s.live.map Prod.fst).erase p.1 := by
          rw [h.distinct.erase_eq_filter, List.filter_map]
          simp [Function.comp_def, bne, Bool.beq_eq_decide_eq]
        rw [herase]
        simpa using horder.erase p.1
      obtain ⟨s', hrun, hs', hlive⟩ := ih (.step hs hallowed hstep) hrest
      refine ⟨s', ?_, hs', hlive⟩
      rw [List.map_cons, run, if_pos hallowed, hstep]
      exact hrun

/-- In every state of every program no two neighbours in the block chain are free, and freeing
the live pointers, in whichever order, leaves the one free block that `initialize` made. -/
theorem heap_coalesced (region : Region) {m : ByteMemory} {s : State}
    (hs : Reachable m region.heap s) :
    (∃ blocks, Tiles region.heap s.memory blocks ∧
      blocks.IsChain fun b c => ¬(free s.memory b = true ∧ free s.memory c = true)) ∧
    ∀ order : List Nat, order.Perm (s.live.map Prod.fst) →
      ∃ s', run region.heap s (order.map .myFree) = some s' ∧ s'.live = [] ∧
        header s'.memory region.heap = ⟨heapSize - sizeofBlock, 0, true⟩ := by
  obtain ⟨blocks, h, hreduced⟩ := exists_models region hs
  refine ⟨⟨_, h.tiles region, h.represents.isChain hreduced⟩, fun order horder => ?_⟩
  obtain ⟨s', hrun, hs', hlive⟩ := exists_freeAll region hs horder
  obtain ⟨blocks', h', hreduced'⟩ := exists_models region hs'
  exact ⟨s', hrun, hlive, h'.eq_initial hreduced' hlive⟩

/-- Three allocations, the first of which is freed and reused; the others are freed in the
order in which they were made. -/
theorem heap_coalesced_order :
    let region : Region := ⟨4096, by decide, by decide⟩
    ∃ s ∈ run region.heap (start (fun _ => 0) region.heap)
        [.myMalloc 1000, .myMalloc 0, .myMalloc 2000, .myFree 4120, .myMalloc 90],
      s.live = [(4120, 90), (5168, 2000), (5144, 0)] ∧
        ∃ s', run region.heap s ([5144, 5168, 4120].map .myFree) = some s' ∧ s'.live = [] ∧
          header s'.memory region.heap = ⟨heapSize - sizeofBlock, 0, true⟩ := by
  intro region
  obtain ⟨s, hrun, hgoal⟩ := (Option.any_eq_true _ _).mp
    (by decide +kernel : (run region.heap (start (fun _ => 0) region.heap)
      [.myMalloc 1000, .myMalloc 0, .myMalloc 2000, .myFree 4120, .myMalloc 90]).any
      (fun s => decide (s.live = [(4120, 90), (5168, 2000), (5144, 0)])) = true)
  have hlive : s.live = [(4120, 90), (5168, 2000), (5144, 0)] := of_decide_eq_true hgoal
  exact ⟨s, hrun, hlive, (heap_coalesced region (.run .start hrun)).2 _ (by rw [hlive]; decide)⟩

end Heap
end OperatingSystems
