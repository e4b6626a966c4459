import OperatingSystems.Heap.Fit

/-!
# Alignment

The fields of a header are read and written as 64-bit words, but `myMalloc` puts the header of
the remainder directly behind as many bytes as it was asked for.

* `Aligned` — every header and every live pointer is a multiple of 8.
* `Splits` — the call that comes next splits a block.
* `aligned_iff` — in a run all states are aligned if and only if every request that splits a
  block is a multiple of 8.
-/

namespace OperatingSystems
namespace Heap

open Segments

/-- Every header and every pointer that the program has from `myMalloc` is a multiple of 8. -/
def Aligned (heap : Nat) (s : State) : Prop :=
  (∃ blocks, Tiles heap s.memory blocks ∧ ∀ b ∈ blocks, 8 ∣ b) ∧ ∀ p ∈ s.live, 8 ∣ p.1

/-- The lowest block that fits is larger than the request and a header. -/
def Splits (heap : Nat) (m : ByteMemory) (request : Nat) : Prop :=
  ∃ blocks b, Tiles heap m blocks ∧ LowestFit m blocks request b ∧
    request + sizeofBlock < size m b

theorem Tiles.unique {heap : Nat} {m : ByteMemory} {blocks blocks' : List Nat}
    (h : Tiles heap m blocks) (h' : Tiles heap m blocks') : blocks = blocks' :=
  h.chain.unique h'.chain

theorem LowestFit.unique {m : ByteMemory} {blocks : List Nat} {request b c : Nat}
    (hb : LowestFit m blocks request b) (hc : LowestFit m blocks request c) : b = c := by
  apply Nat.le_antisymm
  · exact hb.lowest c hc.mem hc.free hc.enough
  · exact hc.lowest b hb.mem hb.free hb.enough

theorem run_append (heap : Nat) (s : State) (calls more : List Call) :
    run heap s (calls ++ more) = (run heap s calls).bind fun s' => run heap s' more := by
  induction calls generalizing s with
  | nil => rfl
  | cons call calls ih =>
      rw [List.cons_append, run, run]
      split
      · cases step heap s call with
        | none => rfl
        | some s' => exact ih s'
      · rfl

section Run

variable {region : Region} {s : State} {segments : List Segment}

/-- A call splits a block if and only if `allocate` splits a segment. -/
theorem Models.splits_iff (h : Models region.heap s segments) (request : Nat) :
    Splits region.heap s.memory request ↔ ∃ pre t suf,
      firstFit request segments = some (pre, t, suf) ∧ request + sizeofBlock < t.size := by
  constructor
  · rintro ⟨blocks, b, htiles, hb, hlarge⟩
    obtain rfl := htiles.unique (h.tiles region)
    cases hfound : firstFit request segments with
    | none =>
        have hnone := (h.represents.forall_headers
          fun size free => free = true → size < request).mpr (firstFit_eq_none_iff.mp hfound)
        have hsmall := hnone b hb.mem hb.free
        have henough := hb.enough
        omega
    | some found =>
        obtain ⟨pre, t, suf⟩ := found
        have hlowest := h.represents.lowestFit hfound
        obtain rfl := hb.unique hlowest
        obtain ⟨rfl, -, -⟩ := firstFit_eq_some hfound
        exact ⟨pre, t, suf, rfl, h.represents.header_at.1 ▸ hlarge⟩
  · rintro ⟨pre, t, suf, hfound, hlarge⟩
    have hlowest := h.represents.lowestFit hfound
    refine ⟨_, _, h.tiles region, hlowest, ?_⟩
    obtain ⟨rfl, -, -⟩ := firstFit_eq_some hfound
    rw [h.represents.header_at.1]
    exact hlarge

/-- Sizes that are multiples of 8 put everything at multiples of 8. -/
theorem Models.aligned (h : Models region.heap s segments) (hheap : 8 ∣ region.heap)
    (hsizes : Multiples 8 segments) : Aligned region.heap s := by
  have hheaders := hsizes.headers (show 8 ∣ sizeofBlock by decide) hheap
  refine ⟨⟨_, h.tiles region, hheaders⟩, fun p hp => ?_⟩
  obtain ⟨taken, -, hused⟩ := h.live p hp
  obtain ⟨pre, suf, rfl, haddress⟩ := exists_of_mem_used hused
  have hmem : region.heap + extent sizeofBlock pre ∈
      headers sizeofBlock region.heap (pre ++ ⟨taken, false⟩ :: suf) := by
    rw [headers_append]
    exact List.mem_append_right _ List.mem_cons_self
  rw [haddress]
  exact Nat.dvd_add (hheaders _ hmem) (by decide)

/-- A call keeps the sizes multiples of 8, unless it splits a block at another size. -/
theorem Models.step_multiples (h : Models region.heap s segments) (hsizes : Multiples 8 segments)
    {call : Call} (hallowed : call.Allowed s.live)
    (hcall : ∀ request, call = .myMalloc request → Splits region.heap s.memory request.toNat →
      8 ∣ request.toNat) {s' : State} (hstep : Heap.step region.heap s call = some s') :
    ∃ segments', Models region.heap s' segments' ∧ Multiples 8 segments' := by
  obtain ⟨next, segments', hnext, hmodels, hchanges⟩ := h.step region hallowed
  obtain rfl := Option.some.inj (hnext.symm.trans hstep)
  refine ⟨segments', hmodels, ?_⟩
  cases hchanges with
  | myMalloc request =>
      refine hsizes.allocate (by decide) (fun pre t suf hfound hlarge => ?_) _
      apply hcall request rfl
      exact (h.splits_iff _).mpr ⟨pre, t, suf, hfound, hlarge⟩
  | null => exact hsizes
  | myFree hreleases => exact hsizes.releases hreleases (by decide)
  | write address value => exact hsizes

/-- The header behind a split is aligned only if the request is a multiple of 8. -/
theorem Models.dvd_of_aligned (h : Models region.heap s segments) {request : BitVec 64}
    (hsplits : Splits region.heap s.memory request.toNat) {s' : State}
    (hstep : Heap.step region.heap s (.myMalloc request) = some s')
    (haligned : Aligned region.heap s) (haligned' : Aligned region.heap s') :
    8 ∣ request.toNat := by
  obtain ⟨next, segments', hnext, hmodels, hchanges⟩ :=
    h.step region (show (Call.myMalloc request).Allowed s.live from trivial)
  obtain rfl := Option.some.inj (hnext.symm.trans hstep)
  cases hchanges with
  | myMalloc =>
      obtain ⟨pre, t, suf, hfound, hlarge⟩ := (h.splits_iff _).mp hsplits
      have hallocate : (allocate sizeofBlock region.heap request.toNat segments).2 =
          pre ++ ⟨request.toNat, false⟩ :: ⟨t.size - request.toNat - sizeofBlock, true⟩ :: suf := by
        simp [allocate, hfound, Segments.split, hlarge]
      rw [hallocate] at hmodels
      obtain ⟨rfl, -, -⟩ := firstFit_eq_some hfound
      obtain ⟨⟨blocks, htiles, hblocks⟩, -⟩ := haligned
      obtain ⟨⟨blocks', htiles', hblocks'⟩, -⟩ := haligned'
      obtain rfl := htiles.unique (h.tiles region)
      obtain rfl := htiles'.unique (hmodels.tiles region)
      have hfront : 8 ∣ region.heap + extent sizeofBlock pre := by
        apply hblocks
        rw [headers_append]
        exact List.mem_append_right _ List.mem_cons_self
      have hback : 8 ∣ region.heap + extent sizeofBlock pre + sizeofBlock + request.toNat := by
        apply hblocks'
        rw [headers_append]
        exact List.mem_append_right _ (List.mem_cons_of_mem _ List.mem_cons_self)
      exact (Nat.dvd_add_right (Nat.dvd_add hfront (by decide))).mp hback

/-- Along a run whose requests split at multiples of 8 only, all sizes are multiples of 8. -/
theorem Models.run_multiples {calls front : List Call} (h : Models region.heap s segments)
    (hsizes : Multiples 8 segments)
    (hcalls : ∀ front request, front ++ [.myMalloc request] <+: calls →
      ∀ t ∈ run region.heap s front, Splits region.heap t.memory request.toNat →
        8 ∣ request.toNat)
    (hfront : front <+: calls) {t : State} (hrun : run region.heap s front = some t) :
    ∃ segments', Models region.heap t segments' ∧ Multiples 8 segments' := by
  induction front generalizing s segments calls with
  | nil =>
      obtain rfl := Option.some.inj hrun
      exact ⟨segments, h, hsizes⟩
  | cons call front ih =>
      obtain ⟨more, rfl⟩ := hfront
      rw [run] at hrun
      split at hrun
      · next hallowed =>
        cases hstep : Heap.step region.heap s call with
        | none => simp [hstep] at hrun
        | some s' =>
            rw [hstep] at hrun
            obtain ⟨segments', hmodels, hsizes'⟩ := h.step_multiples hsizes hallowed
              (fun request hcall => hcalls [] request (by simp [hcall]) s rfl) hstep
            refine ih hmodels hsizes' (fun front' request hprefix u hu => ?_)
              (List.prefix_append front more) hrun
            refine hcalls (call :: front') request ?_ u ?_
            · exact (List.prefix_cons_inj call).mpr hprefix
            · rw [run, if_pos hallowed, hstep]
              exact hu
      · cases hrun

end Run

/-- In a run of the program on a page-aligned heap, every header and every pointer in every state
is a multiple of 8 if and only if every request that splits a block is one. -/
theorem aligned_iff (region : Region) (hpage : 4096 ∣ region.heap) (m : ByteMemory)
    (calls : List Call) :
    (∀ front, front <+: calls → ∀ s ∈ run region.heap (start m region.heap) front,
        Aligned region.heap s) ↔
      ∀ front request, front ++ [.myMalloc request] <+: calls →
        ∀ s ∈ run region.heap (start m region.heap) front,
          Splits region.heap s.memory request.toNat → 8 ∣ request.toNat := by
  have hheap : 8 ∣ region.heap := Nat.dvd_trans (by decide) hpage
  constructor
  · intro h front request hprefix s hs hsplits
    obtain ⟨segments, hmodels, -⟩ := exists_models region (.run .start hs)
    have hallowed : (Call.myMalloc request).Allowed s.live := trivial
    obtain ⟨s', -, hstep, -⟩ := hmodels.step region hallowed
    have hnext : run region.heap (start m region.heap) (front ++ [.myMalloc request]) = some s' := by
      rw [run_append, Option.mem_def.mp hs, Option.bind_some, run,
        if_pos hallowed, hstep]
      rfl
    have haligned := h front ((List.prefix_append _ _).trans hprefix) s hs
    exact hmodels.dvd_of_aligned hsplits hstep haligned (h _ hprefix s' hnext)
  · intro h front hfront s hs
    obtain ⟨segments, hmodels, hsizes⟩ := (Models.start region m).run_multiples
      (by simp only [Multiples, List.forall_mem_singleton]; decide) h hfront hs
    exact hmodels.aligned hheap hsizes

/-- Requests that are multiples of 8. -/
theorem aligned_iff_multiples :
    let region : Region := ⟨4096, by decide, by decide⟩
    ∀ front, front <+: [Call.myMalloc 1000, .myMalloc 2000, .myFree 4120, .myMalloc 40000] →
      ∀ s ∈ run region.heap (start (fun _ => 0) region.heap) front, Aligned region.heap s := by
  intro region
  refine (aligned_iff region (by decide) _ _).mpr fun front request hprefix s _ _ => ?_
  have hmem := hprefix.subset (List.mem_append_right _ List.mem_cons_self)
  simp only [List.mem_cons, Call.myMalloc.injEq, reduceCtorEq, List.not_mem_nil, or_false,
    false_or] at hmem
  rcases hmem with rfl | rfl | rfl <;> decide

/-- An allocation of one byte. -/
theorem aligned_oneByte_false :
    ¬∀ (region : Region) (m : ByteMemory) (s : State), 4096 ∣ region.heap →
      Reachable m region.heap s → Aligned region.heap s := by
  intro h
  let region : Region := ⟨4096, by decide, by decide⟩
  have hmodels := Models.start region (fun _ => 0)
  have hsplits : Splits region.heap (start (fun _ => 0) region.heap).memory
      (BitVec.toNat (1 : BitVec 64)) :=
    (hmodels.splits_iff _).mpr ⟨[], _, [], rfl, by decide⟩
  have hallowed : (Call.myMalloc 1).Allowed (start (fun _ => 0) region.heap).live := trivial
  obtain ⟨s', -, hstep, -⟩ := hmodels.step region hallowed
  have hreachable : Reachable (fun _ => 0) region.heap s' := .step .start hallowed hstep
  have hdvd := hmodels.dvd_of_aligned hsplits hstep (h region _ _ (by decide) .start)
    (h region _ _ (by decide) hreachable)
  exact absurd hdvd (by decide)

end Heap
end OperatingSystems
