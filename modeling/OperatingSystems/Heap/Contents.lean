import OperatingSystems.Heap.Tiling
import OperatingSystems.Library.Objects

/-!
# The allocator as a store of objects

What a program can rely on: it gets objects, writes to them, reads back what it has written,
and gives them back.  How the heap is cut into blocks is not part of it.

* `Call.Does` — what a call does to the objects of the program.
* `Holds` — the live allocations are the objects, and memory has what was written to them.
* `Holds.step` — one call, whatever it does to the block chain, is one on the objects.
* `heap_stores` — so is every sequence of calls.
-/

namespace OperatingSystems
namespace Heap

open Segments

/-! ### The objects of a program -/

/-- What a call does to the objects.  `myMalloc` makes one at any place that is vacant, or none;
it does not say which. -/
inductive Call.Does (store : Objects Byte) : Call → Objects Byte → Prop
  | refuses (request : BitVec 64) : Does store (.myMalloc request) store
  | allocates {request : BitVec 64} {a : Nat} (ha : a ≠ 0) (h : store.Vacant a request.toNat) :
      Does store (.myMalloc request) (store.alloc a request.toNat h)
  | null : Does store (.myFree 0) store
  | frees {o : Object Byte} (ho : o ∈ store.list) :
      Does store (.myFree o.address) (store.free o.address)
  | writes {o : Object Byte} {address : Nat} (ho : o ∈ store.list) (hx : o.Covers address)
      (value : Byte) : Does store (.write address value) (store.write address value)

/-- What a sequence of calls does to them. -/
def CallsDo (store : Objects Byte) : List Call → Objects Byte → Prop
  | [], store' => store' = store
  | call :: calls, store' => ∃ next, call.Does store next ∧ CallsDo next calls store'

/-- The objects are the live allocations, and memory has what was written last. -/
structure Holds (s : State) (store : Objects Byte) : Prop where
  live : s.live = store.list.map fun o => (o.address, o.size)
  bytes : ∀ x v, store.read x = some v → s.memory x = v

theorem Holds.start (m : ByteMemory) (heap : Nat) : Holds (start m heap) .empty :=
  ⟨rfl, nofun⟩

section Payloads

variable {heap x : Nat} {s : State} {blocks : List Segment} {store : Objects Byte}

theorem Holds.mem_live (h : Holds s store) {o : Object Byte} (ho : o ∈ store.list) :
    (o.address, o.size) ∈ s.live := by
  rw [h.live]
  exact List.mem_map.mpr ⟨o, ho, rfl⟩

theorem Holds.exists_object (h : Holds s store) {p : Nat × Nat} (hp : p ∈ s.live) :
    ∃ o ∈ store.list, (o.address, o.size) = p := by
  rw [h.live] at hp
  exact List.mem_map.mp hp

/-- The bytes of a live allocation are those of a payload in use. -/
theorem Models.exists_payload (h : Models heap s blocks) {p : Nat × Nat} (hp : p ∈ s.live)
    (hx : p.1 ≤ x ∧ x < p.1 + p.2) :
    ∃ q ∈ used sizeofBlock heap blocks, q.1 = p.1 ∧ q.1 ≤ x ∧ x < q.1 + q.2 := by
  obtain ⟨taken, hle, hused⟩ := h.live p hp
  exact ⟨(p.1, taken), hused, rfl, hx.1, by simp only; omega⟩

theorem Models.live_apart (h : Models heap s blocks) {p q : Nat × Nat} (hp : p ∈ s.live)
    (hq : q ∈ s.live) (hne : p.1 ≠ q.1) : p.1 + p.2 ≤ q.1 ∨ q.1 + q.2 ≤ p.1 := by
  obtain ⟨taken, hle, hused⟩ := h.live p hp
  obtain ⟨taken', hle', hused'⟩ := h.live q hq
  have := used_apart hused hused' hne
  simp only at this
  omega

/-- A place that `myMalloc` returns is vacant. -/
theorem Models.vacant {m : ByteMemory} {a n : Nat} (h : Models heap ⟨m, (a, n) :: s.live⟩ blocks)
    (hholds : Holds s store) : store.Vacant a n := by
  intro o ho
  have hlive : (o.address, o.size) ∈ (a, n) :: s.live := List.mem_cons_of_mem _ (hholds.mem_live ho)
  have hne : a ≠ o.address := fun heq =>
    (List.nodup_cons.mp h.distinct).1 (heq ▸ List.mem_map.mpr ⟨_, hholds.mem_live ho, rfl⟩)
  have hapart := h.live_apart (List.mem_cons_self) hlive hne
  exact ⟨hne, by rwa [Object.size_fresh]⟩

end Payloads

/-! ### The calls -/

section Calls

variable {s s' : State} {blocks : List Segment} {store : Objects Byte}

theorem Holds.myMalloc (region : Region) (h : Models region.heap s blocks) (hholds : Holds s store)
    {request : BitVec 64} (hstep : step region.heap s (.myMalloc request) = some s') :
    ∃ store', (Call.myMalloc request).Does store store' ∧ Holds s' store' ∧
      ∀ x, store'.read x = store.read x := by
  obtain ⟨m, p, hresult, -, -, hmodels, hspares⟩ := h.myMalloc region request.toNat
  rw [step, hresult] at hstep
  obtain rfl := Option.some.inj hstep
  have hbytes : ∀ x v, store.read x = some v → m x = v := by
    intro x v hread
    obtain ⟨o, ho, hread'⟩ := Objects.read_eq_some_iff.mp hread
    obtain ⟨q, hq, -, hlow, hhigh⟩ :=
      h.exists_payload (hholds.mem_live ho) (Object.covers_of_read hread')
    rw [(hspares q hq).bytes x hlow hhigh, hholds.bytes x v hread]
  by_cases hp : p = 0
  · exact ⟨store, .refuses request, ⟨by simpa [hp] using hholds.live, hbytes⟩, fun _ => rfl⟩
  · simp only [if_neg hp] at hmodels ⊢
    have hvacant := hmodels.vacant hholds
    refine ⟨_, .allocates hp hvacant, ⟨?_, fun x v hread => hbytes x v ?_⟩, fun x => ?_⟩
    · simp [Objects.alloc, Object.fresh, Object.size, hholds.live]
    · rwa [Objects.read_alloc] at hread
    · exact Objects.read_alloc hvacant x

theorem Holds.myFree (region : Region) (h : Models region.heap s blocks) (hholds : Holds s store)
    {o : Object Byte} (ho : o ∈ store.list)
    (hstep : step region.heap s (.myFree o.address) = some s') :
    Holds s' (store.free o.address) := by
  obtain ⟨m, blocks', hresult, -, hspares, -⟩ := h.myFree region (hholds.mem_live ho)
  rw [step, hresult] at hstep
  obtain rfl := Option.some.inj hstep
  refine ⟨?_, fun x v hread => ?_⟩
  · simp only [hholds.live, Objects.free, List.filter_map]
    rfl
  · obtain ⟨hread, hother⟩ := Objects.read_free_eq_some_iff.mp hread
    obtain ⟨q, hq, hread'⟩ := Objects.read_eq_some_iff.mp hread
    have hcovers := Object.covers_of_read hread'
    obtain ⟨r, hr, haddress, hlow, hhigh⟩ := h.exists_payload (hholds.mem_live hq) hcovers
    have hne : r.1 ≠ o.address := fun heq =>
      hother ⟨q, hq, haddress.symm.trans heq, hcovers⟩
    exact ((hspares r hr hne).bytes x hlow hhigh).trans (hholds.bytes x v hread)

theorem Holds.write (hholds : Holds s store) {o : Object Byte} (ho : o ∈ store.list) {x : Nat}
    (hx : o.Covers x) (v : Byte) :
    Holds ⟨Function.update s.memory x v, s.live⟩ (store.write x v) := by
  refine ⟨?_, fun y w hread => ?_⟩
  · simp [hholds.live, Objects.write, Function.comp_def]
  · show Function.update s.memory x v y = w
    by_cases hy : y = x
    · subst hy
      rw [Objects.read_write_self ho hx] at hread
      rw [Function.update_self, Option.some.inj hread]
    · rw [Objects.read_write_of_ne hy] at hread
      rw [Function.update_of_ne hy, hholds.bytes y w hread]

/-- A call is one on the objects. -/
theorem Holds.step (region : Region) (h : Models region.heap s blocks) (hholds : Holds s store)
    {call : Call} (hallowed : call.Allowed s.live) (hstep : step region.heap s call = some s') :
    ∃ store', call.Does store store' ∧ Holds s' store' := by
  cases call with
  | myMalloc request =>
      obtain ⟨store', hdoes, hholds', -⟩ := hholds.myMalloc region h hstep
      exact ⟨store', hdoes, hholds'⟩
  | myFree memory =>
      by_cases hnull : memory = 0
      · subst hnull
        obtain rfl := Option.some.inj hstep
        refine ⟨store, .null, ?_, hholds.bytes⟩
        rw [← hholds.live]
        refine List.filter_eq_self.mpr fun p hp => ?_
        have := (h.live_bounds hp).1
        have := region.pos
        simp only [ne_eq, decide_not, Bool.not_eq_eq_eq_not, Bool.not_true, decide_eq_false_iff_not]
        omega
      · obtain ⟨p, hp, rfl⟩ := List.mem_map.mp (hallowed.resolve_left hnull)
        obtain ⟨o, ho, rfl⟩ := hholds.exists_object hp
        exact ⟨_, .frees ho, hholds.myFree region h ho hstep⟩
  | write address value =>
      obtain ⟨p, hp, hcovers⟩ := hallowed
      obtain ⟨o, ho, rfl⟩ := hholds.exists_object hp
      obtain rfl := Option.some.inj hstep
      exact ⟨_, .writes ho hcovers value, hholds.write ho hcovers value⟩

end Calls

/-! ### Sequences of calls -/

theorem run_cons_eq_some_iff {heap : Nat} {s s' : State} {call : Call} {calls : List Call} :
    run heap s (call :: calls) = some s' ↔
      call.Allowed s.live ∧ ∃ next, step heap s call = some next ∧
        run heap next calls = some s' := by
  rw [run]
  split
  · next hallowed => cases step heap s call <;> simp [hallowed]
  · next hrefused => simp [hrefused]

/-- A sequence of calls is one on the objects. -/
theorem Holds.run (region : Region) {m : ByteMemory} {s s' : State} {store : Objects Byte}
    {calls : List Call} (hs : Reachable m region.heap s) (hholds : Holds s store)
    (hrun : run region.heap s calls = some s') :
    ∃ store', CallsDo store calls store' ∧ Holds s' store' := by
  induction calls generalizing s store with
  | nil =>
      obtain rfl := Option.some.inj hrun
      exact ⟨store, rfl, hholds⟩
  | cons call calls ih =>
      obtain ⟨hallowed, next, hstep, hrest⟩ := run_cons_eq_some_iff.mp hrun
      obtain ⟨blocks, h, -⟩ := exists_models region hs
      obtain ⟨store₁, hdoes, hholds₁⟩ := hholds.step region h hallowed hstep
      obtain ⟨store', hrest', hholds'⟩ := ih (.step hs hallowed hstep) hholds₁ hrest
      exact ⟨store', ⟨store₁, hdoes, hrest'⟩, hholds'⟩

/-- Whatever a program does with the allocator, it works on objects that do not overlap: its
live allocations are these objects, and each byte of them is the one that was written last. -/
theorem heap_stores (region : Region) {m : ByteMemory} {calls : List Call} {s : State}
    (hrun : run region.heap (start m region.heap) calls = some s) :
    ∃ store, CallsDo .empty calls store ∧ Holds s store :=
  Holds.run region .start (.start m region.heap) hrun

/-- An allocation that is written to and freed, and one that takes its place. -/
theorem heap_stores_reused :
    let region : Region := ⟨4096, by decide, by decide⟩
    let calls : List Call := [.myMalloc 1000, .write 4120 72, .myMalloc 0, .myFree 4120,
      .myMalloc 90, .write 4121 73]
    ∃ s ∈ run region.heap (start (fun _ => 0) region.heap) calls,
      s.live = [(4120, 90), (5144, 0)] ∧ ∃ store, CallsDo .empty calls store ∧ Holds s store := by
  intro region calls
  obtain ⟨s, hrun, hlive⟩ := (Option.any_eq_true _ _).mp
    (by decide +kernel : (run region.heap (start (fun _ => 0) region.heap) calls).any
      (fun s => decide (s.live = [(4120, 90), (5144, 0)])) = true)
  exact ⟨s, hrun, of_decide_eq_true hlive, heap_stores region hrun⟩

end Heap
end OperatingSystems
