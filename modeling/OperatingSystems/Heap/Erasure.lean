import Mathlib.Order.Interval.Set.Basic
import OperatingSystems.Heap.Contents

/-!
# What the allocator does with the data of a program

`myMalloc` and `myFree` look at headers only, and `myFree` overwrites what it gets back.  Two
programs that differ in the values that they write get the same pointers, and their memories
are equal except where an object of theirs holds a value.

* `mallocFrom_eqOn`, `mergeFrom_eqOn`, `Models.myFree_eqOn` — the calls in two memories with the
  same headers.
* `Alike.step` — one call of each program.
* `heap_hides` — the runs of the two programs.
-/

namespace OperatingSystems
namespace Heap

open Segments

variable {m m' n : ByteMemory} {t : Set Nat} {a heap : Nat} {blocks : List Segment}

/-! ### Two memories with the same headers -/

/-- The header at this address lies in `t`. -/
def HeaderIn (t : Set Nat) (b : Nat) : Prop :=
  ∀ x, b ≤ x → x < b + sizeofBlock → x ∈ t

/-- The headers of these blocks do. -/
def HeadersIn (t : Set Nat) (a : Nat) (blocks : List Segment) : Prop :=
  ∀ b ∈ headers sizeofBlock a blocks, HeaderIn t b

theorem HeadersIn.of_subset {a' : Nat} {blocks' : List Segment} (h : HeadersIn t a blocks)
    (hsub : headers sizeofBlock a' blocks' ⊆ headers sizeofBlock a blocks) :
    HeadersIn t a' blocks' :=
  fun b hb => h b (hsub hb)

section Fields

theorem header_eqOn (h : Set.EqOn m m' t) (hin : HeaderIn t a) : header m' a = header m a :=
  header_congr fun x hx hlt => (h (hin x hx hlt)).symm

theorem size_eqOn (h : Set.EqOn m m' t) (hin : HeaderIn t a) : size m' a = size m a :=
  congrArg Header.size (header_eqOn h hin)

theorem next_eqOn (h : Set.EqOn m m' t) (hin : HeaderIn t a) : next m' a = next m a :=
  congrArg Header.next (header_eqOn h hin)

theorem free_eqOn (h : Set.EqOn m m' t) (hin : HeaderIn t a) : free m' a = free m a :=
  congrArg Header.free (header_eqOn h hin)

theorem setSize_eqOn (h : Set.EqOn m m' t) (a value : Nat) :
    Set.EqOn (setSize m a value) (setSize m' a value) t :=
  ByteMemory.eqOn_store h a 8 value

theorem setNext_eqOn (h : Set.EqOn m m' t) (a value : Nat) :
    Set.EqOn (setNext m a value) (setNext m' a value) t :=
  ByteMemory.eqOn_store h (a + 8) 8 value

theorem setFree_eqOn (h : Set.EqOn m m' t) (a value : Nat) :
    Set.EqOn (setFree m a value) (setFree m' a value) t :=
  ByteMemory.eqOn_store h (a + 16) 1 value

end Fields

/-! ### `myMalloc` -/

theorem splitBlock_eqOn (h : Set.EqOn m m' t) (hin : HeaderIn t a) (request : Nat) :
    Set.EqOn (splitBlock m a request) (splitBlock m' a request) t := by
  unfold splitBlock
  simp only [size_eqOn h hin]
  -- The link of the remainder is read after two fields of its header are written.
  have hremainder := setFree_eqOn (setSize_eqOn h (wadd (wadd a sizeofBlock) request)
    (wsub (wsub (size m a) request) sizeofBlock)) (wadd (wadd a sizeofBlock) request) 1
  rw [next_eqOn hremainder hin]
  exact setNext_eqOn (setFree_eqOn (setSize_eqOn (setNext_eqOn hremainder _ _) _ _) _ _) _ _

theorem mallocFrom_eqOn {request rounds p : Nat} (hrep : Represents m 0 a blocks)
    (h : Set.EqOn m m' t) (hin : HeadersIn t a blocks)
    (hresult : mallocFrom request rounds m (first a blocks) = some (n, p)) :
    ∃ n', mallocFrom request rounds m' (first a blocks) = some (n', p) ∧ Set.EqOn n n' t := by
  induction blocks generalizing a rounds with
  | nil =>
      cases rounds with
      | zero => cases hresult
      | succ rounds =>
          obtain ⟨rfl, rfl⟩ := Prod.mk.inj (Option.some.inj hresult)
          exact ⟨m', rfl, h⟩
  | cons s rest ih =>
      cases rounds with
      | zero => cases hresult
      | succ rounds =>
          have hina : HeaderIn t a := hin a List.mem_cons_self
          have hnext : next m a = first (a + sizeofBlock + s.size) rest := next_eq hrep.1
          rw [first_cons, mallocFrom] at hresult ⊢
          rw [free_eqOn h hina, size_eqOn h hina, next_eqOn h hina]
          by_cases hnull : a = 0
          · rw [if_pos hnull] at hresult ⊢
            obtain ⟨rfl, rfl⟩ := Prod.mk.inj (Option.some.inj hresult)
            exact ⟨m', rfl, h⟩
          · rw [if_neg hnull] at hresult ⊢
            by_cases hfit : free m a = true ∧ request ≤ size m a
            · rw [if_pos hfit] at hresult ⊢
              by_cases hlarge : wadd request sizeofBlock < size m a
              · rw [if_pos hlarge] at hresult ⊢
                obtain ⟨rfl, rfl⟩ := Prod.mk.inj (Option.some.inj hresult)
                exact ⟨_, rfl, splitBlock_eqOn h hina request⟩
              · rw [if_neg hlarge] at hresult ⊢
                obtain ⟨rfl, rfl⟩ := Prod.mk.inj (Option.some.inj hresult)
                exact ⟨_, rfl, setFree_eqOn h a 0⟩
            · rw [if_neg hfit, hnext] at hresult ⊢
              exact ih hrep.2 (hin.of_subset (List.subset_cons_self _ _)) hresult

/-! ### `myFree` -/

theorem absorbNext_eqOn (h : Set.EqOn m m' t) (hin : HeaderIn t a)
    (hin' : HeaderIn t (next m a)) : Set.EqOn (absorbNext m a) (absorbNext m' a) t := by
  have hsame (value : Nat) : next (setSize m a value) a = next m a :=
    ByteMemory.load_store_of_disjoint (Or.inr le_rfl)
  unfold absorbNext
  simp only [size_eqOn h hin, next_eqOn h hin, size_eqOn h hin']
  have hsize := setSize_eqOn h a (wadd (size m a) (wadd (size m (next m a)) sizeofBlock))
  rw [next_eqOn hsize hin, hsame, next_eqOn hsize hin']
  exact setNext_eqOn hsize _ _

theorem mergeFrom_eqOn {rounds : Nat} (hrep : Represents m 0 a blocks)
    (hfits : a + extent sizeofBlock blocks < 2 ^ 64) (h : Set.EqOn m m' t)
    (hin : HeadersIn t a blocks) (hresult : mergeFrom rounds m (first a blocks) = some n) :
    ∃ n', mergeFrom rounds m' (first a blocks) = some n' ∧ Set.EqOn n n' t := by
  induction blocks using coalesce.induct sizeofBlock generalizing m m' a rounds with
  | case1 =>
      cases rounds with
      | zero => cases hresult
      | succ rounds =>
          obtain rfl := Option.some.inj hresult
          exact ⟨m', rfl, h⟩
  | case2 s =>
      cases rounds with
      | zero => cases hresult
      | succ rounds =>
          have hina : HeaderIn t a := hin a List.mem_cons_self
          have hnext : next m a = 0 := next_eq hrep.1
          rw [first_cons, mergeFrom, if_pos (Or.inr hnext)] at hresult
          obtain rfl := Option.some.inj hresult
          refine ⟨m', ?_, h⟩
          rw [first_cons, mergeFrom, next_eqOn h hina, if_pos (Or.inr hnext)]
  | case3 s u rest hfree ih =>
      cases rounds with
      | zero => cases hresult
      | succ rounds =>
          have hina : HeaderIn t a := hin a List.mem_cons_self
          have hnext : next m a = a + sizeofBlock + s.size := next_eq hrep.1
          have hinb : HeaderIn t (next m a) :=
            hnext ▸ hin _ (List.mem_cons_of_mem _ List.mem_cons_self)
          have hfree₁ : free m a = true := (free_eq hrep.1).trans hfree.1
          have hfree₂ : free m (next m a) = true := by
            rw [hnext]
            exact (free_eq hrep.2.1).trans hfree.2
          rw [first_cons, mergeFrom] at hresult ⊢
          rw [next_eqOn h hina, free_eqOn h hina, free_eqOn h hinb]
          by_cases hend : a = 0 ∨ next m a = 0
          · rw [if_pos hend] at hresult ⊢
            obtain rfl := Option.some.inj hresult
            exact ⟨m', rfl, h⟩
          · rw [if_neg hend, if_pos ⟨hfree₁, hfree₂⟩] at hresult ⊢
            -- The next block is absorbed in both memories.
            have hmerged := (absorbNext_spec hrep hfree.1 hfits).1
            have hextent : extent sizeofBlock (⟨s.size + (u.size + sizeofBlock), true⟩ :: rest) =
                extent sizeofBlock (s :: u :: rest) := by
              simp only [extent]
              omega
            have hbehind : a + sizeofBlock + (s.size + (u.size + sizeofBlock)) =
                a + sizeofBlock + s.size + sizeofBlock + u.size := by omega
            refine ih hmerged (by omega) (absorbNext_eqOn h hina hinb)
              (hin.of_subset fun b hb => ?_) hresult
            simp only [headers, hbehind, List.mem_cons] at hb ⊢
            exact hb.imp_right Or.inr
  | case4 s u rest hfree ih =>
      cases rounds with
      | zero => cases hresult
      | succ rounds =>
          have hina : HeaderIn t a := hin a List.mem_cons_self
          have hnext : next m a = a + sizeofBlock + s.size := next_eq hrep.1
          have hinb : HeaderIn t (next m a) :=
            hnext ▸ hin _ (List.mem_cons_of_mem _ List.mem_cons_self)
          have hfree₁ : free m a = s.free := free_eq hrep.1
          have hfree₂ : free m (next m a) = u.free := by
            rw [hnext]
            exact free_eq hrep.2.1
          have hextent : extent sizeofBlock (s :: u :: rest) =
              sizeofBlock + s.size + extent sizeofBlock (u :: rest) := rfl
          rw [first_cons, mergeFrom] at hresult ⊢
          rw [next_eqOn h hina, free_eqOn h hina, free_eqOn h hinb]
          by_cases hend : a = 0 ∨ next m a = 0
          · rw [if_pos hend] at hresult ⊢
            obtain rfl := Option.some.inj hresult
            exact ⟨m', rfl, h⟩
          · rw [if_neg hend, hfree₁, hfree₂, if_neg hfree, hnext] at hresult ⊢
            exact ih hrep.2 (by omega) h (hin.of_subset (List.subset_cons_self _ _)) hresult

/-- `myFree` of a live pointer leaves the same bytes in the payload of both memories. -/
theorem Models.myFree_eqOn (region : Region) {s : State} (h : Models region.heap s blocks)
    {p : Nat × Nat} (hp : p ∈ s.live) (hsame : Set.EqOn s.memory m' t)
    (hin : HeadersIn t region.heap blocks)
    (hresult : Heap.myFree s.memory region.heap p.1 = some n) :
    ∃ n', Heap.myFree m' region.heap p.1 = some n' ∧
      Set.EqOn n n' (t ∪ Set.Ico p.1 (p.1 + p.2)) := by
  obtain ⟨taken, hle, hused⟩ := h.live p hp
  obtain ⟨pre, suf, rfl, haddress⟩ := exists_of_mem_used hused
  simp only at haddress
  have hbounds := h.live_bounds hp
  have hpos := region.pos
  have hfits := region.fits
  have hcurrent : wsub p.1 sizeofBlock = region.heap + extent sizeofBlock pre := by
    rw [wsub_of_le (by omega) (by omega), haddress, Nat.add_sub_cancel]
  have hcurrentIn : HeaderIn t (region.heap + extent sizeofBlock pre) :=
    hin _ (by simp [headers_append, headers])
  have hextent : extent sizeofBlock (pre ++ ⟨taken, true⟩ :: suf) = heapSize := by
    rw [← h.fills, extent_append, extent_append]
    rfl
  have hheaders : headers sizeofBlock region.heap (pre ++ ⟨taken, true⟩ :: suf) =
      headers sizeofBlock region.heap (pre ++ ⟨taken, false⟩ :: suf) := by
    rw [headers_append, headers_append]
    rfl
  have hfirst : first region.heap (pre ++ ⟨taken, true⟩ :: suf) = region.heap :=
    if_neg (by simp)
  obtain ⟨hsize, hreleased⟩ := release_spec h.represents rfl
  rw [← haddress] at hreleased
  -- The flag is set, and as many bytes are overwritten, in both memories.
  have hflag := setFree_eqOn hsame (region.heap + extent sizeofBlock pre) 1
  have hsize' := (size_eqOn hflag hcurrentIn).trans hsize
  have hfill := ByteMemory.eqOn_fill hflag p.1 taken 1
  have hfree (m : ByteMemory)
      (hm : size (setFree m (region.heap + extent sizeofBlock pre) 1)
        (region.heap + extent sizeofBlock pre) = taken) :
      Heap.myFree m region.heap p.1 = mergeFrom heapSize
        ((setFree m (region.heap + extent sizeofBlock pre) 1).fill p.1 taken 1)
          (first region.heap (pre ++ ⟨taken, true⟩ :: suf)) := by
    rw [Heap.myFree, if_neg (by omega), hfirst]
    simp only [hcurrent, hm]
    rfl
  rw [hfree _ hsize] at hresult
  rw [hfree _ hsize']
  obtain ⟨n', hresult', hn⟩ := mergeFrom_eqOn hreleased (by rw [hextent]; exact hfits) hfill
    (fun b hb x hx hlt => Or.inl (hin b (hheaders ▸ hb) x hx hlt)) hresult
  exact ⟨n', hresult', hn.mono (Set.union_subset_union_right t
    (Set.Ico_subset_Ico le_rfl (by omega)))⟩

/-! ### Two programs -/

/-- A call without the value that it writes. -/
def Call.blank : Call → Call
  | .write address _ => .write address 0
  | call => call

/-- The two programs have the same pointers, and the same bytes wherever the first of them has
not written. -/
structure Alike (store : Objects Byte) (s r : State) : Prop where
  live : r.live = s.live
  bytes : Set.EqOn s.memory r.memory { x | store.read x = none }

section Programs

variable {s s' r : State} {store store' : Objects Byte} {call call' : Call}

/-- No object has its values in a header. -/
theorem Models.headersIn (h : Models heap s blocks) (hholds : Holds s store) :
    HeadersIn { x | store.read x = none } heap blocks := by
  intro b hb x hlow hhigh
  show store.read x = none
  cases hread : store.read x with
  | none => rfl
  | some v =>
      obtain ⟨o, ho, hread⟩ := Objects.read_eq_some_iff.mp hread
      obtain ⟨q, hq, -, hlow', hhigh'⟩ :=
        h.exists_payload (hholds.mem_live ho) (Object.covers_of_read hread)
      have := headers_off_used hb hq
      omega

/-- One call of each program, the same up to the value that is written. -/
theorem Alike.step (region : Region) (h : Models region.heap s blocks) (hholds : Holds s store)
    (halike : Alike store s r) (hcall : call'.blank = call.blank) (hallowed : call.Allowed s.live)
    (hstep : step region.heap s call = some s') :
    ∃ r' store', call'.Allowed r.live ∧ Heap.step region.heap r call' = some r' ∧
      call.Does store store' ∧ Holds s' store' ∧ Alike store' s' r' := by
  have hin := h.headersIn hholds
  cases call with
  | myMalloc request =>
      obtain rfl : call' = .myMalloc request := by
        cases call' <;> simp_all [Call.blank]
      obtain ⟨store', hdoes, hholds', hread⟩ := hholds.myMalloc region h hstep
      obtain ⟨⟨m, p⟩, hresult, rfl⟩ := Option.map_eq_some_iff.mp hstep
      rw [Heap.myMalloc, ← h.first_eq] at hresult
      obtain ⟨m', hresult', hm⟩ := mallocFrom_eqOn h.represents halike.bytes hin hresult
      rw [h.first_eq] at hresult'
      refine ⟨⟨m', if p = 0 then s.live else (p, request.toNat) :: s.live⟩, store', trivial, ?_,
        hdoes, hholds', rfl, fun x hx => hm ((hread x).symm.trans hx)⟩
      rw [Heap.step, Heap.myMalloc, hresult', halike.live]
      rfl
  | myFree memory =>
      obtain rfl : call' = .myFree memory := by
        cases call' <;> simp_all [Call.blank]
      obtain ⟨store', hdoes, hholds'⟩ := hholds.step region h hallowed hstep
      obtain ⟨m, hresult, rfl⟩ := Option.map_eq_some_iff.mp hstep
      cases hdoes with
      | null =>
          obtain rfl := Option.some.inj hresult
          exact ⟨⟨r.memory, r.live.filter (·.1 ≠ 0)⟩, store, Or.inl rfl, rfl, .null, hholds',
            by rw [halike.live], halike.bytes⟩
      | @frees o ho =>
          obtain ⟨m', hresult', hm⟩ :=
            h.myFree_eqOn region (hholds.mem_live ho) halike.bytes hin hresult
          refine ⟨⟨m', r.live.filter (·.1 ≠ o.address)⟩, _, halike.live ▸ hallowed, ?_,
            .frees ho, hholds', by rw [halike.live], fun x hx => hm ?_⟩
          · rw [Heap.step, hresult']
            rfl
          -- What nothing is read from now was written by nobody, or belonged to the object.
          · by_contra hoff
            obtain ⟨hread, hout⟩ := not_or.mp hoff
            obtain ⟨v, hv⟩ := Option.ne_none_iff_exists'.mp hread
            have hkept : ¬∃ q ∈ store.list, q.address = o.address ∧ q.Covers x := by
              rintro ⟨q, hq, haddress, hcovers⟩
              obtain rfl := Objects.eq_of_address hq ho haddress
              exact hout hcovers
            have hnone : (store.free o.address).read x = none := hx
            rw [Objects.read_free_eq_some_iff.mpr ⟨hv, hkept⟩] at hnone
            cases hnone
  | write address value =>
      obtain ⟨value', rfl⟩ : ∃ value', call' = .write address value' := by
        cases call' <;> simp_all [Call.blank]
      obtain ⟨store', hdoes, hholds'⟩ := hholds.step region h hallowed hstep
      obtain rfl := Option.some.inj hstep
      cases hdoes with
      | @writes o _ ho hcovers =>
          refine ⟨⟨Function.update r.memory address value', r.live⟩, _, halike.live ▸ hallowed, rfl,
            .writes ho hcovers value, hholds', halike.live, fun x hx => ?_⟩
          have hnone : (store.write address value).read x = none := hx
          have hne : x ≠ address := by
            rintro rfl
            rw [Objects.read_write_self ho hcovers] at hnone
            cases hnone
          rw [Objects.read_write_of_ne hne] at hnone
          show Function.update s.memory address value x = Function.update r.memory address value' x
          rw [Function.update_of_ne hne, Function.update_of_ne hne]
          exact halike.bytes hnone

theorem Alike.run (region : Region) {m : ByteMemory} {calls calls' : List Call}
    (hs : Reachable m region.heap s) (hholds : Holds s store) (halike : Alike store s r)
    (hcalls : calls'.map Call.blank = calls.map Call.blank)
    (hrun : Heap.run region.heap s calls = some s') :
    ∃ r' store', Heap.run region.heap r calls' = some r' ∧ CallsDo store calls store' ∧
      Holds s' store' ∧ Alike store' s' r' := by
  induction calls generalizing s r store calls' with
  | nil =>
      obtain rfl := List.map_eq_nil_iff.mp hcalls
      obtain rfl := Option.some.inj hrun
      exact ⟨r, store, rfl, rfl, hholds, halike⟩
  | cons call calls ih =>
      obtain ⟨call', rest, rfl, hcall, hrest⟩ := List.map_eq_cons_iff.mp hcalls
      obtain ⟨hallowed, next, hstep, hrun⟩ := run_cons_eq_some_iff.mp hrun
      obtain ⟨blocks, h, -⟩ := exists_models region hs
      obtain ⟨r₁, store₁, hallowed', hstep', hdoes, hholds₁, halike₁⟩ :=
        halike.step region h hholds hcall hallowed hstep
      obtain ⟨r', store', hrun', hdo, hholds', halike'⟩ :=
        ih (.step hs hallowed hstep) hholds₁ halike₁ hrest hrun
      exact ⟨r', store', run_cons_eq_some_iff.mpr ⟨hallowed', r₁, hstep', hrun'⟩,
        ⟨store₁, hdoes, hdo⟩, hholds', halike'⟩

end Programs

/-- Two programs that make the same calls, but write other values, run alike: they have the
same pointers, and the same bytes wherever no object of the first holds a value.  So the values
do not direct the allocator, and nothing is left of them behind a `myFree` or in the memory that
`myMalloc` returns. -/
theorem heap_hides (region : Region) {m : ByteMemory} {calls calls' : List Call} {s : State}
    (hcalls : calls'.map Call.blank = calls.map Call.blank)
    (hrun : run region.heap (start m region.heap) calls = some s) :
    ∃ s' store, run region.heap (start m region.heap) calls' = some s' ∧
      CallsDo .empty calls store ∧ Holds s store ∧ s'.live = s.live ∧
      ∀ x, store.read x = none → s'.memory x = s.memory x := by
  obtain ⟨s', store, hrun', hdo, hholds, halike⟩ :=
    Alike.run region .start (.start m region.heap) ⟨rfl, fun _ _ => rfl⟩ hcalls hrun
  exact ⟨s', store, hrun', hdo, hholds, halike.live, fun x hx => (halike.bytes hx).symm⟩

/-- A byte that is written, freed and allocated again. -/
theorem heap_hides_freed :
    let region : Region := ⟨4096, by decide, by decide⟩
    let calls : List Call := [.myMalloc 1000, .write 4120 72, .myFree 4120, .myMalloc 90]
    let calls' : List Call := [.myMalloc 1000, .write 4120 73, .myFree 4120, .myMalloc 90]
    ∃ s ∈ run region.heap (start (fun _ => 0) region.heap) calls,
      s.live = [(4120, 90)] ∧
        ∃ s' store, run region.heap (start (fun _ => 0) region.heap) calls' = some s' ∧
          CallsDo .empty calls store ∧ Holds s store ∧ s'.live = s.live ∧
          ∀ x, store.read x = none → s'.memory x = s.memory x := by
  intro region calls calls'
  obtain ⟨s, hrun, hlive⟩ := (Option.any_eq_true _ _).mp
    (by decide +kernel : (run region.heap (start (fun _ => 0) region.heap) calls).any
      (fun s => decide (s.live = [(4120, 90)])) = true)
  exact ⟨s, hrun, of_decide_eq_true hlive, heap_hides region rfl hrun⟩

end Heap
end OperatingSystems
