import OperatingSystems.Heap.MyHeap
import OperatingSystems.Library.Chain
import OperatingSystems.Library.SegmentRuns

/-!
# The block chain tiles the heap

The bytes of a heap represent a list of segments: `Represents` says that the headers
stand where the list puts them and are linked in its order.

* `mallocFrom_spec` — `myMalloc` is `firstFit` and `split` on the list.
* `mergeFrom_spec` — `mergeBlocks` is `coalesce` on the list.
* `Models.myFree` — `myFree` frees the segment in front of the pointer and merges.
* `heap_tiled` — in every state of every program, the chain tiles the heap and the
  live allocations lie in it without overlap.
-/

namespace OperatingSystems
namespace Heap

open Segments

/-! ### Reading and writing a header -/

/-- The three fields of a header. -/
structure Header where
  size : Nat
  next : Nat
  free : Bool

/-- The header at an address. -/
def header (m : ByteMemory) (a : Nat) : Header :=
  ⟨size m a, next m a, free m a⟩

variable {m m' : ByteMemory} {a b v : Nat}

section Fields

variable {m : ByteMemory} {a taken link : Nat} {flag : Bool}

theorem size_eq (h : header m a = ⟨taken, link, flag⟩) : size m a = taken :=
  (Header.mk.inj h).1

theorem next_eq (h : header m a = ⟨taken, link, flag⟩) : next m a = link :=
  (Header.mk.inj h).2.1

theorem free_eq (h : header m a = ⟨taken, link, flag⟩) : free m a = flag :=
  (Header.mk.inj h).2.2

end Fields

theorem header_congr (h : ∀ x, a ≤ x → x < a + sizeofBlock → m' x = m x) :
    header m' a = header m a := by
  unfold sizeofBlock at h
  unfold header size next free
  rw [ByteMemory.load_congr fun x hx hlt => h x (by omega) (by omega),
    ByteMemory.load_congr fun x hx hlt => h x (by omega) (by omega),
    ByteMemory.load_congr fun x hx hlt => h x (by omega) (by omega)]

theorem header_setSize (hv : v < 2 ^ 64) :
    header (setSize m a v) a = { header m a with size := v } := by
  unfold header size next free setSize
  rw [ByteMemory.load_store hv, ByteMemory.load_store_of_disjoint (by omega),
    ByteMemory.load_store_of_disjoint (by omega)]

theorem header_setNext (hv : v < 2 ^ 64) :
    header (setNext m a v) a = { header m a with next := v } := by
  unfold header size next free setNext
  rw [ByteMemory.load_store hv, ByteMemory.load_store_of_disjoint (by omega),
    ByteMemory.load_store_of_disjoint (by omega)]

theorem header_setFree (hv : v < 256) :
    header (setFree m a v) a = { header m a with free := v != 0 } := by
  unfold header size next free setFree
  rw [ByteMemory.load_store hv, ByteMemory.load_store_of_disjoint (by omega),
    ByteMemory.load_store_of_disjoint (by omega)]

/-- Writes to one header leave everything outside it alone. -/
theorem setSize_frame {x : Nat} (h : x < a ∨ a + sizeofBlock ≤ x) : setSize m a v x = m x := by
  unfold sizeofBlock at h
  exact ByteMemory.store_frame (by omega)

theorem setNext_frame {x : Nat} (h : x < a ∨ a + sizeofBlock ≤ x) : setNext m a v x = m x := by
  unfold sizeofBlock at h
  exact ByteMemory.store_frame (by omega)

theorem setFree_frame {x : Nat} (h : x < a ∨ a + sizeofBlock ≤ x) : setFree m a v x = m x := by
  unfold sizeofBlock at h
  exact ByteMemory.store_frame (by omega)

theorem size_lt : size m a < 2 ^ 64 :=
  ByteMemory.load_lt

theorem next_lt : next m a < 2 ^ 64 :=
  ByteMemory.load_lt

/-! ### The chain in memory -/

/-- The pointer to the first of these blocks. -/
def first (a : Nat) (blocks : List Segment) : Nat :=
  if blocks = [] then 0 else a

theorem first_cons (a : Nat) (s : Segment) (rest : List Segment) : first a (s :: rest) = a :=
  if_neg (List.cons_ne_nil s rest)

/-- The headers of these blocks stand from `a` on, each linked to the next; the last
one holds the pointer `stop`. -/
def Represents (m : ByteMemory) (stop : Nat) : Nat → List Segment → Prop
  | _, [] => True
  | a, s :: rest =>
      header m a =
          ⟨s.size, if rest = [] then stop else a + sizeofBlock + s.size, s.free⟩ ∧
        Represents m stop (a + sizeofBlock + s.size) rest

/-- Only the headers matter. -/
theorem Represents.frame {stop : Nat} {blocks : List Segment} (h : Represents m stop a blocks)
    (hsame : ∀ b ∈ headers sizeofBlock a blocks, ∀ x, b ≤ x → x < b + sizeofBlock → m' x = m x) :
    Represents m' stop a blocks := by
  induction blocks generalizing a with
  | nil => trivial
  | cons s rest ih =>
      refine ⟨?_, ih h.2 fun b hb => hsame b (List.mem_cons_of_mem _ hb)⟩
      rw [header_congr (hsame a List.mem_cons_self)]
      exact h.1

/-- A chain is the chain of its front, up to the first block of its rest, and the
chain of its rest. -/
theorem represents_append {stop : Nat} (pre : List Segment) (s : Segment) (suf : List Segment) :
    Represents m stop a (pre ++ s :: suf) ↔
      Represents m (a + extent sizeofBlock pre) a pre ∧
        Represents m stop (a + extent sizeofBlock pre) (s :: suf) := by
  induction pre generalizing a with
  | nil => simp [Represents, extent]
  | cons t pre ih =>
      have hend : a + sizeofBlock + t.size + extent sizeofBlock pre =
          a + extent sizeofBlock (t :: pre) := by
        simp only [extent]
        omega
      have hlink : (if pre ++ s :: suf = [] then stop else a + sizeofBlock + t.size) =
          if pre = [] then a + extent sizeofBlock (t :: pre) else a + sizeofBlock + t.size := by
        rw [if_neg (by simp)]
        split
        · next hpre => simp [hpre, extent, Nat.add_assoc]
        · rfl
      rw [List.cons_append, Represents, Represents, hlink, ih, hend, and_assoc]

/-! ### `myMalloc` -/

/-- All three fields of a header are written. -/
theorem header_write {taken link flag : Nat} (htaken : taken < 2 ^ 64) (hlink : link < 2 ^ 64)
    (hflag : flag < 256) :
    header (setNext (setFree (setSize m a taken) a flag) a link) a = ⟨taken, link, flag != 0⟩ := by
  rw [header_setNext hlink, header_setFree hflag, header_setSize htaken]

theorem write_frame {taken link flag x : Nat} (h : x < a ∨ a + sizeofBlock ≤ x) :
    setNext (setFree (setSize m a taken) a flag) a link x = m x := by
  rw [setNext_frame h, setFree_frame h, setSize_frame h]

/-- A split leaves two headers, and touches nothing else. -/
theorem splitBlock_spec {request taken link : Nat} (hheader : header m a = ⟨taken, link, true⟩)
    (hlarge : request + sizeofBlock < taken) (hfits : a + sizeofBlock + taken ≤ 2 ^ 64) :
    header (splitBlock m a request) a = ⟨request, a + sizeofBlock + request, false⟩ ∧
      header (splitBlock m a request) (a + sizeofBlock + request) =
        ⟨taken - request - sizeofBlock, link, true⟩ ∧
      ∀ x, (x < a ∨ a + sizeofBlock ≤ x) →
        (x < a + sizeofBlock + request ∨ a + sizeofBlock + request + sizeofBlock ≤ x) →
        splitBlock m a request x = m x := by
  have hsize : size m a = taken := size_eq hheader
  have hnext : next m a = link := next_eq hheader
  have hlink : link < 2 ^ 64 := hnext ▸ next_lt
  have htaken : taken < 2 ^ 64 := hsize ▸ size_lt
  have hfresh : wadd (wadd a sizeofBlock) request = a + sizeofBlock + request := by
    rw [wadd_of_lt (a := a) (by omega), wadd_of_lt (by omega)]
  have hrest : wsub (wsub taken request) sizeofBlock = taken - request - sizeofBlock := by
    rw [wsub_of_le (a := taken) (by omega) htaken, wsub_of_le (by omega) (by omega)]
  generalize hpointer : a + sizeofBlock + request = fresh at *
  generalize hremainder : taken - request - sizeofBlock = remainder at *
  -- The header of the remainder is written first; the old header still stands then.
  have hlast : next (setFree (setSize m fresh remainder) fresh 1) a = link := by
    have hsame : header (setFree (setSize m fresh remainder) fresh 1) a = header m a :=
      header_congr fun x _ hlt => by
        rw [setFree_frame (Or.inl (by omega)), setSize_frame (Or.inl (by omega))]
    exact (next_eq hsame).trans hnext
  have hsplit : splitBlock m a request =
      setNext (setFree (setSize (setNext (setFree (setSize m fresh remainder) fresh 1) fresh link)
        a request) a 0) a fresh := by
    unfold splitBlock
    simp only [hfresh, hsize, hrest, hlast]
  rw [hsplit]
  refine ⟨header_write (by omega) (by omega) (by decide), ?_, fun x hx hx' => ?_⟩
  · rw [header_congr fun x hx _ => write_frame (Or.inr (by omega)),
      header_write (by omega) hlink (by decide)]
    rfl
  · rw [write_frame hx, write_frame hx']

/-- What an operation may do to memory: it writes only to these headers. -/
def OnlyHeaders (m m' : ByteMemory) (blocks : List Nat) : Prop :=
  ∀ x, (∀ b ∈ blocks, x < b ∨ b + sizeofBlock ≤ x) → m' x = m x

theorem OnlyHeaders.mono {l l' : List Nat} (h : OnlyHeaders m m' l) (hsub : l ⊆ l') :
    OnlyHeaders m m' l' :=
  fun x hx => h x fun b hb => hx b (hsub hb)

/-- `myMalloc` at the block it takes. -/
theorem takeBlock_spec {s : Segment} {rest : List Segment} {request : Nat} (hpos : 0 < a)
    (hrep : Represents m 0 a (s :: rest)) (hfree : s.free = true) (hle : request ≤ s.size)
    (hfits : a + sizeofBlock + s.size ≤ 2 ^ 64) (htaken : m' =
      if wadd request sizeofBlock < size m a then splitBlock m a request else setFree m a 0) :
    Represents m' 0 a (split sizeofBlock request s ++ rest) ∧
      OnlyHeaders m m' (headers sizeofBlock a (split sizeofBlock request s)) := by
  obtain ⟨hheader, hrest⟩ := hrep
  rw [hfree] at hheader
  have hsize : size m a = s.size := size_eq hheader
  have hrequest : wadd request sizeofBlock = request + sizeofBlock :=
    wadd_of_lt (by omega)
  rw [hrequest, hsize] at htaken
  unfold split
  by_cases hlarge : request + sizeofBlock < s.size
  -- The block is split: two headers are written, the blocks behind lie past both.
  · rw [if_pos hlarge] at htaken ⊢
    obtain ⟨hfront, hback, hframe⟩ := splitBlock_spec hheader hlarge hfits
    rw [← htaken] at hfront hback hframe
    have hend : a + sizeofBlock + request + sizeofBlock + (s.size - request - sizeofBlock) =
        a + sizeofBlock + s.size := by omega
    refine ⟨⟨hfront, ?_, ?_⟩, fun x hx => ?_⟩
    · rw [hback, hend]
      rfl
    · rw [hend]
      refine hrest.frame fun b hb x hx _ => ?_
      have := (headers_bounds hb).1
      exact hframe x (Or.inr (by omega)) (Or.inr (by omega))
    · exact hframe x (hx a (by simp [headers])) (hx _ (by simp [headers]))
  -- The block is taken whole: one flag is written.
  · rw [if_neg hlarge] at htaken ⊢
    subst htaken
    refine ⟨⟨?_, ?_⟩, fun x hx => setFree_frame (hx a (by simp [headers]))⟩
    · rw [header_setFree (by decide), hheader]
      rfl
    · refine hrest.frame fun b hb x hx _ => ?_
      have := (headers_bounds hb).1
      exact setFree_frame (Or.inr (by omega))

/-- The loop of `myMalloc` takes the first block that fits. -/
theorem mallocFrom_spec (request : Nat) {rounds : Nat} {blocks : List Segment} (hpos : 0 < a)
    (hrep : Represents m 0 a blocks) (hfits : a + extent sizeofBlock blocks < 2 ^ 64)
    (hrounds : blocks.length < rounds) :
    match firstFit request blocks with
    | none => mallocFrom request rounds m (first a blocks) = some (m, 0)
    | some (pre, s, suf) => ∃ m',
        mallocFrom request rounds m (first a blocks) =
          some (m', a + extent sizeofBlock pre + sizeofBlock) ∧
        Represents m' 0 a (pre ++ split sizeofBlock request s ++ suf) ∧
        OnlyHeaders m m' (headers sizeofBlock a (pre ++ split sizeofBlock request s ++ suf)) := by
  induction blocks generalizing a rounds with
  | nil =>
      obtain ⟨rounds, rfl⟩ := Nat.exists_eq_succ_of_ne_zero (by omega : rounds ≠ 0)
      rfl
  | cons s rest ih =>
      obtain ⟨rounds, rfl⟩ := Nat.exists_eq_succ_of_ne_zero (by omega : rounds ≠ 0)
      simp only [extent] at hfits
      have hsize : size m a = s.size := size_eq hrep.1
      have hfree : free m a = s.free := free_eq hrep.1
      have hnext : next m a = first (a + sizeofBlock + s.size) rest := next_eq hrep.1
      -- One turn of the loop, read off the header of the first block.
      have hround : mallocFrom request (rounds + 1) m (first a (s :: rest)) =
          if s.free = true ∧ request ≤ s.size then
            some (if wadd request sizeofBlock < size m a then splitBlock m a request
              else setFree m a 0, a + sizeofBlock)
          else mallocFrom request rounds m (first (a + sizeofBlock + s.size) rest) := by
        have hpayload : wadd a sizeofBlock = a + sizeofBlock := wadd_of_lt (by omega)
        rw [first_cons, mallocFrom, if_neg (by omega), hfree, hnext, hpayload, hsize]
        split
        · split <;> rfl
        · rfl
      unfold firstFit
      by_cases hfit : s.free = true ∧ request ≤ s.size
      · rw [if_pos hfit]
        simp only [extent, Nat.add_zero, List.nil_append]
        rw [hround, if_pos hfit]
        obtain ⟨hblock, hframe⟩ := takeBlock_spec hpos hrep hfit.1 hfit.2 (by omega) rfl
        refine ⟨_, rfl, hblock, fun x hx => hframe x fun b hb => hx b ?_⟩
        rw [headers_append]
        exact List.mem_append_left _ hb
      · rw [if_neg hfit, hround, if_neg hfit]
        have hrounds' : rest.length < rounds := by simpa using hrounds
        have hrest := ih (by omega) hrep.2 (by omega) hrounds'
        cases hfound : firstFit request rest with
        | none => simpa [hfound] using hrest
        | some found =>
            obtain ⟨pre, t, suf⟩ := found
            rw [hfound] at hrest
            obtain ⟨m', hresult, hblocks, hframe⟩ := hrest
            have haddress : a + sizeofBlock + s.size + extent sizeofBlock pre + sizeofBlock =
                a + extent sizeofBlock (s :: pre) + sizeofBlock := by
              simp only [extent]
              omega
            refine ⟨m', haddress ▸ hresult, ⟨?_, hblocks⟩, fun x hx => hframe x fun b hb => ?_⟩
            · -- The block that was passed over is still linked to its successor.
              rw [header_congr fun x _ hlt => hframe x fun b hb => ?_, hrep.1]
              · have hne : rest ≠ [] := by
                  rintro rfl
                  simp [firstFit] at hfound
                have hne' : pre ++ split sizeofBlock request t ++ suf ≠ [] := by
                  unfold split
                  split <;> simp
                have hlink : (if pre ++ split sizeofBlock request t ++ suf = [] then 0
                    else a + sizeofBlock + s.size) = a + sizeofBlock + s.size := if_neg hne'
                rw [if_neg hne]
                exact congrArg (fun link => Header.mk s.size link s.free) hlink.symm
              · have := (headers_bounds hb).1
                omega
            · exact hx b (List.mem_cons_of_mem _ hb)

/-! ### `mergeBlocks` -/

/-- One merge. -/
theorem absorbNext_spec {s t : Segment} {rest : List Segment}
    (hrep : Represents m 0 a (s :: t :: rest)) (hfree : s.free = true)
    (hfits : a + extent sizeofBlock (s :: t :: rest) < 2 ^ 64) :
    Represents (absorbNext m a) 0 a (⟨s.size + (t.size + sizeofBlock), true⟩ :: rest) ∧
      OnlyHeaders m (absorbNext m a) [a] := by
  obtain ⟨hheader, hheader', hrest⟩ := hrep
  simp only [extent] at hfits
  rw [if_neg (by simp), hfree] at hheader
  have hsize : size m a = s.size := size_eq hheader
  have hnext : next m a = a + sizeofBlock + s.size := next_eq hheader
  have hsize' : size m (a + sizeofBlock + s.size) = t.size := size_eq hheader'
  have hsum : wadd s.size (wadd t.size sizeofBlock) = s.size + (t.size + sizeofBlock) := by
    rw [wadd_of_lt (a := t.size) (by omega), wadd_of_lt (by omega)]
  -- The new size does not disturb the two links that are read after it.
  have hlink : header (setSize m a (s.size + (t.size + sizeofBlock))) a =
      ⟨s.size + (t.size + sizeofBlock), a + sizeofBlock + s.size, true⟩ := by
    rw [header_setSize (by omega), hheader]
  have hlink' : header (setSize m a (s.size + (t.size + sizeofBlock))) (a + sizeofBlock + s.size) =
      header m (a + sizeofBlock + s.size) :=
    header_congr fun x hx _ => setSize_frame (Or.inr (by omega))
  have habsorb : absorbNext m a =
      setNext (setSize m a (s.size + (t.size + sizeofBlock))) a
        (next m (a + sizeofBlock + s.size)) := by
    have hfirst := next_eq hlink
    have hsecond := next_eq hlink'
    unfold absorbNext
    simp only [hnext, hsize, hsize', hsum, hfirst, hsecond]
  have hframe : OnlyHeaders m (absorbNext m a) [a] := fun x hx => by
    rw [habsorb, setNext_frame (hx a (by simp)), setSize_frame (hx a (by simp))]
  have hend : a + sizeofBlock + (s.size + (t.size + sizeofBlock)) =
      a + sizeofBlock + s.size + sizeofBlock + t.size := by omega
  refine ⟨⟨?_, ?_⟩, hframe⟩
  · rw [habsorb, header_setNext next_lt, hlink, hend]
    exact congrArg (fun link => Header.mk _ link true) (next_eq hheader')
  · rw [hend]
    refine hrest.frame fun b hb x hx _ => hframe x fun c hc => ?_
    obtain rfl := List.mem_singleton.mp hc
    have := (headers_bounds hb).1
    omega

/-- The loop of `mergeBlocks` merges every run of free blocks, and writes only to the headers of
free blocks. -/
theorem mergeFrom_spec {rounds : Nat} {blocks : List Segment} (hpos : 0 < a)
    (hrep : Represents m 0 a blocks) (hfits : a + extent sizeofBlock blocks < 2 ^ 64)
    (hrounds : blocks.length < rounds) :
    ∃ m', mergeFrom rounds m (first a blocks) = some m' ∧
      Represents m' 0 a (coalesce sizeofBlock blocks) ∧
      OnlyHeaders m m' (freeHeaders sizeofBlock a blocks) := by
  induction blocks using coalesce.induct sizeofBlock generalizing m a rounds with
  | case1 =>
      obtain ⟨rounds, rfl⟩ := Nat.exists_eq_succ_of_ne_zero (by omega : rounds ≠ 0)
      refine ⟨m, rfl, ?_, fun _ _ => rfl⟩
      rw [coalesce]
      exact hrep
  | case2 s =>
      obtain ⟨rounds, rfl⟩ := Nat.exists_eq_succ_of_ne_zero (by omega : rounds ≠ 0)
      have hnext : next m a = 0 := next_eq hrep.1
      refine ⟨m, ?_, ?_, fun _ _ => rfl⟩
      · rw [first_cons, mergeFrom, if_pos (Or.inr hnext)]
      · rw [coalesce]
        exact hrep
  | case3 s t rest hfree ih =>
      obtain ⟨rounds, rfl⟩ := Nat.exists_eq_succ_of_ne_zero (by omega : rounds ≠ 0)
      have hnext : next m a = a + sizeofBlock + s.size := next_eq hrep.1
      have hfree₁ : free m a = true := (free_eq hrep.1).trans hfree.1
      have hfree₂ : free m (a + sizeofBlock + s.size) = true :=
        (free_eq hrep.2.1).trans hfree.2
      have hrounds' : (⟨s.size + (t.size + sizeofBlock), true⟩ :: rest).length < rounds := by
        simpa using hrounds
      -- The next block is absorbed, and the loop looks at the same block again.
      obtain ⟨hmerged, hframe⟩ := absorbNext_spec hrep hfree.1 hfits
      have hextent : extent sizeofBlock (⟨s.size + (t.size + sizeofBlock), true⟩ :: rest) =
          extent sizeofBlock (s :: t :: rest) := by
        simp only [extent]
        omega
      obtain ⟨m', hresult, hblocks, hframe'⟩ :=
        ih hpos hmerged (by omega) hrounds'
      refine ⟨m', ?_, ?_, fun x hx => ?_⟩
      · rw [first_cons, mergeFrom, hnext, if_neg (by omega), if_pos ⟨hfree₁, hfree₂⟩]
        exact hresult
      · rw [coalesce, if_pos hfree]
        exact hblocks
      · have hend : a + sizeofBlock + (s.size + (t.size + sizeofBlock)) =
            a + sizeofBlock + s.size + sizeofBlock + t.size := by omega
        rw [hframe' x fun b hb => hx b ?_, hframe x fun b hb => hx b ?_]
        · simp only [freeHeaders, hfree.1, if_true]
          rw [List.mem_singleton.mp hb]
          exact List.mem_cons_self
        · simp only [freeHeaders, hfree.1, hfree.2, if_true, hend, List.mem_cons] at hb ⊢
          exact hb.imp_right Or.inr
  | case4 s t rest hfree ih =>
      obtain ⟨rounds, rfl⟩ := Nat.exists_eq_succ_of_ne_zero (by omega : rounds ≠ 0)
      have hnext : next m a = a + sizeofBlock + s.size := next_eq hrep.1
      have hfree₁ : free m a = s.free := free_eq hrep.1
      have hfree₂ : free m (a + sizeofBlock + s.size) = t.free := free_eq hrep.2.1
      have hrounds' : (t :: rest).length < rounds := by simpa using hrounds
      have hextent : extent sizeofBlock (s :: t :: rest) =
          sizeofBlock + s.size + extent sizeofBlock (t :: rest) := rfl
      -- The loop goes on to the next block, and this header stays as it is.
      obtain ⟨m', hresult, hblocks, hframe⟩ :=
        ih (by omega) hrep.2 (by omega) hrounds'
      refine ⟨m', ?_, ?_, hframe.mono fun b hb => ?_⟩
      · rw [first_cons, mergeFrom, hnext, if_neg (by omega), hfree₁, hfree₂,
          if_neg hfree]
        exact hresult
      · rw [coalesce, if_neg hfree]
        refine ⟨?_, hblocks⟩
        rw [if_neg (coalesce_ne_nil t rest),
          header_congr fun x _ hlt => hframe x fun b hb => ?_]
        · exact hrep.1
        · have := (headers_bounds ((freeHeaders_sublist _ _).subset hb)).1
          omega
      · rw [freeHeaders]
        split
        · exact List.mem_cons_of_mem a hb
        · exact hb

/-! ### `myFree` -/

/-- `myFree` marks a block and overwrites its payload. -/
theorem release_spec {heap current taken : Nat} {pre suf : List Segment}
    (hrep : Represents m 0 heap (pre ++ ⟨taken, false⟩ :: suf))
    (hcurrent : heap + extent sizeofBlock pre = current) :
    size (setFree m current 1) current = taken ∧
      Represents ((setFree m current 1).fill (current + sizeofBlock) taken 1) 0 heap
        (pre ++ ⟨taken, true⟩ :: suf) := by
  obtain ⟨hpre, hheader, hsuf⟩ := (represents_append pre _ suf).mp hrep
  simp only [hcurrent] at hpre hheader hsuf
  have hfreed : header (setFree m current 1) current =
      ⟨taken, if suf = [] then 0 else current + sizeofBlock + taken, true⟩ := by
    rw [header_setFree (by decide), hheader]
    rfl
  have hframe {x : Nat} (hx : x < current ∨ current + sizeofBlock + taken ≤ x) :
      (setFree m current 1).fill (current + sizeofBlock) taken 1 x = m x := by
    rw [ByteMemory.fill_frame (by omega), setFree_frame (by omega)]
  refine ⟨size_eq hfreed, (represents_append pre _ suf).mpr ?_⟩
  rw [hcurrent]
  refine ⟨?_, ?_, ?_⟩
  · refine hpre.frame fun b hb x _ hlt => hframe (Or.inl ?_)
    have := (headers_bounds hb).2
    omega
  · rw [header_congr fun x _ hlt => ByteMemory.fill_frame (by omega)]
    exact hfreed
  · refine hsuf.frame fun b hb x hx _ => hframe (Or.inr ?_)
    have := (headers_bounds hb).1
    omega

/-! ### The calls -/

/-- The state of the program, as a list of segments: the headers represent the list,
and the live pointers are the payloads in use. -/
structure Models (heap : Nat) (s : State) (blocks : List Segment) : Prop where
  represents : Represents s.memory 0 heap blocks
  fills : extent sizeofBlock blocks = heapSize
  live : ∀ p ∈ s.live, ∃ taken, p.2 ≤ taken ∧ (p.1, taken) ∈ used sizeofBlock heap blocks
  complete : ∀ p ∈ used sizeofBlock heap blocks, p.1 ∈ s.live.map Prod.fst
  distinct : (s.live.map Prod.fst).Nodup

/-- A payload stays in use, and none of its bytes is written. -/
structure Spares (heap : Nat) (m m' : ByteMemory) (blocks : List Segment) (p : Nat × Nat) :
    Prop where
  used : p ∈ used sizeofBlock heap blocks
  bytes : ∀ x, p.1 ≤ x → x < p.1 + p.2 → m' x = m x

/-- An operation that writes to headers only spares every payload in use. -/
theorem Spares.of_onlyHeaders {heap : Nat} {blocks : List Segment} {p : Nat × Nat}
    (h : OnlyHeaders m m' (headers sizeofBlock heap blocks))
    (hp : p ∈ Segments.used sizeofBlock heap blocks) : Spares heap m m' blocks p := by
  refine ⟨hp, fun x hx hlt => h x fun b hb => ?_⟩
  have := headers_off_used hb hp
  omega

/-- What a call does to the list of segments. -/
inductive Call.Changes (heap : Nat) (blocks : List Segment) : Call → List Segment → Prop
  | myMalloc (request : BitVec 64) : Changes heap blocks (.myMalloc request)
      (allocate sizeofBlock heap request.toNat blocks).2
  | null : Changes heap blocks (.myFree 0) blocks
  | myFree {memory : Nat} {blocks' : List Segment} (h : Releases sizeofBlock blocks blocks') :
      Changes heap blocks (.myFree memory) blocks'
  | write (address : Nat) (value : Byte) : Changes heap blocks (.write address value) blocks

theorem Call.Changes.reduced {heap : Nat} {blocks blocks' : List Segment} {call : Call}
    (h : call.Changes heap blocks blocks') (hreduced : Reduced blocks) : Reduced blocks' := by
  cases h with
  | myMalloc request => exact hreduced.allocate _ _
  | null => exact hreduced
  | myFree hreleases => exact hreleases.reduced
  | write address value => exact hreduced

namespace Models

variable {heap : Nat} {s : State} {blocks : List Segment}

theorem blocks_ne_nil (h : Models heap s blocks) : blocks ≠ [] := by
  rintro rfl
  exact absurd h.fills (by decide)

theorem length_lt (h : Models heap s blocks) : blocks.length < heapSize := by
  have := length_le_extent sizeofBlock blocks
  rw [h.fills] at this
  unfold sizeofBlock heapSize at *
  omega

/-- The pointer to the first block. -/
theorem first_eq (h : Models heap s blocks) : first heap blocks = heap :=
  if_neg h.blocks_ne_nil

/-- A live pointer stands behind a header. -/
theorem live_bounds (h : Models heap s blocks) {p : Nat × Nat} (hp : p ∈ s.live) :
    heap + sizeofBlock ≤ p.1 ∧ p.1 + p.2 ≤ heap + heapSize := by
  obtain ⟨taken, hle, hused⟩ := h.live p hp
  have := used_bounds hused
  rw [h.fills] at this
  omega

/-- A write that spares the headers keeps the list. -/
theorem frame (h : Models heap s blocks) {m : ByteMemory}
    (hm : ∀ b ∈ headers sizeofBlock heap blocks, ∀ x, b ≤ x → x < b + sizeofBlock →
      m x = s.memory x) : Models heap ⟨m, s.live⟩ blocks :=
  ⟨h.represents.frame hm, h.fills, h.live, h.complete, h.distinct⟩

/-- `initialize` leaves one free block. -/
theorem start (region : Region) (m : ByteMemory) :
    Models region.heap (start m region.heap) [⟨heapSize - sizeofBlock, true⟩] := by
  refine ⟨⟨?_, trivial⟩, by decide, nofun, nofun, List.nodup_nil⟩
  exact header_write (by decide) (by decide) (by decide)

/-- `myMalloc` returns, is `allocate` on the list, and spares every payload in use. -/
theorem myMalloc (region : Region) (h : Models region.heap s blocks) (request : Nat) :
    let allocated := allocate sizeofBlock region.heap request blocks
    ∃ m p, Heap.myMalloc s.memory region.heap request = some (m, p) ∧
      p = allocated.1.getD 0 ∧ (p = 0 → m = s.memory) ∧
      Models region.heap ⟨m, if p = 0 then s.live else (p, request) :: s.live⟩ allocated.2 ∧
      ∀ q ∈ used sizeofBlock region.heap blocks,
        Spares region.heap s.memory m allocated.2 q := by
  intro allocated
  have hspec := mallocFrom_spec request region.pos h.represents
    (by rw [h.fills]; exact region.fits) h.length_lt
  rw [h.first_eq] at hspec
  have hpos := region.pos
  cases hfound : firstFit request blocks with
  | none =>
      rw [hfound] at hspec
      have hallocated : allocated = (none, blocks) := by
        simp only [allocated, allocate, hfound]
      rw [hallocated]
      exact ⟨s.memory, 0, hspec, rfl, fun _ => rfl, h, fun q hq => ⟨hq, fun _ _ _ => rfl⟩⟩
  | some found =>
      obtain ⟨pre, t, suf⟩ := found
      rw [hfound] at hspec
      obtain ⟨m, hresult, hrep, hframe⟩ := hspec
      have hallocated : allocated = (some (region.heap + extent sizeofBlock pre + sizeofBlock),
          pre ++ split sizeofBlock request t ++ suf) := by
        simp only [allocated, allocate, hfound]
      rw [hallocated]
      obtain ⟨rfl, hfree, hle⟩ := firstFit_eq_some hfound
      obtain ⟨taken, htaken, hafter, hbefore⟩ := used_split sizeofBlock region.heap
        pre suf hfree hle
      have hkept : ∀ q ∈ used sizeofBlock region.heap (pre ++ t :: suf),
          q ∈ used sizeofBlock region.heap (pre ++ split sizeofBlock request t ++ suf) := by
        intro q hq
        rw [hbefore] at hq
        rw [hafter]
        simp only [List.mem_append, List.mem_cons] at hq ⊢
        exact hq.imp_right Or.inr
      refine ⟨m, _, hresult, rfl, fun hzero => absurd hzero (by omega), ⟨hrep, ?_, ?_, ?_, ?_⟩,
        fun q hq => .of_onlyHeaders hframe (hkept q hq)⟩
      · rw [extent_append, extent_append, extent_split, ← extent_append, ← extent_append,
          List.append_assoc]
        exact h.fills
      · rw [if_neg (by omega), hafter]
        intro p hp
        rcases List.mem_cons.mp hp with rfl | hp
        · exact ⟨taken, htaken, by simp⟩
        · obtain ⟨taken', hle', hused⟩ := h.live p hp
          exact ⟨taken', hle', hafter ▸ hkept _ hused⟩
      · rw [if_neg (by omega), hafter]
        intro p hp
        rw [List.map_cons, List.mem_cons]
        rcases List.mem_append.mp hp with hp | hp
        · exact Or.inr (h.complete p (hbefore ▸ List.mem_append_left _ hp))
        · rcases List.mem_cons.mp hp with rfl | hp
          · exact Or.inl rfl
          · exact Or.inr (h.complete p (hbefore ▸ List.mem_append_right _ hp))
      · rw [if_neg (by omega)]
        refine List.nodup_cons.mpr ⟨fun hmem => ?_, h.distinct⟩
        -- The new payload is followed by no other at the same address.
        obtain ⟨p, hp, heq⟩ := List.mem_map.mp hmem
        obtain ⟨taken', -, hused⟩ := h.live p hp
        have hpair := used_pairwise sizeofBlock region.heap
          (pre ++ split sizeofBlock request t ++ suf)
        rw [hafter, List.pairwise_append, List.pairwise_cons] at hpair
        rw [hbefore] at hused
        unfold sizeofBlock at hpair heq
        rcases List.mem_append.mp hused with hused | hused
        · have := hpair.2.2 _ hused _ List.mem_cons_self
          omega
        · have := hpair.2.1.1 _ hused
          omega

/-- `myFree` of a live pointer returns, releases the payload, and spares the others. -/
theorem myFree (region : Region) (h : Models region.heap s blocks) {p : Nat × Nat}
    (hp : p ∈ s.live) :
    ∃ m blocks', Heap.myFree s.memory region.heap p.1 = some m ∧
      Models region.heap ⟨m, s.live.filter (·.1 ≠ p.1)⟩ blocks' ∧
      (∀ q ∈ used sizeofBlock region.heap blocks, q.1 ≠ p.1 →
        Spares region.heap s.memory m blocks' q) ∧
      Releases sizeofBlock blocks blocks' := by
  obtain ⟨taken, -, hused⟩ := h.live p hp
  obtain ⟨pre, suf, rfl, haddress⟩ := exists_of_mem_used hused
  have hbounds := h.live_bounds hp
  have hpos := region.pos
  have hfits := region.fits
  obtain ⟨hsize, hreleased⟩ := release_spec h.represents rfl
  have hextent : extent sizeofBlock (pre ++ ⟨taken, true⟩ :: suf) = heapSize := by
    rw [← h.fills, extent_append, extent_append]
    rfl
  -- The header lies right before the payload.
  have hcurrent : wsub p.1 sizeofBlock = region.heap + extent sizeofBlock pre := by
    have hback : p.1 - sizeofBlock = region.heap + extent sizeofBlock pre := by
      simp only at haddress
      omega
    rw [wsub_of_le (by omega) (by omega), hback]
  have hpayload : p.1 = region.heap + extent sizeofBlock pre + sizeofBlock := haddress
  have hlength : (pre ++ ⟨taken, true⟩ :: suf : List Segment).length < heapSize := by
    simpa using h.length_lt
  obtain ⟨m, hmerge, hrep, hfrees⟩ := mergeFrom_spec region.pos hreleased
    (by rw [hextent]; exact region.fits) hlength
  have hframe := hfrees.mono (freeHeaders_sublist _ _).subset
  have hfirst : first region.heap (pre ++ ⟨taken, true⟩ :: suf) = region.heap :=
    if_neg (by simp)
  rw [hfirst] at hmerge
  have hresult : Heap.myFree s.memory region.heap p.1 = some m := by
    rw [Heap.myFree, if_neg (by omega)]
    show mergeBlocks ((setFree s.memory (wsub p.1 sizeofBlock) 1).fill p.1
      (size (setFree s.memory (wsub p.1 sizeofBlock) 1) (wsub p.1 sizeofBlock)) 1) region.heap =
        some m
    rw [hcurrent, hsize, hpayload, mergeBlocks, hmerge]
  -- What is used afterwards was used before, and is not `p`.
  have hreleasedMem : ∀ q, q ∈ used sizeofBlock region.heap (pre ++ ⟨taken, true⟩ :: suf) ↔
      q ∈ used sizeofBlock region.heap (pre ++ ⟨taken, false⟩ :: suf) ∧ q.1 ≠ p.1 := by
    intro q
    rw [hpayload]
    exact mem_used_release_iff (by decide)
  have hspares : ∀ q ∈ used sizeofBlock region.heap (pre ++ ⟨taken, false⟩ :: suf), q.1 ≠ p.1 →
      Spares region.heap s.memory m (coalesce sizeofBlock (pre ++ ⟨taken, true⟩ :: suf)) q := by
    intro q hq hne
    have hkept := (hreleasedMem q).mpr ⟨hq, hne⟩
    refine ⟨(used_coalesce _ _).symm ▸ hkept, fun x hx hlt => ?_⟩
    -- The flag and the payload that `myFree` writes do not meet another payload.
    have hoff := headers_off_used (b := region.heap + extent sizeofBlock pre)
      (by simp [headers_append, headers]) hkept
    have happart := used_apart hused hq (Ne.symm hne)
    simp only at happart
    rw [(Spares.of_onlyHeaders hframe hkept).bytes x hx hlt,
      ByteMemory.fill_frame (by omega), setFree_frame (by omega)]
  refine ⟨m, _, hresult, ⟨hrep, ?_, ?_, ?_, ?_⟩, hspares,
    ⟨pre, taken, suf, rfl, rfl⟩⟩
  · rw [extent_coalesce, hextent]
  · intro q hq
    obtain ⟨hq, hne⟩ := List.mem_filter.mp hq
    obtain ⟨taken', hle', hused'⟩ := h.live q hq
    have hkept := (hreleasedMem _).mpr ⟨hused', by simpa using hne⟩
    exact ⟨taken', hle', (used_coalesce _ _).symm ▸ hkept⟩
  · intro q hq
    rw [used_coalesce] at hq
    obtain ⟨hold, hne⟩ := (hreleasedMem q).mp hq
    obtain ⟨l, hl, heq⟩ := List.mem_map.mp (h.complete q hold)
    refine List.mem_map.mpr ⟨l, List.mem_filter.mpr ⟨hl, ?_⟩, heq⟩
    simpa [heq] using hne
  · exact h.distinct.sublist (List.filter_sublist.map _)

/-- Every allowed call returns. -/
theorem step (region : Region) (h : Models region.heap s blocks) {call : Call}
    (hallowed : call.Allowed s.live) :
    ∃ s' blocks', Heap.step region.heap s call = some s' ∧ Models region.heap s' blocks' ∧
      call.Changes region.heap blocks blocks' := by
  cases call with
  | myMalloc request =>
      obtain ⟨m, p, hresult, -, -, hmodels, -⟩ := h.myMalloc region request.toNat
      exact ⟨_, _, by rw [Heap.step, hresult]; rfl, hmodels, .myMalloc request⟩
  | myFree memory =>
      rcases hallowed with rfl | hlive
      · have hsame : s.live.filter (·.1 ≠ 0) = s.live := by
          refine List.filter_eq_self.mpr fun p hp => ?_
          have := (h.live_bounds hp).1
          have := region.pos
          simp only [ne_eq, decide_not, Bool.not_eq_eq_eq_not, Bool.not_true, decide_eq_false_iff_not]
          omega
        exact ⟨⟨s.memory, s.live.filter (·.1 ≠ 0)⟩, blocks, rfl, hsame.symm ▸ h, .null⟩
      · obtain ⟨p, hp, rfl⟩ := List.mem_map.mp hlive
        obtain ⟨m, blocks', hresult, hmodels, -, hreleases⟩ := h.myFree region hp
        exact ⟨_, blocks', by rw [Heap.step, hresult]; rfl, hmodels, .myFree hreleases⟩
  | write address value =>
      obtain ⟨p, hp, hlow, hhigh⟩ := hallowed
      obtain ⟨taken, hle, hused⟩ := h.live p hp
      refine ⟨_, blocks, rfl, h.frame fun b hb x hx hlt => Function.update_of_ne ?_ _ _,
        .write address value⟩
      have := headers_off_used hb hused
      simp only at this
      omega

end Models

/-- In every reachable state the heap is a reduced list of segments. -/
theorem exists_models (region : Region) {m : ByteMemory} {s : State}
    (hs : Reachable m region.heap s) : ∃ blocks, Models region.heap s blocks ∧ Reduced blocks := by
  induction hs with
  | start => exact ⟨_, Models.start region m, .singleton _⟩
  | step _ hallowed hstep ih =>
      obtain ⟨blocks, h, hreduced⟩ := ih
      obtain ⟨s', blocks', hresult, hmodels, hchanges⟩ := h.step region hallowed
      obtain rfl := Option.some.inj (hresult.symm.trans hstep)
      exact ⟨blocks', hmodels, hchanges.reduced hreduced⟩

/-! ### What a program sees -/

/-- `current->next` as a pointer. -/
def successor (m : ByteMemory) (current : Nat) : Option Nat :=
  if next m current = 0 then none else some (next m current)

/-- The size of the block in front of a payload. -/
def payloadSize (m : ByteMemory) (p : Nat) : Nat :=
  size m (p - sizeofBlock)

/-- The block chain from `heap` is in increasing order and tiles the heap. -/
structure Tiles (heap : Nat) (m : ByteMemory) (blocks : List Nat) : Prop where
  chain : Chain (successor m) (some heap) blocks
  increasing : blocks.Pairwise (· < ·)
  adjacent : ∀ b ∈ blocks, (successor m b).getD (heap + heapSize) = b + sizeofBlock + size m b

/-- The live allocations are large enough, and lie in the heap off the headers and off
each other. -/
structure Apart (heap : Nat) (s : State) (blocks : List Nat) : Prop where
  enough : ∀ p ∈ s.live, p.2 ≤ payloadSize s.memory p.1
  inside : ∀ p ∈ s.live, heap ≤ p.1 ∧ p.1 + payloadSize s.memory p.1 ≤ heap + heapSize
  offHeaders : ∀ p ∈ s.live, ∀ b ∈ blocks,
    b + sizeofBlock ≤ p.1 ∨ p.1 + payloadSize s.memory p.1 ≤ b
  disjoint : s.live.Pairwise fun p q =>
    p.1 + payloadSize s.memory p.1 < q.1 ∨ q.1 + payloadSize s.memory q.1 < p.1

/-- The headers of a represented list are the block chain. -/
theorem Represents.chain {m : ByteMemory} {a : Nat} {blocks : List Segment} (hpos : 0 < a)
    (h : Represents m 0 a blocks) :
    Chain (successor m) (if blocks = [] then none else some a) (headers sizeofBlock a blocks) ∧
      ∀ b ∈ headers sizeofBlock a blocks, (successor m b).getD (a + extent sizeofBlock blocks) =
        b + sizeofBlock + size m b := by
  induction blocks generalizing a with
  | nil => exact ⟨rfl, nofun⟩
  | cons s rest ih =>
      obtain ⟨hchain, hadjacent⟩ := ih (a := a + sizeofBlock + s.size) (by omega) h.2
      have hnext := next_eq h.1
      have hsuccessor :
          successor m a = if rest = [] then none else some (a + sizeofBlock + s.size) := by
        unfold successor
        rw [hnext]
        by_cases hrest : rest = []
        · simp [hrest]
        · rw [if_neg hrest, if_neg hrest, if_neg (by omega)]
      have hend : a + extent sizeofBlock (s :: rest) =
          a + sizeofBlock + s.size + extent sizeofBlock rest := by
        simp only [extent]
        omega
      refine ⟨⟨if_neg (List.cons_ne_nil s rest), hsuccessor ▸ hchain⟩, fun b hb => ?_⟩
      rw [hend]
      rcases List.mem_cons.mp hb with rfl | hb
      · rw [hsuccessor, size_eq h.1]
        by_cases hrest : rest = []
        · simp [hrest, extent]
        · rw [if_neg hrest]
          rfl
      · exact hadjacent b hb

/-- A payload in use has the size that the header in front of it says. -/
theorem Represents.payloadSize {m : ByteMemory} {a : Nat} {blocks : List Segment}
    (h : Represents m 0 a blocks) {p : Nat × Nat} (hp : p ∈ used sizeofBlock a blocks) :
    payloadSize m p.1 = p.2 := by
  obtain ⟨pre, suf, rfl, haddress⟩ := exists_of_mem_used hp
  have hfront : p.1 - sizeofBlock = a + extent sizeofBlock pre := by omega
  rw [Heap.payloadSize, hfront]
  exact size_eq ((represents_append pre _ suf).mp h).2.1

theorem Models.tiles (region : Region) {s : State} {blocks : List Segment}
    (h : Models region.heap s blocks) :
    Tiles region.heap s.memory (headers sizeofBlock region.heap blocks) := by
  obtain ⟨hchain, hadjacent⟩ := h.represents.chain region.pos
  rw [if_neg h.blocks_ne_nil] at hchain
  rw [h.fills] at hadjacent
  refine ⟨hchain, (headers_pairwise region.heap blocks).imp fun hle => ?_, hadjacent⟩
  unfold sizeofBlock at hle
  omega

/-- In every state of every program that uses the allocator, the block chain tiles the
heap, the live allocations lie in it without overlap, and every further call returns. -/
theorem heap_tiled (region : Region) {m : ByteMemory} {s : State}
    (hs : Reachable m region.heap s) :
    (∃ blocks, Tiles region.heap s.memory blocks ∧ Apart region.heap s blocks) ∧
      ∀ call : Call, call.Allowed s.live → (step region.heap s call).isSome = true := by
  obtain ⟨blocks, h, -⟩ := exists_models region hs
  have hpayload {p : Nat × Nat} (hp : p ∈ s.live) :
      p.2 ≤ payloadSize s.memory p.1 ∧
        (p.1, payloadSize s.memory p.1) ∈ used sizeofBlock region.heap blocks := by
    obtain ⟨taken, hle, hused⟩ := h.live p hp
    have hsize : payloadSize s.memory p.1 = taken := h.represents.payloadSize hused
    rw [hsize]
    exact ⟨hle, hused⟩
  refine ⟨⟨headers sizeofBlock region.heap blocks, h.tiles region, ?_, ?_, ?_, ?_⟩,
    fun call hallowed => ?_⟩
  · exact fun p hp => (hpayload hp).1
  · intro p hp
    have := used_bounds (hpayload hp).2
    rw [h.fills] at this
    simp only at this
    omega
  · intro p hp b hb
    have hused := (hpayload hp).2
    generalize payloadSize s.memory p.1 = taken at hused ⊢
    exact headers_off_used hb hused
  · have hdistinct : s.live.Pairwise fun p q => p.1 ≠ q.1 := List.pairwise_map.mp h.distinct
    refine hdistinct.imp_of_mem fun hp hq hne => ?_
    have := used_apart (hpayload hp).2 (hpayload hq).2 hne
    unfold sizeofBlock at this
    simp only at this
    omega
  · obtain ⟨s', -, hstep, -⟩ := h.step region hallowed
    rw [hstep]
    rfl

/-- Allocations that split a block, that are refused, and that reuse a freed block. -/
theorem heap_tiled_reuse :
    let region : Region := ⟨4096, by decide, by decide⟩
    ∃ s ∈ run region.heap (start (fun _ => 0) region.heap)
        [.myMalloc 1000, .myMalloc 0, .myMalloc 2000, .myMalloc (BitVec.allOnes 64),
          .write 4120 72, .myFree 4120, .myMalloc 990],
      s.live = [(4120, 990), (5168, 2000), (5144, 0)] ∧
        ∃ blocks, Tiles region.heap s.memory blocks ∧ Apart region.heap s blocks := by
  intro region
  obtain ⟨s, hrun, hlive⟩ := (Option.any_eq_true _ _).mp
    (by decide +kernel : (run region.heap (start (fun _ => 0) region.heap)
      [.myMalloc 1000, .myMalloc 0, .myMalloc 2000, .myMalloc (BitVec.allOnes 64),
        .write 4120 72, .myFree 4120, .myMalloc 990]).any
      (fun s => decide (s.live = [(4120, 990), (5168, 2000), (5144, 0)])) = true)
  exact ⟨s, hrun, of_decide_eq_true hlive, (heap_tiled region (.run .start hrun)).1⟩

end Heap
end OperatingSystems
