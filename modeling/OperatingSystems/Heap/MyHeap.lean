import OperatingSystems.Library.ByteMemory

/-!
# The allocator

`myMalloc`, `mergeBlocks`, `myFree` and `initialize` on a byte memory.  A `block`
header takes `sizeofBlock` bytes: `size` and `next` of eight bytes each, `free` of
one byte, and padding.  The null pointer is `0`.

A loop along the block chain gets a number of rounds; `none` says that it has not
ended by then.  `heapSize` rounds are more than there are blocks in a heap.
-/

namespace OperatingSystems
namespace Heap

/-- `HEAP`. -/
def heapSize : Nat := 10485760

/-- `sizeof(block)`. -/
def sizeofBlock : Nat := 24

/-! ### Block headers -/

/-- `current->size`. -/
def size (m : ByteMemory) (current : Nat) : Nat :=
  m.load current 8

/-- `current->next`. -/
def next (m : ByteMemory) (current : Nat) : Nat :=
  m.load (current + 8) 8

/-- `current->free`, as a condition. -/
def free (m : ByteMemory) (current : Nat) : Bool :=
  m.load (current + 16) 1 != 0

/-- `current->size = value`. -/
def setSize (m : ByteMemory) (current value : Nat) : ByteMemory :=
  m.store current 8 value

/-- `current->next = value`. -/
def setNext (m : ByteMemory) (current value : Nat) : ByteMemory :=
  m.store (current + 8) 8 value

/-- `current->free = value`. -/
def setFree (m : ByteMemory) (current value : Nat) : ByteMemory :=
  m.store (current + 16) 1 value

/-! ### `myMalloc` -/

/-- The block is larger than the request and a header: it is split. -/
def splitBlock (m : ByteMemory) (current request : Nat) : ByteMemory :=
  let newMem := wadd (wadd current sizeofBlock) request
  let m := setSize m newMem (wsub (wsub (size m current) request) sizeofBlock)
  let m := setFree m newMem 1
  let m := setNext m newMem (next m current)
  let m := setSize m current request
  let m := setFree m current 0
  setNext m current newMem

/-- The loop of `myMalloc` from `current` on: the memory and the result. -/
def mallocFrom (request : Nat) : Nat → ByteMemory → Nat → Option (ByteMemory × Nat)
  | 0, _, _ => none
  | rounds + 1, m, current =>
      if current = 0 then some (m, 0)
      else if free m current = true ∧ request ≤ size m current then
        if wadd request sizeofBlock < size m current then
          some (splitBlock m current request, wadd current sizeofBlock)
        else some (setFree m current 0, wadd current sizeofBlock)
      else mallocFrom request rounds m (next m current)

/-- `myMalloc(request)`. -/
def myMalloc (m : ByteMemory) (heap request : Nat) : Option (ByteMemory × Nat) :=
  mallocFrom request heapSize m heap

/-! ### `myFree` -/

/-- One merge: `current` takes over its successor. -/
def absorbNext (m : ByteMemory) (current : Nat) : ByteMemory :=
  let m := setSize m current (wadd (size m current) (wadd (size m (next m current)) sizeofBlock))
  setNext m current (next m (next m current))

/-- The loop of `mergeBlocks` from `current` on. -/
def mergeFrom : Nat → ByteMemory → Nat → Option ByteMemory
  | 0, _, _ => none
  | rounds + 1, m, current =>
      if current = 0 ∨ next m current = 0 then some m
      else if free m current = true ∧ free m (next m current) = true then
        mergeFrom rounds (absorbNext m current) current
      else mergeFrom rounds m (next m current)

/-- `mergeBlocks()`. -/
def mergeBlocks (m : ByteMemory) (heap : Nat) : Option ByteMemory :=
  mergeFrom heapSize m heap

/-- `myFree(memory)`. -/
def myFree (m : ByteMemory) (heap memory : Nat) : Option ByteMemory :=
  if memory = 0 then some m
  else
    let current := wsub memory sizeofBlock
    let m := setFree m current 1
    let m := m.fill memory (size m current) 1
    mergeBlocks m heap

/-- `initialize()`, after `mmap` has returned `heap`. -/
def initializeHeap (m : ByteMemory) (heap : Nat) : ByteMemory :=
  let m := setSize m heap (heapSize - sizeofBlock)
  let m := setFree m heap 1
  setNext m heap 0

/-! ### A program that uses the allocator -/

/-- What `mmap` returns: `heapSize` bytes, not at `NULL`, and with the address behind
them still an address. -/
structure Region where
  heap : Nat
  pos : 0 < heap
  fits : heap + heapSize < 2 ^ 64

/-- The memory, and the pointers that `myMalloc` returned and that were not freed
since, with the sizes they were requested for. -/
structure State where
  memory : ByteMemory
  live : List (Nat × Nat)

/-- What the program does with the heap: it calls the allocator, or it writes a
byte to memory that it has allocated. -/
inductive Call
  | myMalloc (request : BitVec 64)
  | myFree (memory : Nat)
  | write (address : Nat) (value : Byte)

/-- `myFree` gets `NULL` or a live pointer, a write goes to a live allocation. -/
def Call.Allowed (live : List (Nat × Nat)) : Call → Prop
  | .myMalloc _ => True
  | .myFree memory => memory = 0 ∨ memory ∈ live.map Prod.fst
  | .write address _ => ∃ p ∈ live, p.1 ≤ address ∧ address < p.1 + p.2

instance (live : List (Nat × Nat)) (call : Call) : Decidable (call.Allowed live) := by
  cases call <;> unfold Call.Allowed <;> infer_instance

/-- One call; `none` if it does not return. -/
def step (heap : Nat) (s : State) : Call → Option State
  | .myMalloc request =>
      (myMalloc s.memory heap request.toNat).map fun result =>
        ⟨result.1, if result.2 = 0 then s.live else (result.2, request.toNat) :: s.live⟩
  | .myFree memory =>
      (myFree s.memory heap memory).map fun m => ⟨m, s.live.filter (·.1 ≠ memory)⟩
  | .write address value => some ⟨Function.update s.memory address value, s.live⟩

/-- The program after `initialize()`. -/
def start (m : ByteMemory) (heap : Nat) : State :=
  ⟨initializeHeap m heap, []⟩

/-- The states of the program after any sequence of allowed calls. -/
inductive Reachable (m : ByteMemory) (heap : Nat) : State → Prop
  | start : Reachable m heap (start m heap)
  | step {s s' : State} {call : Call} : Reachable m heap s → call.Allowed s.live →
      step heap s call = some s' → Reachable m heap s'

/-- A sequence of calls; `none` if one of them is not allowed or does not return. -/
def run (heap : Nat) (s : State) : List Call → Option State
  | [] => some s
  | call :: calls =>
      if call.Allowed s.live then
        match step heap s call with
        | none => none
        | some s' => run heap s' calls
      else none

theorem Reachable.run {m : ByteMemory} {heap : Nat} {s s' : State} {calls : List Call}
    (hs : Reachable m heap s) (hrun : Heap.run heap s calls = some s') : Reachable m heap s' := by
  induction calls generalizing s with
  | nil => exact Option.some.inj hrun ▸ hs
  | cons call calls ih =>
      rw [Heap.run] at hrun
      split at hrun
      · next hallowed =>
        cases hstep : Heap.step heap s call with
        | none => simp [hstep] at hrun
        | some next =>
            rw [hstep] at hrun
            exact ih (.step hs hallowed hstep) hrun
      · simp at hrun

end Heap
end OperatingSystems
