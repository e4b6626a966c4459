import OperatingSystems.BoundedQueue.Leaks

/-!
# `queue_destroy`

It frees the nodes one after the other: in three versions as many as `count` says, in `semafors` up
to the null pointer.

* `Frees` — what the memory is when the nodes of a chain have been freed.
* `destroyByCount_frees`, `destroyByLinks_frees` — the two loops.
* `queueDestroy_frees` — what is left when a queue is destroyed between the calls.
-/

namespace OperatingSystems
namespace BoundedQueue

open Threads Fifo

variable {ι : Type*}

namespace Memory

/-- `free` of a node. -/
def freeNode (memory : Memory ι) (a : Nat) : Memory ι :=
  { memory.access (some a) with
    live := Function.update memory.live a false
    frees := memory.frees + 1 }

/-- `while (q->count)`; the number of tests is bounded, and `none` stands for a loop that needs
more. -/
def destroyByCount : Nat → Memory ι → Option (Memory ι)
  | 0, _ => none
  | tests + 1, memory =>
      if memory.queue.count = 0 then some memory
      else
        match memory.queue.first with
        -- `q->first->next` of an empty queue.
        | none => some (memory.access none)
        | some a =>
            destroyByCount tests { (memory.access (some a)).freeNode a with
              queue := { memory.queue with
                first := memory.next a
                count := memory.queue.count - 1 } }

/-- `while (current != NULL)` -/
def destroyByLinks : Nat → Option Nat → Memory ι → Option (Memory ι)
  | 0, _, _ => none
  | _ + 1, none, memory => some memory
  | tests + 1, some a, memory =>
      destroyByLinks tests (memory.next a) ((memory.access (some a)).freeNode a)

end Memory

/-- The loop of `queue_destroy`. -/
def queueDestroy (v : Version) (tests : Nat) (memory : Memory ι) : Option (Memory ι) :=
  match v with
  | .semafors => memory.destroyByLinks tests memory.queue.first
  | _ => memory.destroyByCount tests

/-! ### The loops -/

/-- The nodes `l` have been freed, each of them once. -/
structure Frees (l : List Nat) (memory memory' : Memory ι) : Prop where
  live : ∀ a, memory'.live a = true ↔ memory.live a = true ∧ a ∉ l
  mallocs : memory'.mallocs = memory.mallocs
  frees : memory'.frees = memory.frees + l.length
  fault : memory.fault = false → memory'.fault = false

namespace Frees

variable {memory memory' : Memory ι} {l : List Nat} {a : Nat}

theorem nil (memory : Memory ι) : Frees [] memory memory :=
  ⟨fun a => by simp, rfl, rfl, id⟩

/-- The loop goes on with the nodes behind `a`, and a queue that no longer has `a`. -/
theorem cons (queue : Queue) (hlive : memory.live a = true)
    (h : Frees l { (memory.access (some a)).freeNode a with queue := queue } memory') :
    Frees (a :: l) memory memory' := by
  refine ⟨fun b => (h.live b).trans ?_, h.mallocs, ?_, fun hfault => h.fault ?_⟩
  · by_cases hb : b = a
    · simp [Memory.freeNode, hb]
    · simp [Memory.freeNode, Memory.access, hb]
  · have hfrees : memory'.frees = memory.frees + 1 + l.length := h.frees
    rw [hfrees, List.length_cons]
    omega
  · simp [Memory.freeNode, Memory.access, hfault, hlive]

end Frees

section Loops

variable {memory : Memory ι} {l : List Nat} {start : Option Nat}

/-- The other nodes of a chain are live behind the `free` of the first. -/
theorem live_freeNode {a : Nat} (hnodup : (a :: l).Nodup) (hlive : ∀ b ∈ a :: l, memory.live b) :
    ∀ b ∈ l, ((memory.access (some a)).freeNode a).live b = true := by
  intro b hb
  have hba : b ≠ a := by
    rintro rfl
    exact (List.nodup_cons.mp hnodup).1 hb
  simpa [Memory.freeNode, Memory.access, hba] using hlive b (List.mem_cons_of_mem a hb)

theorem destroyByLinks_frees (hchain : Chain memory.next start l)
    (hlive : ∀ a ∈ l, memory.live a = true) :
    ∃ memory', memory.destroyByLinks (l.length + 1) start = some memory' ∧
      Frees l memory memory' := by
  induction l generalizing memory start with
  | nil =>
      obtain rfl := Chain.nil_iff.mp hchain
      exact ⟨memory, rfl, .nil memory⟩
  | cons a l ih =>
      have hnodup := hchain.nodup
      obtain ⟨rfl, hrest⟩ := hchain
      have hlive' := live_freeNode hnodup hlive
      obtain ⟨memory', hrun, hfrees⟩ :=
        ih (show Chain ((memory.access (some a)).freeNode a).next _ l from hrest) hlive'
      exact ⟨memory', hrun, .cons memory.queue (hlive a List.mem_cons_self) hfrees⟩

theorem destroyByCount_frees (hchain : Chain memory.next memory.queue.first l)
    (hcount : memory.queue.count = l.length) (hlive : ∀ a ∈ l, memory.live a = true) :
    ∃ memory', memory.destroyByCount (l.length + 1) = some memory' ∧ Frees l memory memory' := by
  induction l generalizing memory with
  | nil => exact ⟨memory, if_pos (by simpa using hcount), .nil memory⟩
  | cons a l ih =>
      have hnodup := hchain.nodup
      obtain ⟨hfirst, hrest⟩ := hchain
      rw [List.length_cons, Nat.cast_add_one] at hcount
      have hne : memory.queue.count ≠ 0 := by omega
      let popped : Memory ι := { (memory.access (some a)).freeNode a with
        queue := { memory.queue with
          first := memory.next a
          count := memory.queue.count - 1 } }
      have hpopped : popped.queue.count = l.length := by simp [popped, hcount]
      have hlive' : ∀ b ∈ l, popped.live b = true := live_freeNode hnodup hlive
      obtain ⟨memory', hrun, hfrees⟩ := ih (show Chain popped.next _ l from hrest) hpopped hlive'
      refine ⟨memory', ?_, .cons _ (hlive a List.mem_cons_self) hfrees⟩
      rw [Memory.destroyByCount, if_neg hne, hfirst]
      exact hrun

end Loops

/-! ### Between the calls -/

theorem exists_queueDestroy {v : Version} {memory : Memory ι} {l : List Nat}
    (hchain : Chain memory.next memory.queue.first l) (hcount : memory.queue.count = l.length)
    (hlive : ∀ a ∈ l, memory.live a = true) :
    ∃ memory', queueDestroy v (l.length + 1) memory = some memory' ∧ Frees l memory memory' := by
  cases v
  case semafors => exact destroyByLinks_frees hchain hlive
  all_goals exact destroyByCount_frees hchain hcount hlive

/-- A queue that is destroyed between the calls: the loop ends, touches no node that is not
allocated and frees every node of the queue once; what is left are the nodes that failed calls of
`queue_add` have lost, so that nothing is left if and only if there were none in `mutex` and
`semafors`. -/
theorem queueDestroy_frees {κ : Type*} [DecidableEq ι] {v : Version} {C : Client κ}
    {maxCount : Nat} {s : State ι (Memory ι) (Thread κ)}
    (hs : (threads v C ι).Reachable (StartsWith maxCount) s) (hquiet : Quiet s) :
    ∃ tests memory, queueDestroy v tests s.shared = some memory ∧ memory.fault = false ∧
      (memory.frees : Int) = s.shared.frees + s.shared.queue.count ∧
      memory.mallocs = memory.frees + losses v s.shared.events ∧
      ((∀ a, memory.live a = false) ↔
        (v = .mutex ∨ v = .semafors → ∀ e ∈ s.shared.events, failedAdd e = false)) := by
  obtain ⟨l, cells, lost, hinv, h⟩ := Leaks.of_reachable hs
  have hcount := count_of_quiet hinv hquiet
  obtain ⟨memory, hrun, hfrees⟩ :=
    exists_queueDestroy (v := v) hinv.sound.chain hcount hinv.sound.live
  have hmallocs := h.mallocs_eq hinv hquiet
  have hnodes := hfrees.frees
  have hsame := hfrees.mallocs
  refine ⟨_, memory, hrun, hfrees.fault hinv.sound.fault, by omega, by omega, ?_⟩
  -- What is still allocated is lost.
  have howned : ∀ i, (s.thread i).owned = none := fun i => Thread.owned_of_kind (hquiet i)
  have hlost : ∀ a, memory.live a = true ↔ a ∈ lost := fun a => by
    simp [hfrees.live, h.mem_iff, howned]
  have hempty : (∀ a, memory.live a = false) ↔ lost = ∅ := by
    rw [Finset.eq_empty_iff_forall_notMem]
    exact forall_congr' fun a => by rw [← hlost, Bool.not_eq_true]
  rw [hempty, ← losses_eq_zero_iff hs, ← h.card, Finset.card_eq_zero]

/-- A queue with one value. -/
theorem queueDestroy_frees_added :
    ∃ s ∈ (threads .mutex addOnce Unit).runIf (fun _ _ => true) (oneClient 1)
        (List.replicate 17 ()),
      ∃ tests memory, queueDestroy .mutex tests s.shared = some memory ∧ memory.fault = false ∧
        (memory.frees : Int) = 1 := by
  have hstart : StartsWith 1 (oneClient 1) := ⟨rfl, fun _ => ⟨false, some, rfl⟩⟩
  obtain ⟨s, hrun, hs, hgoal, hpc⟩ :=
    (Program.ReachableUnder.start hstart).exists_runIf (fun _ _ _ => trivial)
      (fun s => (s.shared.frees = 0 ∧ s.shared.queue.count = 1) ∧ (s.thread ()).pc = .call)
      (by decide +kernel : ((threads .mutex addOnce Unit).runIf (fun _ _ => true) (oneClient 1)
        (List.replicate 17 ())).any _ = true)
  have hquiet : Quiet s := fun _ => .inl (by rw [hpc]; rfl)
  obtain ⟨tests, memory, hdestroy, hfault, hfrees, -⟩ :=
    @queueDestroy_frees _ _ _ .mutex addOnce 1 s hs hquiet
  refine ⟨s, hrun, tests, memory, hdestroy, hfault, ?_⟩
  rw [hfrees, hgoal.1, hgoal.2]
  rfl

end BoundedQueue
end OperatingSystems
