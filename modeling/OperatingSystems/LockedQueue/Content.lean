import OperatingSystems.BoundedQueue.Nodes
import OperatingSystems.LockedQueue.Queue

/-!
# What the thread inside knows

`l` is the list of the nodes that are linked from `first`.

* `Filled` — the node that a thread has filled in and not linked yet.
* `Knows` — what the thread inside knows at every statement.
* `Inside.own` — its steps keep the queue sound and what it knows, as long as nobody else takes a
  step.
-/

namespace OperatingSystems
namespace LockedQueue

open Threads Fifo
open BoundedQueue (Memory Op Update Sound Balanced)

/-- The node of a thread that is filled in, and no part of the queue yet. -/
structure Filled {ι : Type*} (memory : Memory ι) (l : List Nat) (new : Nat) (val : Int) :
    Prop where
  live : memory.live new = true
  apart : new ∉ l
  val : memory.val new = val
  next : memory.next new = none

/-- What the thread inside knows; `l` are the nodes of the queue. -/
def Knows {ι : Type*} (maxCount : Nat) (memory : Memory ι) (l : List Nat) (t : Thread) : Prop :=
  let q := memory.queue
  let n : Int := l.length
  match t.pc with
  | .addMalloc => Balanced q l n n ∧ l.length < maxCount
  | .addInit =>
      Balanced q l n n ∧ l.length < maxCount ∧ memory.live t.new = true ∧ t.new ∉ l
  | .addFirst => Balanced q l n n ∧ l.length < maxCount ∧ Filled memory l t.new t.val
  | .addSetLast =>
      Balanced q l n n ∧ l.length < maxCount ∧ Filled memory l t.new t.val ∧ l = []
  | .addSetFirst =>
      Balanced q l n n ∧ l.length < maxCount ∧ Filled memory l t.new t.val ∧ l = [] ∧
        q.last = some t.new
  | .addLink =>
      Balanced q l n n ∧ l.length < maxCount ∧ Filled memory l t.new t.val ∧ l ≠ []
  | .addMoveLast =>
      q.count = n - 1 ∧ q.addCount - q.getCount = n - 1 ∧
        ∃ front b, l = front ++ [b] ++ [t.new] ∧ q.last = some b
  | .load .addLength => Balanced q l (n - 1) (n - 1)
  | .store .addLength => Balanced q l (n - 1) (n - 1) ∧ t.reg = q.count
  | .load .addCount => Balanced q l n (n - 1)
  | .store .addCount => Balanced q l n (n - 1) ∧ t.reg = q.addCount
  | .getTmp => Balanced q l n n ∧ l ≠ []
  | .getVal => Balanced q l n n ∧ ∃ a rest, l = a :: rest ∧ t.tmp = some a
  | .getNext =>
      Balanced q l n n ∧
        ∃ a rest, l = a :: rest ∧ t.tmp = some a ∧ t.val = memory.val a
  | .getFree =>
      Balanced q l (n + 1) (n + 1) ∧
        ∃ a, t.tmp = some a ∧ memory.live a = true ∧ a ∉ l
  | .load .getLength => Balanced q l (n + 1) (n + 1)
  | .store .getLength => Balanced q l (n + 1) (n + 1) ∧ t.reg = q.count
  | .load .getCount => Balanced q l n (n + 1)
  | .store .getCount => Balanced q l n (n + 1) ∧ t.reg = q.getCount
  | .aborted => False
  | _ => Balanced q l n n

section Inside

variable {ι : Type*} {maxCount : Nat} {memory memory' : Memory ι} {l : List Nat} {t : Thread}
  {o : Op} {i : ι}

/-- The queue is sound, and the thread inside knows how it stands. -/
structure Inside (maxCount : Nat) (memory : Memory ι) (l : List Nat) (t : Thread) : Prop where
  sound : Sound maxCount memory l
  knows : Knows maxCount memory l t

/-- Between two calls, and behind one. -/
theorem knows_of_rests (ht : t.pc = .call ∨ t.isReturned = true) :
    Knows maxCount memory l t ↔ Balanced memory.queue l l.length l.length := by
  unfold Thread.isReturned at ht
  unfold Knows
  cases hpc : t.pc <;> simp [hpc] at ht ⊢

/-- A step of the thread inside. -/
theorem Inside.own [DecidableEq ι] (h : Inside maxCount memory l t) (hop : t.op = some o)
    (hexec : o.exec i memory = some memory') :
    Inside maxCount memory' (o.relink l) (t.resume memory) := by
  obtain ⟨hsound, h⟩ := h
  have hmax := hsound.maxCount
  have hlength := hsound.length_le
  have hqueue : o.writesQueue = false → memory'.queue = memory.queue := Op.exec_queue hexec
  unfold Knows at h
  unfold Thread.op at hop
  unfold Thread.resume
  cases hpc : t.pc <;> simp only [hpc, Option.some.injEq, reduceCtorEq] at h hop <;> subst hop
  case call =>
    obtain rfl := Option.some.inj hexec
    cases t.party <;> exact ⟨hsound, h⟩
  case addAssert =>
    obtain rfl := Option.some.inj hexec
    have hcount : memory.queue.count ≤ memory.queue.maxCount := by
      rw [h.count, hmax]
      omega
    rw [if_pos hcount]
    exact ⟨hsound, h⟩
  case addFull =>
    -- Behind the test there is room for one more node.
    obtain rfl := Option.some.inj hexec
    by_cases hfull : memory.queue.count = memory.queue.maxCount
    · rw [if_pos hfull]
      exact ⟨hsound, h⟩
    · rw [if_neg hfull]
      rw [h.count, hmax] at hfull
      have hroom : l.length < maxCount := by omega
      exact ⟨hsound, h, hroom⟩
  case addMalloc =>
    obtain ⟨hbalanced, hroom⟩ := h
    refine ⟨hsound.malloc hexec, ?_⟩
    cases haddress : t.addresses 0 with
    | none =>
        rw [haddress] at hexec
        obtain rfl := Option.some.inj hexec
        exact hbalanced
    | some a =>
        -- What `malloc` returns was not allocated, so it is no node of the queue.
        rw [haddress] at hexec
        obtain ⟨hfree, hexec⟩ := Option.ite_none_left_eq_some.mp hexec
        obtain rfl := Option.some.inj hexec
        exact ⟨hbalanced, hroom, Function.update_self .., fun hmem => hfree (hsound.live a hmem)⟩
  case addInit =>
    obtain ⟨hbalanced, hroom, hlive, hnew⟩ := h
    refine ⟨hsound.init hlive hnew hexec, ?_⟩
    obtain rfl := Option.some.inj hexec
    exact ⟨hbalanced, hroom, hlive, hnew, Function.update_self .., Function.update_self ..⟩
  case addFirst =>
    obtain rfl := Option.some.inj hexec
    obtain ⟨hbalanced, hroom, hfilled⟩ := h
    by_cases hfirst : memory.queue.first = none
    · rw [if_pos hfirst]
      exact ⟨hsound, hbalanced, hroom, hfilled, hsound.chain.start_eq_none_iff.mp hfirst⟩
    · rw [if_neg hfirst]
      exact ⟨hsound, hbalanced, hroom, hfilled, hsound.chain.start_eq_none_iff.not.mp hfirst⟩
  case addSetLast =>
    obtain ⟨hbalanced, hroom, hfilled, rfl⟩ := h
    refine ⟨hsound.setLast hexec, ?_⟩
    obtain rfl := Option.some.inj hexec
    exact ⟨⟨fun hne => absurd rfl hne, hbalanced.count, hbalanced.total⟩, hroom,
      ⟨hfilled.live, hfilled.apart, hfilled.val, hfilled.next⟩, rfl, rfl⟩
  case addSetFirst =>
    obtain ⟨hbalanced, hroom, hfilled, rfl, hlast⟩ := h
    refine ⟨hsound.setFirst hfilled.live hfilled.next hfilled.val hroom hexec, ?_⟩
    obtain rfl := Option.some.inj hexec
    exact ⟨fun _ => hlast, hbalanced.count, hbalanced.total⟩
  case addLink =>
    -- From here on the new node is part of the list, and not counted yet.
    obtain ⟨hbalanced, hroom, hfilled, hne⟩ := h
    obtain ⟨front, b, rfl⟩ : ∃ front b, l = front ++ [b] :=
      ⟨l.dropLast, l.getLast hne, (List.dropLast_append_getLast hne).symm⟩
    have hlast : memory.queue.last = some b := by
      rw [hbalanced.last hne, List.getLast?_concat]
    refine ⟨hsound.link hlast hfilled.live hfilled.apart hfilled.next hfilled.val hroom hexec, ?_⟩
    simp only [Knows, Op.relink, hqueue rfl, List.length_append, List.length_singleton]
    have hcount := hbalanced.count
    have htotal := hbalanced.total
    rw [List.length_append, List.length_singleton] at hcount htotal
    exact ⟨by omega, by omega, front, b, rfl, hlast⟩
  case addMoveLast =>
    obtain ⟨hcount, htotal, front, b, rfl, hlast⟩ := h
    refine ⟨hsound.moveLast hlast (by simp) hexec, ?_⟩
    simp only [Op.exec, hlast] at hexec
    obtain rfl := Option.some.inj hexec
    have hnext : memory.next b = some t.new := by
      have hchain := hsound.chain
      rw [List.append_assoc] at hchain
      exact hchain.next_eq
    exact ⟨fun _ => hnext.trans List.getLast?_concat.symm, hcount, htotal⟩
  case getAssert =>
    obtain rfl := Option.some.inj hexec
    have hcount : 0 ≤ memory.queue.count := by
      rw [h.count]
      omega
    rw [if_pos hcount]
    exact ⟨hsound, h⟩
  case getEmpty =>
    obtain rfl := Option.some.inj hexec
    by_cases hempty : memory.queue.count = 0
    · rw [if_pos hempty]
      exact ⟨hsound, h⟩
    · rw [if_neg hempty]
      refine ⟨hsound, h, ?_⟩
      rintro rfl
      exact hempty h.count
  case getTmp =>
    obtain rfl := Option.some.inj hexec
    obtain ⟨hbalanced, hne⟩ := h
    obtain ⟨a, rest, rfl⟩ := List.exists_cons_of_ne_nil hne
    exact ⟨hsound, hbalanced, a, rest, rfl, hsound.chain.1⟩
  case getVal =>
    obtain ⟨hbalanced, a, rest, rfl, htmp⟩ := h
    rw [htmp] at hexec
    refine ⟨hsound.read List.mem_cons_self hexec, ?_⟩
    obtain rfl := Option.some.inj hexec
    exact ⟨hbalanced, a, rest, rfl, htmp, by simp [htmp, Memory.access]⟩
  case getNext =>
    obtain ⟨hbalanced, a, rest, rfl, htmp, hval⟩ := h
    rw [hval] at hexec
    refine ⟨hsound.unlink hexec, ?_⟩
    simp only [Op.exec, hsound.chain.1] at hexec
    obtain rfl := Option.some.inj hexec
    exact ⟨hbalanced.unlink _, a, htmp, hsound.live a List.mem_cons_self,
      (List.nodup_cons.mp hsound.chain.nodup).1⟩
  case getFree =>
    -- The node was taken off the list before.
    obtain ⟨hbalanced, a, htmp, hlive, hnew⟩ := h
    have hapart : ∀ b, t.tmp = some b → memory.live b = true ∧ b ∉ l := by
      intro b hb
      obtain rfl := Option.some.inj (htmp.symm.trans hb)
      exact ⟨hlive, hnew⟩
    refine ⟨hsound.free hapart hexec, ?_⟩
    simpa only [Knows, Op.relink, hqueue rfl] using hbalanced
  case load u =>
    obtain rfl := Option.some.inj hexec
    refine ⟨hsound, ?_⟩
    cases u <;> first | exact h | exact ⟨h, rfl⟩
  case store u =>
    refine ⟨hsound.store hexec, ?_⟩
    obtain rfl := Option.some.inj hexec
    cases u
    case addAttempts => exact h.addAttempts _
    case getAttempts => exact h.getAttempts _
    case addLength =>
      obtain ⟨hbalanced, hreg⟩ := h
      rw [hreg]
      exact hbalanced.addLength
    case getLength =>
      obtain ⟨hbalanced, hreg⟩ := h
      rw [hreg]
      exact hbalanced.getLength
    case addCount =>
      obtain ⟨hbalanced, hreg⟩ := h
      rw [hreg]
      exact hbalanced.addCount
    case getCount =>
      obtain ⟨hbalanced, hreg⟩ := h
      rw [hreg]
      exact hbalanced.getCount

end Inside
end LockedQueue
end OperatingSystems
