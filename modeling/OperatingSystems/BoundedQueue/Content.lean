import OperatingSystems.BoundedQueue.Queue
import OperatingSystems.Library.Chain

/-!
# What the threads know about the queue

`l` is the list of the nodes that are linked from `first`.

* `Thread.inside`, `Thread.owned`, `Thread.pending` — whether a thread holds the lock, the
  node that only this thread uses, and the operation that it has not returned from yet.
* `Balanced` — how far the counters of the queue are from the length of `l`.
* `Knows` — what a thread with the lock knows at every statement; `Knows.own` — its own
  steps keep it, `Knows.frame` — so does a step of a thread without the lock.
-/

namespace OperatingSystems
namespace BoundedQueue

open Threads Fifo

/-- The thread has a node of its own that is filled in. -/
def Pc.carriesNew : Pc → Bool
  | .addLock | .load .addAttempts | .store .addAttempts | .addAssert | .addPause | .addFull => true
  | .addWait | .addAsleep | .addRelock | .addUnlockFull | .addFreeFull => true
  | .addFirst | .addSetLast | .addSetFirst | .addLink => true
  | _ => false

/-- The thread has a node that it has taken out of the queue. -/
def Pc.carriesTmp : Pc → Bool
  | .load .getLength | .store .getLength | .load .getCount | .store .getCount => true
  | .getBroadcast | .getUnlock | .getFree => true
  | _ => false

namespace Thread

variable {κ : Type*}

/-- The thread holds the lock. -/
def inside (t : Thread κ) : Bool :=
  match t.pc with
  | .call | .addMalloc | .addInit | .addLock | .addAsleep | .addRelock | .addFreeFull => false
  | .getLock | .getAsleep | .getRelock | .getFree => false
  | .statsPrint | .statsLock | .outOfMemory => false
  | _ => true

/-- The node that only this thread uses. -/
def owned (t : Thread κ) : Option Nat :=
  if t.pc = .addInit ∨ t.pc.carriesNew then some t.new
  else if t.pc.carriesTmp then t.tmp
  else none

/-- The operation that is done and that the thread has not returned from. -/
def pending (t : Thread κ) : List (Event Int) :=
  match t.pc with
  | .addMoveLast | .load .addLength | .store .addLength | .load .addCount => [.add t.val true]
  | .store .addCount | .addBroadcast | .addUnlock => [.add t.val true]
  | .addFreeFull => [.add t.val false]
  | .load .getLength | .store .getLength | .load .getCount | .store .getCount =>
      [.get (some t.val)]
  | .getBroadcast | .getUnlock | .getFree => [.get (some t.val)]
  | _ => []

end Thread

/-- The operation that an access does, or finds impossible. -/
def Op.event : Op → Option (Event Int)
  | .unlock failed => failed
  | .setFirst _ val | .link _ val => some (.add val true)
  | .unlink val => some (.get (some val))
  | _ => none

/-- Whether the thread holds the lock after an access. -/
def Op.inside (before : Bool) : Op → Bool
  | .lock => true
  | .unlock _ | .wait _ => false
  | _ => before

/-- The nodes of the queue after an access. -/
def Op.relink (l : List Nat) : Op → List Nat
  | .setFirst a _ | .link a _ => l ++ [a]
  | .unlink _ => l.tail
  | _ => l

/-- The access writes a field of the queue. -/
def Op.writesQueue : Op → Bool
  | .store _ _ | .setLast _ | .setFirst _ _ | .moveLast | .unlink _ => true
  | _ => false

/-- The acting thread gives its node away. -/
def Op.gives : Op → Bool
  | .free _ | .setFirst _ _ | .link _ _ => true
  | _ => false

/-- The node that an access allocates, frees or writes. -/
def Op.touches (last : Option Nat) : Op → Option Nat
  | .malloc p | .free p => p
  | .init a _ => some a
  | .link _ _ => last
  | _ => none

namespace Thread

variable {ι κ : Type*} {v : Version} {C : Client κ} {memory : Memory ι} {t : Thread κ} {o : Op}
  {a : Nat}

/-- What an access `o` makes of the local state `t`. -/
structure Moves (o : Op) (t t' : Thread κ) : Prop where
  inside : t'.inside = o.inside t.inside
  owned : ∀ a, t'.owned = some a → o = .malloc (some a) ∨
    (∃ val, o = .unlink val ∧ t.tmp = some a) ∨ (t.owned = some a ∧ o.gives = false)
  carries : t'.pc.carriesNew = true →
    t'.new = t.new ∧ t'.val = t.val ∧
      ((t.pc.carriesNew = true ∧ ∀ last, o.touches last = none) ∨ o = .init t.new t.val)
  log : t'.log ++ t'.pending = t.log ++ t.pending ++ o.event.toList

theorem moves_resume (hop : t.op C = some o) : Moves o t (t.resume v C memory) := by
  unfold op at hop
  unfold resume
  cases hpc : t.pc <;> simp only [hpc, Option.some.injEq, reduceCtorEq] at hop <;>
    try subst hop
  case call =>
    obtain ⟨call, hcall, rfl⟩ := Option.map_eq_some_iff.mp hop
    rw [hcall]
    cases call <;> cases v <;> constructor <;>
      simp [hpc, inside, owned, pending, Op.inside, Op.gives, Op.touches, Op.event,
        Pc.carriesNew, Pc.carriesTmp]
  case store u =>
    cases u <;> cases v <;> constructor <;>
      simp [hpc, inside, owned, pending, Op.inside, Op.gives, Op.touches, Op.event,
        Pc.carriesNew, Pc.carriesTmp, Update.next]
  case load u =>
    cases u <;> constructor <;>
      simp [hpc, inside, owned, pending, Op.inside, Op.gives, Op.touches, Op.event,
        Pc.carriesNew, Pc.carriesTmp]
  -- The tests decide where the thread goes on, and nothing else.
  all_goals
    dsimp only
    repeat' split
    all_goals
      constructor <;>
        simp [inside, owned, pending, ret, retStats, Op.inside, Op.gives, Op.touches, Op.event,
          Pc.carriesNew, Pc.carriesTmp, *]

theorem inside_of_unlock {failed : Option (Event Int)} (hop : t.op C = some (.unlock failed)) :
    t.inside = true := by
  unfold op at hop
  split at hop <;> simp_all [inside]

theorem inside_of_wait {c : Condition} (hop : t.op C = some (.wait c)) : t.inside = true := by
  unfold op at hop
  split at hop <;> simp_all [inside]

end Thread

/-- `last` is right unless the queue is empty, and the counters show `count` values and
`total` more additions than removals. -/
structure Balanced (q : Queue) (l : List Nat) (count total : Int) : Prop where
  last : l ≠ [] → q.last = l.getLast?
  count : q.count = count
  total : q.addCount - q.getCount = total

namespace Balanced

variable {q : Queue} {a : Nat} {l : List Nat} {count total : Int}

theorem addAttempts (h : Balanced q l count total) (value : Int) :
    Balanced (Update.addAttempts.store q value) l count total :=
  ⟨h.last, h.count, h.total⟩

theorem getAttempts (h : Balanced q l count total) (value : Int) :
    Balanced (Update.getAttempts.store q value) l count total :=
  ⟨h.last, h.count, h.total⟩

theorem addLength (h : Balanced q l (count - 1) total) :
    Balanced (Update.addLength.store q (q.count + 1)) l count total := by
  have hcount : q.count + 1 = count := by
    rw [h.count]
    omega
  exact ⟨h.last, hcount, h.total⟩

theorem getLength (h : Balanced q l (count + 1) total) :
    Balanced (Update.getLength.store q (q.count - 1)) l count total := by
  have hcount : q.count - 1 = count := by
    rw [h.count]
    omega
  exact ⟨h.last, hcount, h.total⟩

theorem addCount (h : Balanced q l count (total - 1)) :
    Balanced (Update.addCount.store q (q.addCount + 1)) l count total := by
  have htotal := h.total
  have hadded : q.addCount + 1 - q.getCount = total := by omega
  exact ⟨h.last, h.count, hadded⟩

theorem getCount (h : Balanced q l count (total + 1)) :
    Balanced (Update.getCount.store q (q.getCount + 1)) l count total := by
  have htotal := h.total
  have hgot : q.addCount - (q.getCount + 1) = total := by omega
  exact ⟨h.last, h.count, hgot⟩

/-- The first node is taken off, and still counted. -/
theorem unlink (h : Balanced q (a :: l) (a :: l).length (a :: l).length) (first : Option Nat) :
    Balanced { q with first := first } l (l.length + 1) (l.length + 1) := by
  refine ⟨fun hne => ?_, ?_, ?_⟩
  · obtain ⟨b, rest, rfl⟩ := List.exists_cons_of_ne_nil hne
    exact (h.last (by simp)).trans List.getLast?_cons_cons
  · simpa using h.count
  · simpa using h.total

end Balanced

/-- What the thread knows while it holds the lock. -/
def Knows {ι κ : Type*} (v : Version) (maxCount : Nat) (memory : Memory ι) (l : List Nat)
    (t : Thread κ) : Prop :=
  let q := memory.queue
  let n : Int := l.length
  match t.pc with
  | .addPause => Balanced q l n n ∧ (v = .conditionalVarible → l.length < maxCount)
  | .addUnlockFull => Balanced q l n n ∧ v ≠ .conditionalVarible ∧ l.length = maxCount
  | .addFirst => Balanced q l n n ∧ l.length < maxCount
  | .addSetLast => Balanced q l n n ∧ l = [] ∧ 0 < maxCount
  | .addSetFirst => Balanced q l n n ∧ l = [] ∧ 0 < maxCount ∧ q.last = some t.new
  | .addLink => Balanced q l n n ∧ l ≠ [] ∧ l.length < maxCount
  | .addMoveLast =>
      q.count = n - 1 ∧ q.addCount - q.getCount = n - 1 ∧
        ∃ front b, l = front ++ [b] ++ [t.new] ∧ q.last = some b
  | .load .addLength => Balanced q l (n - 1) (n - 1)
  | .store .addLength => Balanced q l (n - 1) (n - 1) ∧ t.reg = q.count
  | .load .addCount => Balanced q l n (n - 1)
  | .store .addCount => Balanced q l n (n - 1) ∧ t.reg = q.addCount
  | .getUnlockEmpty => Balanced q l n n ∧ v ≠ .conditionalVarible ∧ l = []
  | .getTmp => Balanced q l n n ∧ l ≠ []
  | .getVal => Balanced q l n n ∧ ∃ a rest, l = a :: rest ∧ t.tmp = some a
  | .getNext => Balanced q l n n ∧ ∃ a rest, l = a :: rest ∧ t.tmp = some a ∧ t.val = memory.val a
  | .load .getLength => Balanced q l (n + 1) (n + 1)
  | .store .getLength => Balanced q l (n + 1) (n + 1) ∧ t.reg = q.count
  | .load .getCount => Balanced q l n (n + 1)
  | .store .getCount => Balanced q l n (n + 1) ∧ t.reg = q.getCount
  | .aborted => False
  | _ => Balanced q l n n

section Knows

variable {ι κ : Type*} {v : Version} {C : Client κ} {maxCount : Nat} {memory memory' : Memory ι}
  {l : List Nat} {t : Thread κ} {o : Op}

/-- An access that writes no field of the queue. -/
theorem Op.exec_queue [DecidableEq ι] {i : ι} (hexec : o.exec i memory = some memory')
    (ho : o.writesQueue = false) : memory'.queue = memory.queue := by
  cases o <;> simp only [writesQueue, reduceCtorEq] at ho
  case malloc address =>
    cases address with
    | none => exact Option.some.inj hexec ▸ rfl
    | some a => exact Option.some.inj (Option.ite_none_left_eq_some.mp hexec).2 ▸ rfl
  case free p => cases p <;> exact Option.some.inj hexec ▸ rfl
  case lock => exact Option.some.inj (Option.ite_none_left_eq_some.mp hexec).2 ▸ rfl
  case unlock failed => cases failed <;> exact Option.some.inj hexec ▸ rfl
  case link a val =>
    simp only [exec] at hexec
    split at hexec <;> exact Option.some.inj hexec ▸ rfl
  all_goals exact Option.some.inj hexec ▸ rfl

/-- An access changes only the node that it touches. -/
theorem Op.exec_frame [DecidableEq ι] {i : ι} {b : Nat} (hexec : o.exec i memory = some memory')
    (hb : o.touches memory.queue.last ≠ some b) : memory'.live b = memory.live b ∧
      memory'.val b = memory.val b ∧ memory'.next b = memory.next b := by
  have hne : ∀ {a}, some a ≠ some b → b ≠ a := fun h hba => h (congrArg some hba.symm)
  cases o <;> simp only [touches] at hb
  case malloc address =>
    cases address with
    | none => exact Option.some.inj hexec ▸ ⟨rfl, rfl, rfl⟩
    | some a =>
        obtain rfl := Option.some.inj (Option.ite_none_left_eq_some.mp hexec).2
        exact ⟨Function.update_of_ne (hne hb) _ _, rfl, rfl⟩
  case init a val =>
    obtain rfl := Option.some.inj hexec
    exact ⟨rfl, Function.update_of_ne (hne hb) _ _, Function.update_of_ne (hne hb) _ _⟩
  case free p =>
    cases p with
    | none => exact Option.some.inj hexec ▸ ⟨rfl, rfl, rfl⟩
    | some a =>
        obtain rfl := Option.some.inj hexec
        exact ⟨Function.update_of_ne (hne hb) _ _, rfl, rfl⟩
  case lock =>
    exact Option.some.inj (Option.ite_none_left_eq_some.mp hexec).2 ▸ ⟨rfl, rfl, rfl⟩
  case unlock failed => cases failed <;> exact Option.some.inj hexec ▸ ⟨rfl, rfl, rfl⟩
  case link a val =>
    simp only [exec] at hexec
    split at hexec
    · exact Option.some.inj hexec ▸ ⟨rfl, rfl, rfl⟩
    · next hlast =>
      obtain rfl := Option.some.inj hexec
      rw [hlast] at hb
      exact ⟨rfl, rfl, Function.update_of_ne (hne hb) _ _⟩
  case moveLast =>
    simp only [exec] at hexec
    split at hexec <;> exact Option.some.inj hexec ▸ ⟨rfl, rfl, rfl⟩
  case unlink val =>
    simp only [exec] at hexec
    split at hexec <;> exact Option.some.inj hexec ▸ ⟨rfl, rfl, rfl⟩
  all_goals exact Option.some.inj hexec ▸ ⟨rfl, rfl, rfl⟩

/-- A thread keeps what it knows along its own steps. -/
theorem Knows.own [DecidableEq ι] {i : ι} (h : Knows v maxCount memory l t)
    (hchain : Chain memory.next memory.queue.first l)
    (hmax : memory.queue.maxCount = maxCount) (hlength : l.length ≤ maxCount)
    (hop : t.op C = some o) (hexec : o.exec i memory = some memory') :
    Knows v maxCount memory' (o.relink l) (t.resume v C memory) := by
  have hqueue : o.writesQueue = false → memory'.queue = memory.queue := Op.exec_queue hexec
  unfold Knows at h
  unfold Thread.op at hop
  unfold Thread.resume
  cases hpc : t.pc <;> simp only [hpc, Option.some.injEq, reduceCtorEq] at h hop <;>
    try subst hop
  case call =>
    obtain ⟨call, hcall, rfl⟩ := Option.map_eq_some_iff.mp hop
    rw [hcall]
    cases call <;> cases v <;> simpa [Knows, Op.relink, hqueue rfl] using h
  case addMalloc => cases t.addresses 0 <;> simpa only [Knows, Op.relink, hqueue rfl] using h
  case addAssert =>
    have hcount : memory.queue.count ≤ memory.queue.maxCount := by rw [h.count, hmax]; omega
    cases v <;> simpa [Knows, Op.relink, hqueue rfl, hcount] using h
  case addPause =>
    cases v <;> simp only [Knows, Op.relink, hqueue rfl, reduceCtorEq, if_true, if_false]
    case conditionalVarible => exact ⟨h.1, h.2 rfl⟩
    all_goals exact h.1
  case addFull =>
    -- `count` is right here, so that the test tells whether there is room.
    by_cases hfull : memory.queue.count = memory.queue.maxCount
    · have hlength : l.length = maxCount := by
        rw [h.count, hmax] at hfull
        omega
      cases v <;> simp only [Knows, Op.relink, hqueue rfl, hfull, reduceCtorEq, if_true, if_false]
      case conditionalVarible => exact h
      all_goals exact ⟨h, nofun, hlength⟩
    · have hlength : l.length < maxCount := by
        rw [h.count, hmax] at hfull
        omega
      cases v <;> simp only [Knows, Op.relink, hqueue rfl, hfull, reduceCtorEq, if_true, if_false]
      case conditionalVarible => exact ⟨h, fun _ => hlength⟩
      all_goals exact ⟨h, hlength⟩
  case addUnlockFull => cases v <;> simpa [Knows, Op.relink, hqueue rfl, Thread.ret] using h.1
  case addFirst =>
    by_cases hfirst : memory.queue.first = none
    · simp only [Knows, Op.relink, hqueue rfl, hfirst, if_true]
      exact ⟨h.1, hchain.start_eq_none_iff.mp hfirst, by omega⟩
    · simp only [Knows, Op.relink, hqueue rfl, hfirst, if_false]
      exact ⟨h.1, hchain.start_eq_none_iff.not.mp hfirst, h.2⟩
  case addSetLast =>
    obtain rfl := Option.some.inj hexec
    obtain ⟨hbalanced, rfl, hpos⟩ := h
    exact ⟨⟨fun hne => absurd rfl hne, hbalanced.count, hbalanced.total⟩, rfl, hpos, rfl⟩
  case addSetFirst =>
    obtain rfl := Option.some.inj hexec
    obtain ⟨hbalanced, rfl, -, hlast⟩ := h
    exact ⟨fun _ => hlast, hbalanced.count, hbalanced.total⟩
  case addLink =>
    -- From here on the new node is part of the list, and not counted yet.
    simp only [Knows, Op.relink, hqueue rfl, List.length_append, List.length_singleton]
    obtain ⟨hbalanced, hne, -⟩ := h
    have hlast := List.dropLast_append_getLast hne
    refine ⟨by rw [hbalanced.count]; omega, by rw [hbalanced.total]; omega,
      l.dropLast, l.getLast hne, by rw [hlast], ?_⟩
    rw [hbalanced.last hne, List.getLast?_eq_getLast_of_ne_nil hne]
  case addMoveLast =>
    -- `last` is the node in front of the new one, which it is moved to.
    obtain ⟨hcount, htotal, front, b, rfl, hlast⟩ := h
    simp only [Op.exec, hlast] at hexec
    obtain rfl := Option.some.inj hexec
    have hnext : memory.next b = some t.new := by
      rw [List.append_assoc] at hchain
      exact hchain.next_eq
    exact ⟨fun _ => hnext.trans List.getLast?_concat.symm, hcount, htotal⟩
  case getAssert =>
    have hcount : 0 ≤ memory.queue.count := by rw [h.count]; omega
    simpa [Knows, Op.relink, hqueue rfl, hcount] using h
  case getEmpty =>
    have hempty : memory.queue.count = 0 ↔ l = [] := by
      rw [h.count, ← List.length_eq_zero_iff]
      omega
    by_cases hcount : memory.queue.count = 0
    · cases v <;> simp only [Knows, Op.relink, hqueue rfl, hcount, reduceCtorEq, if_true, if_false]
      case conditionalVarible => exact h
      all_goals exact ⟨h, nofun, hempty.mp hcount⟩
    · simp only [Knows, Op.relink, hqueue rfl, hcount, if_false]
      exact ⟨h, hempty.not.mp hcount⟩
  case getUnlockEmpty => simpa only [Knows, Op.relink, hqueue rfl, Thread.ret] using h.1
  case getTmp =>
    simp only [Knows, Op.relink, hqueue rfl]
    obtain ⟨a, rest, rfl⟩ := List.exists_cons_of_ne_nil h.2
    exact ⟨h.1, a, rest, rfl, hchain.1⟩
  case getVal =>
    obtain rfl := Option.some.inj hexec
    obtain ⟨hbalanced, a, rest, hl, htmp⟩ := h
    exact ⟨hbalanced, a, rest, hl, htmp, by simp [htmp, Memory.access]⟩
  case getNext =>
    obtain ⟨hbalanced, a, rest, rfl, -⟩ := h
    simp only [Op.exec, hchain.1] at hexec
    obtain rfl := Option.some.inj hexec
    exact hbalanced.unlink _
  case load u =>
    obtain rfl := Option.some.inj hexec
    cases u <;> first | exact h | exact ⟨h, rfl⟩
  case store u =>
    obtain rfl := Option.some.inj hexec
    cases u
    case addAttempts => exact h.addAttempts _
    case getAttempts => exact h.getAttempts _
    case addLength =>
      obtain ⟨hbalanced, hreg⟩ := h
      rw [hreg]
      exact hbalanced.addLength
    case getLength =>
      obtain ⟨hbalanced, hreg⟩ := h
      rw [hreg]
      exact hbalanced.getLength
    case addCount =>
      obtain ⟨hbalanced, hreg⟩ := h
      rw [hreg]
      cases v <;> exact hbalanced.addCount
    case getCount =>
      obtain ⟨hbalanced, hreg⟩ := h
      rw [hreg]
      cases v <;> exact hbalanced.getCount
  all_goals
    simpa only [Knows, Op.relink, hqueue rfl, Thread.ret, Thread.retStats] using h

/-- Nobody but the holder of the lock changes what it knows. -/
theorem Knows.frame (h : Knows v maxCount memory l t) (hqueue : memory'.queue = memory.queue)
    (hval : ∀ a ∈ l, memory'.val a = memory.val a) : Knows v maxCount memory' l t := by
  unfold Knows at h ⊢
  rw [hqueue]
  cases hpc : t.pc <;> simp only [hpc] at h ⊢
  case getNext =>
    obtain ⟨hbalanced, a, rest, rfl, htmp, hread⟩ := h
    exact ⟨hbalanced, a, rest, rfl, htmp, hread.trans (hval a (by simp)).symm⟩
  case load u => cases u <;> exact h
  case store u => cases u <;> exact h
  all_goals exact h

/-- A thread without the lock knows what is true between the critical sections. -/
theorem knows_iff_of_not_inside (ht : t.inside = false) :
    Knows v maxCount memory l t ↔ Balanced memory.queue l l.length l.length := by
  unfold Thread.inside at ht
  unfold Knows
  cases hpc : t.pc <;> simp only [hpc, reduceCtorEq] at ht ⊢

/-- A thread without the lock leaves the queue alone. -/
theorem Thread.op_of_not_inside (hop : t.op C = some o) (ht : t.inside = false) :
    o.writesQueue = false ∧ o.relink l = l := by
  unfold op at hop
  unfold inside at ht
  cases hpc : t.pc <;> simp only [hpc, Option.some.injEq, reduceCtorEq] at hop ht
  case call =>
    obtain ⟨call, -, rfl⟩ := Option.map_eq_some_iff.mp hop
    exact ⟨rfl, rfl⟩
  all_goals
    subst hop
    exact ⟨rfl, rfl⟩

end Knows
end BoundedQueue
end OperatingSystems
