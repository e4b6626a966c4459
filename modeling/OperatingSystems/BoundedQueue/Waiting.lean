import OperatingSystems.BoundedQueue.Delivery

/-!
# Nobody waits in vain

The version with condition variables.  A thread in `waiters` has not been signalled.

* `Waiting` — whoever waits has a reason to, or somebody is about to broadcast.
* `Blocked` — a thread that nothing but another thread can wake.
* `neverStalls` — the producers and the consumers are never blocked all at once.
-/

namespace OperatingSystems
namespace BoundedQueue

open Threads

/-- The condition that a thread waits for does not hold. -/
def Condition.Unmet (q : Queue) : Condition → Prop
  | .notFull => q.count = q.maxCount
  | .notEmpty => q.count = 0

instance (q : Queue) (c : Condition) : Decidable (c.Unmet q) := by
  cases c <;> exact inferInstanceAs (Decidable (_ = _))

/-- The thread is in `pthread_cond_wait`. -/
def Pc.sleeps : Pc → Option Condition
  | .addAsleep => some .notFull
  | .getAsleep => some .notEmpty
  | _ => none

/-- The thread has decided to wait. -/
def Pc.suspends : Pc → Option Condition
  | .addWait => some .notFull
  | .getWait => some .notEmpty
  | _ => none

/-- The thread has changed `count` and not broadcast yet. -/
def Pc.announces : Pc → Option Condition
  | .load .getCount | .store .getCount | .getBroadcast => some .notFull
  | .load .addCount | .store .addCount | .addBroadcast => some .notEmpty
  | _ => none

/-- `count` after an access. -/
def Op.recount (count : Int) : Op → Int
  | .store .addLength value | .store .getLength value => value
  | _ => count

section Step

variable {ι κ : Type*} {C : Client κ} {maxCount : Nat} {memory memory' : Memory ι}
  {l : List Nat} {t : Thread κ} {o : Op} {i : ι} {c : Condition}

theorem Op.exec_count [DecidableEq ι] (hexec : o.exec i memory = some memory') :
    memory'.queue.count = o.recount memory.queue.count ∧
      memory'.queue.maxCount = memory.queue.maxCount := by
  by_cases ho : o.writesQueue = false
  · rw [Op.exec_queue hexec ho]
    cases o <;> first | exact ⟨rfl, rfl⟩ | cases ho
  · cases o <;> simp only [writesQueue, not_true_eq_false, Bool.true_eq_false,
      not_false_eq_true] at ho
    case store u value =>
      obtain rfl := Option.some.inj hexec
      cases u <;> exact ⟨rfl, rfl⟩
    case moveLast =>
      simp only [exec] at hexec
      split at hexec <;> exact Option.some.inj hexec ▸ ⟨rfl, rfl⟩
    case unlink value =>
      simp only [exec] at hexec
      split at hexec <;> exact Option.some.inj hexec ▸ ⟨rfl, rfl⟩
    all_goals exact Option.some.inj hexec ▸ ⟨rfl, rfl⟩

/-- The accesses that are not about a condition variable. -/
theorem Op.exec_waiters [DecidableEq ι] (hexec : o.exec i memory = some memory')
    (hwait : ∀ c, o ≠ .wait c) (hwake : ∀ c, o ≠ .wake c) (hbroadcast : ∀ c, o ≠ .broadcast c) :
    memory'.waiters = memory.waiters := by
  cases o
  case wait c => exact absurd rfl (hwait c)
  case wake c => exact absurd rfl (hwake c)
  case broadcast c => exact absurd rfl (hbroadcast c)
  case malloc address =>
    cases address with
    | none => exact Option.some.inj hexec ▸ rfl
    | some a => exact Option.some.inj (Option.ite_none_left_eq_some.mp hexec).2 ▸ rfl
  case free p => cases p <;> exact Option.some.inj hexec ▸ rfl
  case lock => exact Option.some.inj (Option.ite_none_left_eq_some.mp hexec).2 ▸ rfl
  case unlock failed => cases failed <;> exact Option.some.inj hexec ▸ rfl
  case link a val =>
    simp only [exec] at hexec
    split at hexec <;> exact Option.some.inj hexec ▸ rfl
  case moveLast =>
    simp only [exec] at hexec
    split at hexec <;> exact Option.some.inj hexec ▸ rfl
  case unlink val =>
    simp only [exec] at hexec
    split at hexec <;> exact Option.some.inj hexec ▸ rfl
  all_goals exact Option.some.inj hexec ▸ rfl

/-- Who waits after an access: only the acting thread can begin to wait. -/
theorem Op.mem_waiters [DecidableEq ι] {j : ι} (hexec : o.exec i memory = some memory')
    (hj : j ∈ memory'.waiters c) :
    (j ∈ memory.waiters c ∧ o ≠ .broadcast c ∧ (j = i → o ≠ .wake c)) ∨
      (j = i ∧ o = .wait c) := by
  cases o
  case wait d =>
    obtain rfl := Option.some.inj hexec
    dsimp only at hj
    by_cases hd : c = d
    · subst hd
      rw [Function.update_self, Finset.mem_insert] at hj
      exact hj.symm.imp (⟨·, nofun, nofun⟩) (⟨·, rfl⟩)
    · rw [Function.update_of_ne hd] at hj
      exact .inl ⟨hj, nofun, nofun⟩
  case wake d =>
    obtain rfl := Option.some.inj hexec
    dsimp only at hj
    by_cases hd : c = d
    · subst hd
      rw [Function.update_self, Finset.mem_erase] at hj
      exact .inl ⟨hj.2, nofun, fun hji => absurd hji hj.1⟩
    · rw [Function.update_of_ne hd] at hj
      exact .inl ⟨hj, nofun, fun _ h => hd (Op.wake.inj h).symm⟩
  case broadcast d =>
    obtain rfl := Option.some.inj hexec
    dsimp only at hj
    by_cases hd : c = d
    · subst hd
      rw [Function.update_self] at hj
      exact absurd hj (Finset.notMem_empty j)
    · rw [Function.update_of_ne hd] at hj
      exact .inl ⟨hj, fun h => hd (Op.broadcast.inj h).symm, nofun⟩
  all_goals
    rw [Op.exec_waiters hexec nofun nofun nofun] at hj
    exact .inl ⟨hj, nofun, nofun⟩

namespace Thread

theorem op_sleeps (h : t.pc.sleeps = some c) : t.op C = some (.wake c) := by
  unfold Pc.sleeps at h
  unfold op
  cases hpc : t.pc <;> simp only [hpc, reduceCtorEq, Option.some.injEq] at h <;> rw [← h]

variable (memory) in
theorem op_wait (hop : t.op C = some (.wait c)) :
    t.pc.suspends = some c ∧ ∀ v, (t.resume v C memory).pc.sleeps = some c := by
  unfold op at hop
  unfold resume
  cases hpc : t.pc <;> simp only [hpc, reduceCtorEq, Option.some.injEq] at hop
  case call => simp at hop
  all_goals
    cases hop
    exact ⟨rfl, fun _ => rfl⟩

theorem op_announces (h : t.pc.announces = some c) (hop : t.op C = some o) :
    t.inside = true ∧ o ≠ .wait c ∧
      ((t.resume .conditionalVarible C memory).pc.announces = some c ∨ o = .broadcast c) := by
  unfold Pc.announces at h
  unfold op at hop
  unfold resume inside
  cases hpc : t.pc <;> simp only [hpc, reduceCtorEq, Option.some.injEq] at h hop
  case load u => cases u <;> cases h <;> cases hop <;> exact ⟨rfl, nofun, .inl rfl⟩
  case store u => cases u <;> cases h <;> cases hop <;> exact ⟨rfl, nofun, .inl rfl⟩
  all_goals
    subst h hop
    exact ⟨rfl, nofun, .inr rfl⟩

/-- A thread decides to wait after it has looked at the condition. -/
theorem unmet_of_suspends (hop : t.op C = some o)
    (h : (t.resume .conditionalVarible C memory).pc.suspends = some c) :
    o = .load ∧ c.Unmet memory.queue := by
  unfold op at hop
  unfold resume at h
  cases hpc : t.pc <;> simp only [hpc, reduceCtorEq, Option.some.injEq] at h hop
  case call =>
    obtain ⟨call, hcall, rfl⟩ := Option.map_eq_some_iff.mp hop
    rw [hcall] at h
    cases call <;> simp [Pc.suspends] at h
  case addFull =>
    subst hop
    split at h
    · next hfull =>
      simp only [Pc.suspends, if_true, Option.some.injEq] at h
      exact ⟨rfl, h ▸ hfull⟩
    · simp [Pc.suspends] at h
  case getEmpty =>
    subst hop
    split at h
    · next hempty =>
      simp only [Pc.suspends, if_true, Option.some.injEq] at h
      exact ⟨rfl, h ▸ hempty⟩
    · simp [Pc.suspends] at h
  case store u => cases u <;> simp [Pc.suspends, Update.next] at h
  case addMalloc | addAssert | addFirst | getAssert =>
    split at h <;> simp [Pc.suspends] at h
  all_goals simp [Pc.suspends, ret, retStats] at h

/-- This version prints without the lock. -/
theorem statsPrint_resume (hop : t.op C = some o) (h : t.pc.kind = .stats → t.pc = .statsPrint)
    (hkind : (t.resume .conditionalVarible C memory).pc.kind = .stats) :
    (t.resume .conditionalVarible C memory).pc = .statsPrint := by
  unfold op at hop
  unfold resume at hkind ⊢
  cases hpc : t.pc <;> simp only [hpc, reduceCtorEq] at hkind hop h ⊢
  case call =>
    obtain ⟨call, hcall, -⟩ := Option.map_eq_some_iff.mp hop
    rw [hcall] at hkind ⊢
    cases call <;> simp [Pc.kind] at hkind ⊢
  case store u => cases u <;> simp [Pc.kind, Update.next, Update.kind] at hkind
  case load u => cases u <;> simp [Pc.kind, Update.kind] at hkind
  case addMalloc | addAssert | addFull | addFirst | getAssert | getEmpty =>
    split at hkind <;> simp [Pc.kind] at hkind
  all_goals simp [Pc.kind, Update.kind, ret, retStats] at hkind h

/-- A change of `count` for which somebody may wait is announced. -/
theorem unmet_or_announces [DecidableEq ι]
    (hknows : t.inside = true → Knows .conditionalVarible maxCount memory l t)
    (hlength : l.length ≤ maxCount) (hmax : memory.queue.maxCount = maxCount)
    (hop : t.op C = some o) (hexec : o.exec i memory = some memory') (h : c.Unmet memory.queue) :
    c.Unmet memory'.queue ∨ (t.resume .conditionalVarible C memory).pc.announces = some c := by
  obtain ⟨hcount, hmax'⟩ := Op.exec_count hexec
  have hkept : o.recount memory.queue.count = memory.queue.count → c.Unmet memory'.queue := by
    intro hrecount
    rw [hrecount] at hcount
    cases c <;> simp only [Condition.Unmet, hcount, hmax'] <;> exact h
  cases o
  case store u value =>
    have hpc : t.pc = .store u ∧ value = u.apply t.reg := by
      unfold op at hop
      cases hpc : t.pc <;> simp only [hpc, reduceCtorEq, Option.some.injEq] at hop
      case call => simp at hop
      case store w =>
        cases hop
        exact ⟨rfl, rfl⟩
    obtain ⟨hpc, rfl⟩ := hpc
    have hinside : t.inside = true := by simp [inside, hpc]
    have hknows := hknows hinside
    unfold Knows at hknows
    rw [hpc] at hknows
    cases u
    case addLength =>
      cases c
      case notEmpty => exact .inr (by simp [resume, hpc, Update.next, Pc.announces])
      case notFull =>
        -- There is room for the new value, so nobody waits for room.
        have hroom := hknows.1.count
        simp only [Condition.Unmet] at h
        omega
    case getLength =>
      cases c
      case notFull => exact .inr (by simp [resume, hpc, Update.next, Pc.announces])
      case notEmpty =>
        have hvalue := hknows.1.count
        simp only [Condition.Unmet] at h
        omega
    all_goals exact .inl (hkept rfl)
  all_goals exact .inl (hkept rfl)

end Thread
end Step

/-- Who waits and why. -/
structure Waiting {ι κ : Type*} (s : State ι (Memory ι) (Thread κ)) : Prop where
  asleep : ∀ i c, i ∈ s.shared.waiters c → (s.thread i).pc.sleeps = some c
  unmet : ∀ i c, i ∈ s.shared.waiters c →
    c.Unmet s.shared.queue ∨ ∃ j, (s.thread j).pc.announces = some c
  suspended : ∀ i c, (s.thread i).pc.suspends = some c → c.Unmet s.shared.queue
  prints : ∀ i, (s.thread i).pc.kind = .stats → (s.thread i).pc = .statsPrint

section Waiting

variable {ι κ : Type*} {C : Client κ} {maxCount : Nat}
  {s : State ι (Memory ι) (Thread κ)} {l : List Nat} {i j : ι} {o : Op} {memory : Memory ι}

theorem Thread.inside_of_suspends {t : Thread κ} {c : Condition} (h : t.pc.suspends = some c) :
    t.inside = true := by
  unfold Pc.suspends at h
  unfold inside
  cases hpc : t.pc <;> simp [hpc] at h ⊢

theorem Waiting.start (hs : Starts maxCount s) : Waiting s := by
  obtain ⟨hshared, hthread⟩ := hs
  refine ⟨fun i c hi => ?_, fun i c hi => ?_, fun i c hi => ?_, fun i hi => ?_⟩
  · simp [hshared, Memory.init] at hi
  · simp [hshared, Memory.init] at hi
  · obtain ⟨client, addresses, ht⟩ := hthread i
    simp [ht, Thread.start, Pc.suspends] at hi
  · obtain ⟨client, addresses, ht⟩ := hthread i
    simp [ht, Thread.start, Pc.kind] at hi

theorem Waiting.advance [DecidableEq ι] (h : Waiting s)
    (hinv : Invariant .conditionalVarible maxCount s l)
    (hop : (s.thread i).op C = some o) (hexec : o.exec i s.shared = some memory) :
    Waiting (s.advance i memory ((s.thread i).resume .conditionalVarible C s.shared)) := by
  have hself := State.advance_thread_self s i memory
    ((s.thread i).resume .conditionalVarible C s.shared)
  have hother : ∀ {j}, j ≠ i → (s.advance i memory
      ((s.thread i).resume .conditionalVarible C s.shared)).thread j = s.thread j :=
    fun hj => State.advance_thread_of_ne s memory _ hj
  -- A step that meets a condition is followed by the broadcast on it.
  have hcount : ∀ {c : Condition}, c.Unmet s.shared.queue → c.Unmet memory.queue ∨
      ((s.thread i).resume .conditionalVarible C s.shared).pc.announces = some c := fun hc =>
    Thread.unmet_or_announces (hinv.knows i) hinv.sound.length_le hinv.sound.maxCount hop hexec hc
  refine ⟨fun j c hj => ?_, fun j c hj => ?_, fun j c hj => ?_, fun j hj => ?_⟩
  · rcases Op.mem_waiters hexec hj with ⟨hwaits, -, hwake⟩ | ⟨rfl, rfl⟩
    · by_cases hji : j = i
      · -- The only access of a waiting thread is to wake up.
        subst j
        have hwakes := Thread.op_sleeps (C := C) (h.asleep i c hwaits)
        exact absurd (Option.some.inj (hop.symm.trans hwakes)) (hwake rfl)
      · rw [hother hji]
        exact h.asleep j c hwaits
    · rw [hself]
      exact (Thread.op_wait _ hop).2 _
  -- A thread that sleeps afterwards slept before and was not woken, or falls asleep now.
  · have hwhy : c.Unmet s.shared.queue ∨
        ∃ k, (s.thread k).pc.announces = some c ∧ o ≠ .broadcast c := by
      rcases Op.mem_waiters hexec hj with ⟨hwaits, hbroadcast, -⟩ | ⟨rfl, rfl⟩
      · exact (h.unmet j c hwaits).imp_right fun ⟨k, hk⟩ => ⟨k, hk, hbroadcast⟩
      · exact .inl (h.suspended j c (Thread.op_wait memory hop).1)
    rcases hwhy with hunmet | ⟨k, hk, hbroadcast⟩
    · refine (hcount hunmet).imp_right fun hannounces => ⟨i, ?_⟩
      rw [hself]
      exact hannounces
    · refine .inr ⟨k, ?_⟩
      by_cases hki : k = i
      · subst k
        rw [hself]
        exact ((Thread.op_announces hk hop).2.2).resolve_right hbroadcast
      · rw [hother hki]
        exact hk
  · by_cases hji : j = i
    · subst j
      rw [hself] at hj
      obtain ⟨rfl, hunmet⟩ := Thread.unmet_of_suspends hop hj
      obtain rfl := Option.some.inj hexec
      exact hunmet
    · rw [hother hji] at hj
      -- `j` is between its test and its wait, inside: `i` cannot touch the queue.
      have hinside := Thread.inside_of_suspends hj
      have houtside : (s.thread i).inside = false :=
        Bool.eq_false_iff.mpr fun hi => hji (hinv.exclusive j i hinside hi)
      have hqueue := Op.exec_queue hexec (Thread.op_of_not_inside (l := l) hop houtside).1
      rw [State.advance_shared, hqueue]
      exact h.suspended j c hj
  · by_cases hji : j = i
    · subst j
      rw [hself] at hj ⊢
      exact Thread.statsPrint_resume hop (h.prints i) hj
    · rw [hother hji] at hj ⊢
      exact h.prints j hj

theorem Waiting.of_reachable [DecidableEq ι]
    (hs : (threads .conditionalVarible C ι).Reachable (Starts maxCount) s) :
    Waiting s ∧ ∃ l, Invariant .conditionalVarible maxCount s l := by
  refine hs.induction
    (I := fun s => Waiting s ∧ ∃ l, Invariant .conditionalVarible maxCount s l) ?_ ?_
  · exact fun s h => ⟨.start h, [], .start h⟩
  · rintro s i o memory - ⟨h, l, hinv⟩ - hop hexec
    exact ⟨h.advance hinv hop hexec, _, hinv.advance hop hexec⟩

/-- The thread is in `queue_add` or about to call it. -/
def Thread.Produces (C : Client κ) (t : Thread κ) : Prop :=
  t.pc.kind = .add ∨ (t.pc = .call ∧ ∃ val, C.call t.client = some (.add val))

/-- The thread is in `queue_get` or about to call it. -/
def Thread.Consumes (C : Client κ) (t : Thread κ) : Prop :=
  t.pc.kind = .get ∨ (t.pc = .call ∧ C.call t.client = some .get)

/-- The thread waits and has not been signalled, or it waits for the lock. -/
def Blocked (C : Client κ) (s : State ι (Memory ι) (Thread κ)) (i : ι) : Prop :=
  (∃ c, i ∈ s.shared.waiters c) ∨ ((s.thread i).op C = some .lock ∧ s.shared.lock = 0)

namespace Waiting

theorem inside_of_announces {t : Thread κ} {c : Condition} (h : t.pc.announces = some c) :
    t.inside = true := by
  unfold Pc.announces at h
  unfold Thread.inside
  cases hpc : t.pc <;> simp [hpc] at h ⊢

theorem outside_of_sleeps {t : Thread κ} {c : Condition} (h : t.pc.sleeps = some c) :
    t.inside = false := by
  unfold Pc.sleeps at h
  unfold Thread.inside
  cases hpc : t.pc <;> simp [hpc] at h ⊢

theorem outside_of_lock {t : Thread κ} (hop : t.op C = some .lock) : t.inside = false := by
  unfold Thread.op at hop
  unfold Thread.inside
  cases hpc : t.pc <;> simp [hpc] at hop ⊢

/-- The holder of the lock is not blocked. -/
theorem not_blocked (h : Waiting s) (hinside : (s.thread i).inside = true) : ¬Blocked C s i := by
  rintro (⟨c, hi⟩ | ⟨hop, -⟩)
  · simp [outside_of_sleeps (h.asleep i c hi)] at hinside
  · simp [outside_of_lock hop] at hinside

/-- Only producers and consumers hold the lock. -/
theorem kind_of_inside [DecidableEq ι] (h : Waiting s)
    (hinv : Invariant .conditionalVarible maxCount s l) (hinside : (s.thread i).inside = true) :
    (s.thread i).pc.kind = .add ∨ (s.thread i).pc.kind = .get := by
  have hprints := h.prints i
  have hknows := hinv.knows i hinside
  unfold Thread.inside at hinside
  unfold Knows at hknows
  cases hpc : (s.thread i).pc <;> simp only [hpc, reduceCtorEq] at hinside hknows hprints
  case load u => cases u <;> simp [Pc.kind, Update.kind]
  case store u => cases u <;> simp [Pc.kind, Update.kind]
  all_goals simp [Pc.kind] at hprints ⊢

/-- While the lock is free, whoever waits has a reason to. -/
theorem unmet_of_free (h : Waiting s) (hnone : ∀ j, (s.thread j).inside = false)
    {c : Condition} (hi : i ∈ s.shared.waiters c) :
    c.Unmet s.shared.queue := by
  refine (h.unmet i c hi).resolve_right ?_
  rintro ⟨j, hj⟩
  exact absurd (inside_of_announces hj) (by simp [hnone j])

/-- A thread that is blocked while the lock is free waits for its condition. -/
theorem unmet_of_blocked [DecidableEq ι] (h : Waiting s)
    (hinv : Invariant .conditionalVarible maxCount s l)
    (hnone : ∀ j, (s.thread j).inside = false) (hi : Blocked C s i) :
    ∃ c, (s.thread i).pc.sleeps = some c ∧ c.Unmet s.shared.queue := by
  rcases hi with ⟨c, hi⟩ | ⟨-, hlock⟩
  · exact ⟨c, h.asleep i c hi, h.unmet_of_free hnone hi⟩
  · simp [hinv.free hnone] at hlock

end Waiting

theorem Thread.Produces.sleeps {t : Thread κ} {c : Condition} (h : t.Produces C)
    (hc : t.pc.sleeps = some c) : c = .notFull := by
  unfold Pc.sleeps at hc
  cases hpc : t.pc <;> simp [hpc, Produces, Pc.kind] at h hc ⊢
  exact hc.symm

theorem Thread.Consumes.sleeps {t : Thread κ} {c : Condition} (h : t.Consumes C)
    (hc : t.pc.sleeps = some c) : c = .notEmpty := by
  unfold Pc.sleeps at hc
  cases hpc : t.pc <;> simp [hpc, Consumes, Pc.kind] at h hc ⊢
  exact hc.symm

/-- In every reachable state a producer waits only while the queue is full and a consumer only
while it is empty, up to the broadcast of the thread that has just changed `count` with the
lock; and the producers and the consumers are not all blocked. -/
theorem neverStalls [DecidableEq ι]
    (hs : (threads .conditionalVarible C ι).Reachable (Starts maxCount) s) :
    (∀ i ∈ s.shared.waiters .notFull, (s.thread i).pc = .addAsleep ∧
      (s.shared.queue.count = maxCount ∨
        ∃ j, (s.thread j).inside = true ∧ (s.thread j).pc.announces = some .notFull)) ∧
    (∀ i ∈ s.shared.waiters .notEmpty, (s.thread i).pc = .getAsleep ∧
      (s.shared.queue.count = 0 ∨
        ∃ j, (s.thread j).inside = true ∧ (s.thread j).pc.announces = some .notEmpty)) ∧
    (1 ≤ maxCount → ∀ i j, (s.thread i).Produces C → (s.thread j).Consumes C →
      ∃ k, ((s.thread k).Produces C ∨ (s.thread k).Consumes C) ∧ ¬Blocked C s k) := by
  obtain ⟨h, l, hinv⟩ := Waiting.of_reachable hs
  have hmax := hinv.sound.maxCount
  have hannounces : ∀ {c}, (∃ j, (s.thread j).pc.announces = some c) →
      ∃ j, (s.thread j).inside = true ∧ (s.thread j).pc.announces = some c :=
    fun ⟨j, hj⟩ => ⟨j, Waiting.inside_of_announces hj, hj⟩
  refine ⟨fun i hi => ⟨?_, ?_⟩, fun i hi => ⟨?_, ?_⟩, fun hpos i j hproduces hconsumes => ?_⟩
  · have hsleeps := h.asleep i .notFull hi
    unfold Pc.sleeps at hsleeps
    split at hsleeps <;> simp_all
  · exact (h.unmet i .notFull hi).imp (fun hfull => hmax ▸ hfull) hannounces
  · have hsleeps := h.asleep i .notEmpty hi
    unfold Pc.sleeps at hsleeps
    split at hsleeps <;> simp_all
  · exact (h.unmet i .notEmpty hi).imp_right hannounces
  · by_cases hnone : ∀ k, (s.thread k).inside = false
    · -- Nobody has the lock: a blocked producer and a blocked consumer contradict each other.
      by_cases hi : Blocked C s i
      · by_cases hj : Blocked C s j
        · obtain ⟨c, hsleeps, hfull⟩ := h.unmet_of_blocked hinv hnone hi
          obtain rfl := hproduces.sleeps hsleeps
          obtain ⟨d, hsleeps, hempty⟩ := h.unmet_of_blocked hinv hnone hj
          obtain rfl := hconsumes.sleeps hsleeps
          simp only [Condition.Unmet] at hfull hempty
          omega
        · exact ⟨j, .inr hconsumes, hj⟩
      · exact ⟨i, .inl hproduces, hi⟩
    · obtain ⟨k, hk⟩ := not_forall.mp hnone
      have hinside := (Bool.not_eq_false _).mp hk
      exact ⟨k, (h.kind_of_inside hinv hinside).imp .inl .inl, h.not_blocked hinside⟩

/-- The writer fills a queue for one value and waits; then the reader makes `n` steps. -/
def waitSchedule (n : Nat) : List Role :=
  List.replicate 27 .writer ++ List.replicate n .reader

theorem neverStalls_waited :
    ∃ s ∈ (threads .conditionalVarible queueThreads Role).runIf (fun _ _ => true) mainState
        (waitSchedule 1),
      .writer ∈ s.shared.waiters .notFull ∧ (s.thread .reader).pc = .getLock ∧
        (s.shared.queue.count = 1 ∨
          ∃ j, (s.thread j).inside = true ∧ (s.thread j).pc.announces = some .notFull) ∧
        ∃ k, ((s.thread k).Produces queueThreads ∨ (s.thread k).Consumes queueThreads) ∧
          ¬Blocked queueThreads s k := by
  have hmain : StartsMain 1 mainState := ⟨rfl, ⟨some, rfl⟩, ⟨some, rfl⟩, ⟨some, rfl⟩⟩
  obtain ⟨s, hrun, hs, hwaits, hwriter, hreader⟩ :=
    (Program.ReachableUnder.start hmain.starts).exists_runIf (fun _ _ _ => trivial)
      (fun s => .writer ∈ s.shared.waiters .notFull ∧ (s.thread .writer).pc = .addAsleep ∧
        (s.thread .reader).pc = .getLock)
      (by decide +kernel : ((threads .conditionalVarible queueThreads Role).runIf
        (fun _ _ => true) mainState (waitSchedule 1)).any _ = true)
  obtain ⟨hfull, -, hkinds⟩ := neverStalls hs
  refine ⟨s, hrun, hwaits, hreader, (hfull _ hwaits).2, hkinds le_rfl .writer .reader ?_ ?_⟩
  · exact .inl (by rw [hwriter]; rfl)
  · exact .inl (by rw [hreader]; rfl)

/-- The reader has made room and not broadcast yet. -/
theorem notFull_of_waits_false :
    ¬∀ s, (threads .conditionalVarible queueThreads Role).Reachable (Starts 1) s →
      ∀ i ∈ s.shared.waiters .notFull, s.shared.queue.count = s.shared.queue.maxCount := by
  intro h
  have hmain : StartsMain 1 mainState := ⟨rfl, ⟨some, rfl⟩, ⟨some, rfl⟩, ⟨some, rfl⟩⟩
  obtain ⟨s, -, hs, hwaits, hroom⟩ :=
    (Program.ReachableUnder.start hmain.starts).exists_runIf (fun _ _ _ => trivial)
      (fun s => .writer ∈ s.shared.waiters .notFull ∧
        s.shared.queue.count ≠ s.shared.queue.maxCount)
      (by decide +kernel : ((threads .conditionalVarible queueThreads Role).runIf
        (fun _ _ => true) mainState (waitSchedule 11)).any _ = true)
  exact hroom (h s hs _ hwaits)

end Waiting
end BoundedQueue
end OperatingSystems
