import OperatingSystems.MyMutex.Mutex

/-!
# Mutual exclusion of `my_mutex`

`Knows` is what a thread can rely on: if it has acquired the mutex, `lock` is `0` and
`owner` is its identifier, except in the two windows where it has not yet been set or
is already cleared; if it has not, `owner` is not its identifier.

* `Knows.own`, `Knows.other` — a thread keeps its own knowledge, and does not disturb
  that of the others.
* `exclusion` — at most one thread has acquired the mutex, and what every thread knows.
* `mutualExclusion` — together with the calls of `my_mutex_unlock` by a thread that is
  not the owner, which change nothing.
-/

namespace OperatingSystems
namespace MyMutex

open Threads

/-- The holder is here while `owner` is not set, or no longer. -/
def Pc.window : Pc → Bool
  | .setOwner | .clearRecursion | .storeLock => true
  | _ => false

/-- Only the holder executes these statements. -/
def Pc.holderOnly : Pc → Bool
  | .incRead | .incWrite _ | .setOwner | .setRecursion => true
  | .decRead | .decWrite _ | .clearOwner | .clearRecursion | .storeLock => true
  | _ => false

/-- The holder does not execute these statements. -/
def Pc.othersOnly : Pc → Bool
  | .compareExchange | .futexWait | .asleep | .futexWake => true
  | _ => false

/-- What the thread with this identifier can rely on. -/
structure Knows (tid : Int) (memory : Memory) (t : Thread) : Prop where
  tid_eq : t.tid = tid
  held : t.acquired = true → memory.mutex.lock = 0 ∧ t.pc.othersOnly = false ∧
    memory.mutex.owner = if t.pc.window then 0 else tid
  free : t.acquired = false → memory.mutex.owner ≠ tid ∧ t.pc.holderOnly = false

/-- The thread is about to win the compare-exchange. -/
def Wins (memory : Memory) (t : Thread) : Prop :=
  t.pc = .compareExchange ∧ memory.mutex.lock = 1

/-- A thread that does not hold the mutex can only change it by winning the
compare-exchange. -/
theorem mutex_of_not_holderOnly {t : Thread} {o : Op} {memory memory' : Memory}
    (hpc : t.pc.holderOnly = false) (hop : t.op = some o) (hexec : o.exec memory = some memory') :
    (¬ Wins memory t ∧ memory'.mutex = memory.mutex) ∨
      (Wins memory t ∧ memory'.mutex = { memory.mutex with lock := 0 }) := by
  have hrun := Op.run_of_exec hexec
  unfold Thread.op at hop
  cases ht : t.pc <;> simp only [ht, Pc.holderOnly, reduceCtorEq] at hpc hop
  case compareExchange =>
    obtain rfl := Option.some.inj hop
    simp only [Op.run, Option.some.injEq] at hrun
    subst hrun
    split
    · next hlock => exact Or.inr ⟨⟨ht, hlock⟩, rfl⟩
    · next hlock => exact Or.inl ⟨fun hwins => hlock hwins.2, rfl⟩
  all_goals
    refine Or.inl ⟨fun hwins => Pc.noConfusion (ht.symm.trans hwins.1), ?_⟩
  case idle =>
    split at hop
    · simp at hop
    · obtain rfl := Option.some.inj hop
      exact Option.some.inj hrun ▸ rfl
  case asleep =>
    obtain rfl := Option.some.inj hop
    simp only [Op.run] at hrun
    split at hrun
    · simp at hrun
    · exact Option.some.inj hrun ▸ rfl
  all_goals
    obtain rfl := Option.some.inj hop
    exact Option.some.inj hrun ▸ rfl

/-- `owner` only becomes the identifier of the thread that stores it, or `0`. -/
theorem owner_after {t : Thread} {o : Op} {memory memory' : Memory} (hop : t.op = some o)
    (hexec : o.exec memory = some memory') :
    memory'.mutex.owner = memory.mutex.owner ∨ memory'.mutex.owner = t.tid ∨
      memory'.mutex.owner = 0 := by
  by_cases hpc : t.pc.holderOnly = false
  · obtain ⟨-, h⟩ | ⟨-, h⟩ := mutex_of_not_holderOnly hpc hop hexec
    · exact Or.inl (by rw [h])
    · exact Or.inl (by rw [h])
  · have hrun := Op.run_of_exec hexec
    unfold Thread.op at hop
    cases ht : t.pc <;> simp only [ht, Pc.holderOnly, reduceCtorEq, not_true_eq_false] at hpc hop
    all_goals
      obtain rfl := Option.some.inj hop
      obtain rfl := Option.some.inj hrun
      simp

/-- `lock` becomes `1` only in `my_mutex_unlock`. -/
theorem lock_after {t : Thread} {o : Op} {memory memory' : Memory} (hop : t.op = some o)
    (hexec : o.exec memory = some memory') (hlock : memory.mutex.lock = 0) :
    t.pc = .storeLock ∨ memory'.mutex.lock = 0 := by
  by_cases hpc : t.pc.holderOnly = false
  · obtain ⟨-, h⟩ | ⟨-, h⟩ := mutex_of_not_holderOnly hpc hop hexec
    · exact Or.inr (by rw [h, hlock])
    · exact Or.inr (by rw [h])
  · have hrun := Op.run_of_exec hexec
    unfold Thread.op at hop
    cases ht : t.pc <;> simp only [ht, Pc.holderOnly, reduceCtorEq, not_true_eq_false] at hpc hop
    all_goals
      obtain rfl := Option.some.inj hop
      obtain rfl := Option.some.inj hrun
      simp [hlock]

/-- A thread without the mutex stays without it, and out of the statements of the holder,
unless it wins the compare-exchange. -/
theorem free_of_not_wins {memory : Memory} {t : Thread} (hfree : t.acquired = false)
    (howner : memory.mutex.owner ≠ t.tid) (hpc : t.pc.holderOnly = false)
    (hlost : ¬ Wins memory t) :
    (t.resume memory).acquired = false ∧ (t.resume memory).pc.holderOnly = false := by
  cases ht : t.pc <;> simp only [ht, Pc.holderOnly, reduceCtorEq] at hpc
  all_goals simp only [Thread.resume, ht]
  case idle =>
    unfold Thread.enter
    split
    · simp [hfree, ht, Pc.holderOnly]
    · simp [hfree, Pc.holderOnly]
    · simp [hfree, Pc.holderOnly]
  case lockOwner => simp [howner, hfree, Pc.holderOnly]
  case compareExchange =>
    have hlock : ¬ memory.mutex.lock = 1 := fun hlock => hlost ⟨ht, hlock⟩
    simp [hlock, hfree, Pc.holderOnly]
  case unlockOwner =>
    by_cases htype : memory.mutex.type = .errorcheck <;>
      simp [Thread.unlock, howner, htype, hfree, Pc.holderOnly]
  case lockTest =>
    by_cases hlock : memory.mutex.lock = 0 <;> simp [hlock, hfree, Pc.holderOnly]
  case futexWait =>
    by_cases hlock : memory.mutex.lock = 0 <;> simp [hlock, hfree, Pc.holderOnly]
  case asleep =>
    split <;> exact ⟨hfree, rfl⟩
  case dead => simp [hfree, Pc.holderOnly]
  all_goals exact ⟨hfree, rfl⟩

theorem Knows.of_held {tid : Int} {memory : Memory} {t : Thread} (htid : t.tid = tid)
    (hacquired : t.acquired = true) (hlock : memory.mutex.lock = 0)
    (hothers : t.pc.othersOnly = false)
    (howner : memory.mutex.owner = if t.pc.window then 0 else tid) : Knows tid memory t :=
  ⟨htid, fun _ => ⟨hlock, hothers, howner⟩, fun hfree => by simp [hfree] at hacquired⟩

theorem Knows.of_free {tid : Int} {memory : Memory} {t : Thread} (htid : t.tid = tid)
    (hfree : t.acquired = false) (howner : memory.mutex.owner ≠ tid)
    (hpc : t.pc.holderOnly = false) : Knows tid memory t :=
  ⟨htid, fun hacquired => by simp [hfree] at hacquired, fun _ => ⟨howner, hpc⟩⟩

/-- The holder keeps what it knows, until it stores `1` to `lock`. -/
theorem Knows.own_held {tid : Int} {memory memory' : Memory} {t : Thread} {o : Op}
    (h : Knows tid memory t) (hacquired : t.acquired = true) (htid : tid ≠ 0)
    (hop : t.op = some o) (hexec : o.exec memory = some memory') :
    Knows tid memory' (t.resume memory) := by
  have htid' := t.resume_tid memory
  obtain ⟨rfl, hheld, -⟩ := h
  obtain ⟨hlock, hothers, howner⟩ := hheld hacquired
  have hrun := Op.run_of_exec hexec
  unfold Thread.op at hop
  cases ht : t.pc <;>
    simp only [ht, Pc.othersOnly, Pc.window, reduceCtorEq, if_true, if_false,
      Bool.false_eq_true] at hop hothers howner
  case idle =>
    cases hcalls : t.calls with
    | nil => simp [hcalls] at hop
    | cons call calls =>
        rw [hcalls, if_neg (List.cons_ne_nil call calls)] at hop
        obtain rfl := Option.some.inj hop
        obtain rfl := Option.some.inj hrun
        cases call <;>
          refine Knows.of_held htid' ?_ hlock ?_ ?_ <;>
          simp [Thread.resume, Thread.enter, ht, hcalls, hacquired, howner, Pc.othersOnly,
            Pc.window]
  all_goals
    obtain rfl := Option.some.inj hop
    obtain rfl := Option.some.inj hrun
  case lockOwner =>
    refine Knows.of_held htid' ?_ hlock ?_ ?_ <;>
      cases htype : memory.mutex.type <;>
      simp [Thread.resume, Thread.relock, ht, hacquired, howner, htype, Pc.othersOnly, Pc.window]
  case unlockOwner =>
    refine Knows.of_held htid' ?_ hlock ?_ ?_ <;>
      by_cases htype : memory.mutex.type = .recursive <;>
      simp [Thread.resume, Thread.unlock, ht, hacquired, howner, htype, Pc.othersOnly, Pc.window]
  case decWrite value =>
    refine Knows.of_held htid' ?_ hlock ?_ ?_ <;>
      by_cases hvalue : 0 < toInt32 (value - 1) <;>
      simp [Thread.resume, ht, hacquired, howner, hvalue, Pc.othersOnly, Pc.window]
  case storeLock =>
    refine Knows.of_free htid' (by simp [Thread.resume, ht]) ?_
      (by simp [Thread.resume, ht, Pc.holderOnly])
    simpa [howner] using htid.symm
  all_goals
    refine Knows.of_held htid' ?_ ?_ ?_ ?_ <;>
      simp [Thread.resume, ht, hacquired, hlock, howner, Pc.othersOnly, Pc.window]

/-- A thread without the mutex keeps what it knows, and gains the mutex only by the
compare-exchange. -/
theorem Knows.own_free {tid : Int} {memory memory' : Memory} {t : Thread} {o : Op}
    (h : Knows tid memory t) (hfree : t.acquired = false)
    (hunlocked : memory.mutex.lock = 1 → memory.mutex.owner = 0)
    (hop : t.op = some o) (hexec : o.exec memory = some memory') :
    Knows tid memory' (t.resume memory) := by
  have htid' := t.resume_tid memory
  obtain ⟨rfl, -, hknows⟩ := h
  obtain ⟨howner, hpc⟩ := hknows hfree
  obtain ⟨hlost, hsame⟩ | ⟨⟨ht, hlock⟩, hwon⟩ := mutex_of_not_holderOnly hpc hop hexec
  · obtain ⟨hfree', hpc'⟩ := free_of_not_wins hfree howner hpc hlost
    exact Knows.of_free htid' hfree' (by rwa [hsame]) hpc'
  · refine Knows.of_held htid' ?_ ?_ ?_ ?_ <;>
      simp [Thread.resume, ht, hwon, hlock, hunlocked, Pc.othersOnly, Pc.window]

/-- A step of another thread changes nothing that a thread knows. -/
theorem Knows.other {tid tid' : Int} {memory memory' : Memory} {t u : Thread} {o : Op}
    (h : Knows tid memory t) (h' : Knows tid' memory u) (hne : tid ≠ tid') (hzero : tid' ≠ 0)
    (hexclusive : ¬ (t.acquired = true ∧ u.acquired = true))
    (hop : t.op = some o) (hexec : o.exec memory = some memory') : Knows tid' memory' u := by
  refine ⟨h'.tid_eq, fun hheld => ?_, fun hfree => ⟨?_, (h'.free hfree).2⟩⟩
  · have hpc := (h.free (by simpa [hheld] using hexclusive)).2
    obtain ⟨hlock, hothers, howner⟩ := h'.held hheld
    obtain ⟨-, hsame⟩ | ⟨⟨-, hlock'⟩, -⟩ := mutex_of_not_holderOnly hpc hop hexec
    · rw [hsame]
      exact ⟨hlock, hothers, howner⟩
    · omega
  · obtain hsame | hmine | hzero' := owner_after hop hexec
    · rw [hsame]
      exact (h'.free hfree).1
    · rw [hmine, h.tid_eq]
      exact hne
    · rw [hzero']
      exact hzero.symm

section Reachable

variable {ι : Type*} [DecidableEq ι] {type : MutexType} {tid : ι → Int}

/-- What holds of all threads together. -/
structure Exclusive (tid : ι → Int) (s : State ι Memory Thread) : Prop where
  knows : ∀ i, Knows (tid i) s.shared (s.thread i)
  unique : ∀ i j, (s.thread i).acquired = true → (s.thread j).acquired = true → i = j
  unlocked : s.shared.mutex.lock = 1 → s.shared.mutex.owner = 0

omit [DecidableEq ι] in
theorem Exclusive.start {s : State ι Memory Thread} (htids : Tids tid) (h : Starts type tid s) :
    Exclusive tid s := by
  obtain ⟨hshared, hthreads⟩ := h
  refine ⟨fun i => ?_, fun i j hi _ => ?_, fun _ => by rw [hshared]; rfl⟩
  · obtain ⟨calls, wakeups, picks, ht⟩ := hthreads i
    rw [ht, hshared]
    exact Knows.of_free rfl rfl (htids.ne_zero i).symm rfl
  · obtain ⟨calls, wakeups, picks, ht⟩ := hthreads i
    simp [ht, Thread.start] at hi

theorem Exclusive.advance {s : State ι Memory Thread} {i : ι} {o : Op} {memory : Memory}
    (htids : Tids tid) (h : Exclusive tid s) (hop : (s.thread i).op = some o)
    (hexec : o.exec s.shared = some memory) :
    Exclusive tid (s.advance i memory ((s.thread i).resume s.shared)) := by
  have hmine := h.knows i
  -- The mutex changes hands only from nobody.
  have hgain : (s.thread i).acquired = false →
      ((s.thread i).resume s.shared).acquired = true → Wins s.shared (s.thread i) := by
    intro hfree hacquired
    by_contra hlost
    obtain ⟨howner, hpc⟩ := hmine.free hfree
    have hfree' := (free_of_not_wins hfree (hmine.tid_eq ▸ howner) hpc hlost).1
    simp [hfree'] at hacquired
  have hacquired : ∀ j, j ≠ i → (s.thread j).acquired = true →
      ((s.thread i).resume s.shared).acquired = false := by
    intro j hji hj
    by_contra hi
    cases hfree : (s.thread i).acquired with
    | true => exact hji (h.unique j i hj hfree)
    | false =>
        have hlock := (hgain hfree (by simpa using hi)).2
        have := ((h.knows j).held hj).1
        omega
  refine ⟨fun j => ?_, fun j k hj hk => ?_, ?_⟩
  · by_cases hji : j = i
    · subst j
      rw [State.advance_thread_self]
      cases hfree : (s.thread i).acquired with
      | true => exact hmine.own_held hfree (htids.ne_zero i) hop hexec
      | false => exact hmine.own_free hfree h.unlocked hop hexec
    · rw [State.advance_thread_of_ne _ _ _ hji]
      refine hmine.other (h.knows j) (fun heq => hji (htids.injective heq).symm) (htids.ne_zero j)
        ?_ hop hexec
      rintro ⟨hi, hj⟩
      exact hji (h.unique j i hj hi)
  · by_cases hji : j = i
    · subst j
      by_contra hki
      rw [State.advance_thread_of_ne _ _ _ (Ne.symm hki)] at hk
      rw [State.advance_thread_self, hacquired k (Ne.symm hki) hk] at hj
      simp at hj
    · rw [State.advance_thread_of_ne _ _ _ hji] at hj
      by_cases hki : k = i
      · subst k
        rw [State.advance_thread_self, hacquired j hji hj] at hk
        simp at hk
      · rw [State.advance_thread_of_ne _ _ _ hki] at hk
        exact h.unique j k hj hk
  · intro hlock'
    rw [State.advance_shared] at hlock' ⊢
    cases hfree : (s.thread i).acquired with
    | true =>
        obtain ⟨hlock, -, howner⟩ := hmine.held hfree
        obtain hstore | hlock'' := lock_after hop hexec hlock
        · have hrun := Op.run_of_exec hexec
          simp only [Thread.op, hstore, Option.some.injEq] at hop
          subst hop
          simpa [Op.run, hstore, Pc.window, ← Option.some.inj hrun] using howner
        · omega
    | false =>
        obtain ⟨-, hsame⟩ | ⟨-, hwon⟩ := mutex_of_not_holderOnly (hmine.free hfree).2 hop hexec
        · rw [hsame] at hlock' ⊢
          exact h.unlocked hlock'
        · simp [hwon] at hlock'

theorem exclusion {s : State ι Memory Thread} (htids : Tids tid)
    (hs : (users ι).Reachable (Starts type tid) s) : Exclusive tid s := by
  refine hs.induction (I := Exclusive tid) (fun _ => .start htids) ?_
  intro s i o memory _ h _ hop hexec
  exact h.advance htids hop hexec

/-- The statements of `my_mutex_unlock`. -/
def Pc.unlocking : Pc → Bool
  | .unlockOwner | .decRead | .decWrite _ | .clearOwner | .clearRecursion | .storeLock => true
  | .futexWake | .abort => true
  | _ => false

/-- A call of `my_mutex_unlock` by a thread that does not hold the mutex. -/
theorem unlock_free {s s' s'' : State ι Memory Thread} {i : ι} (htids : Tids tid)
    (hs : (users ι).Reachable (Starts type tid) s) (hfree : (s.thread i).acquired = false)
    (hs' : (users ι).ReachableUnder (· = s)
      (fun u j => j = i → (u.thread i).pc.unlocking = true) s')
    (hunlocking : (s'.thread i).pc.unlocking = true) (hstep : (users ι).step s' i = some s'') :
    s''.shared.mutex = s'.shared.mutex := by
  have hlost : ∀ u : State ι Memory Thread, (u.thread i).pc.unlocking = true →
      ¬ Wins u.shared (u.thread i) := by
    rintro u hpc ⟨hcas, -⟩
    simp [hcas, Pc.unlocking] at hpc
  have hknows : ∀ u, (users ι).Reachable (Starts type tid) u → (u.thread i).acquired = false →
      u.shared.mutex.owner ≠ (u.thread i).tid ∧ (u.thread i).pc.holderOnly = false := by
    intro u hu hfree
    have h := (exclusion htids hu).knows i
    exact h.tid_eq ▸ h.free hfree
  have hfree' : (s'.thread i).acquired = false := by
    refine hs'.induction (I := fun u => (u.thread i).acquired = false) (fun u hu => hu ▸ hfree) ?_
    intro u j o memory hu hfree hok _ _
    by_cases hji : j = i
    · subst j
      obtain ⟨howner, hpc⟩ := hknows u (hs.trans hu) hfree
      rw [State.advance_thread_self]
      exact (free_of_not_wins hfree howner hpc (hlost u (hok rfl))).1
    · rwa [State.advance_thread_of_ne _ _ _ (Ne.symm hji)]
  obtain ⟨o, memory, hop, hexec, rfl⟩ := (users ι).step_eq_some_iff.mp hstep
  have hpc := (hknows s' (hs.trans hs') hfree').2
  obtain ⟨-, hsame⟩ | ⟨hwins, -⟩ := mutex_of_not_holderOnly hpc hop hexec
  · exact hsame
  · exact absurd hwins (hlost s' hunlocking)

/-- Mutual exclusion: one thread at a time has acquired the mutex, `owner` names nobody
else, and a call of `my_mutex_unlock` by another thread leaves the mutex as it is, up to
its last step. -/
theorem mutualExclusion {s : State ι Memory Thread} (htids : Tids tid)
    (hs : (users ι).Reachable (Starts type tid) s) :
    (∀ i j, (s.thread i).acquired = true → (s.thread j).acquired = true → i = j) ∧
      (∀ i, s.shared.mutex.owner = tid i → (s.thread i).acquired = true) ∧
      ∀ i, (s.thread i).pc = .unlockOwner → s.shared.mutex.owner ≠ tid i →
        ∀ s', (users ι).ReachableUnder (· = s)
            (fun u j => j = i → (u.thread i).pc.unlocking = true) s' →
          (s'.thread i).pc.unlocking = true → ∀ s'', (users ι).step s' i = some s'' →
            s''.shared.mutex = s'.shared.mutex := by
  have h := exclusion htids hs
  refine ⟨h.unique, fun i howner => ?_, fun i hpc howner s' hs' hunlocking s'' hstep => ?_⟩
  · by_contra hfree
    exact ((h.knows i).free (by simpa using hfree)).1 howner
  · have hfree : (s.thread i).acquired = false := by
      by_contra hacquired
      obtain ⟨-, -, howner'⟩ := (h.knows i).held (by simpa using hacquired)
      simp [hpc, Pc.window, howner] at howner'
    exact unlock_free htids hs hfree hs' hunlocking hstep

end Reachable

/-- Thread `0` holds the mutex while thread `1` calls `my_mutex_unlock`. -/
theorem mutualExclusion_contended :
    let start := calling .normal fun i => if i = 0 then [.lock] else [.unlock]
    ∃ s ∈ (users Nat).runIf (fun _ _ => true) start [0, 0, 0, 0, 1],
      (s.thread 0).acquired = true ∧ s.shared.mutex.owner = 1 ∧ (s.thread 1).acquired = false ∧
        ∀ s', (users Nat).step s 1 = some s' → s'.shared.mutex = s.shared.mutex := by
  intro start
  obtain ⟨s, hrun, hs, hheld, howner, hfree, hpc⟩ :=
    (Program.ReachableUnder.start (starts_calling _ _)).exists_runIf (fun _ _ _ => trivial)
      (fun s => (s.thread 0).acquired = true ∧ s.shared.mutex.owner = 1 ∧
        (s.thread 1).acquired = false ∧ (s.thread 1).pc = .unlockOwner)
      (by decide : ((users Nat).runIf (fun _ _ => true) start [0, 0, 0, 0, 1]).any _ = true)
  obtain ⟨-, -, hunlock⟩ := mutualExclusion tids_succ hs
  exact ⟨s, hrun, hheld, howner, hfree,
    hunlock 1 hpc (by rw [howner]; decide) s (.start rfl) (by rw [hpc]; rfl)⟩

end MyMutex
end OperatingSystems
