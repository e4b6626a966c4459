import OperatingSystems.MyMutex.Mutex

/-!
# No lost wake-up

While `lock` is `1` and a thread sleeps on it, somebody is responsible for it: a thread
that has stored `1` and is about to call `FUTEX_WAKE`, or a contender that is awake and
comes back to the compare-exchange.

* `Attended` — the invariant, together with what the kernel's queue contains.
* `noLostWakeup` — the mutex is never free with all its contenders asleep.
-/

namespace OperatingSystems
namespace MyMutex

open Threads

/-- The thread is awake in the loop of `my_mutex_lock`, or has been woken. -/
def Contends (sleepers : List Int) (t : Thread) : Prop :=
  t.pc = .compareExchange ∨ t.pc = .futexWait ∨ (t.pc = .asleep ∧ t.tid ∉ sleepers)

/-- The thread answers for the sleepers while the mutex is free. -/
def Answers (sleepers : List Int) (t : Thread) : Prop :=
  t.pc = .futexWake ∨ Contends sleepers t

/-- The statements by which a thread takes part in the waiting. -/
def Pc.waiting : Pc → Bool
  | .compareExchange | .futexWait | .asleep | .storeLock | .futexWake => true
  | _ => false

/-- The other statements leave `lock` and the sleepers alone. -/
theorem same_of_not_waiting {t : Thread} {o : Op} {memory memory' : Memory}
    (hpc : t.pc.waiting = false) (hop : t.op = some o) (hexec : o.exec memory = some memory') :
    memory'.mutex.lock = memory.mutex.lock ∧ memory'.sleepers = memory.sleepers := by
  have hrun := Op.run_of_exec hexec
  unfold Thread.op at hop
  cases ht : t.pc <;> simp only [ht, Pc.waiting, reduceCtorEq] at hpc hop
  case idle =>
    split at hop
    · simp at hop
    · obtain rfl := Option.some.inj hop
      obtain rfl := Option.some.inj hrun
      exact ⟨rfl, rfl⟩
  all_goals
    obtain rfl := Option.some.inj hop
    obtain rfl := Option.some.inj hrun
    exact ⟨rfl, rfl⟩

theorem Answers.waiting {sleepers : List Int} {t : Thread} (h : Answers sleepers t) :
    t.pc.waiting = true := by
  obtain h | h | h | ⟨h, -⟩ := h <;> rw [h] <;> rfl

/-- Fewer sleepers need no other answer. -/
theorem Answers.mono {sleepers sleepers' : List Int} {t : Thread} (h : Answers sleepers t)
    (hsub : ∀ w ∈ sleepers', w ∈ sleepers) : Answers sleepers' t := by
  obtain h | h | h | ⟨h, hwoken⟩ := h
  · exact Or.inl h
  · exact Or.inr (Or.inl h)
  · exact Or.inr (Or.inr (Or.inl h))
  · exact Or.inr (Or.inr (Or.inr ⟨h, fun hmem => hwoken (hsub _ hmem)⟩))

section Reachable

variable {ι : Type*} {type : MutexType} {tid : ι → Int}

/-- The queue of the kernel holds threads that sleep, and a free mutex with sleepers is
attended to. -/
structure Attended (tid : ι → Int) (s : State ι Memory Thread) : Prop where
  tid_eq : ∀ i, (s.thread i).tid = tid i
  nodup : s.shared.sleepers.Nodup
  asleep : ∀ w ∈ s.shared.sleepers, ∃ j, tid j = w ∧ (s.thread j).pc = .asleep
  answered : s.shared.mutex.lock = 1 → s.shared.sleepers ≠ [] →
    ∃ i, Answers s.shared.sleepers (s.thread i)

theorem Attended.start {s : State ι Memory Thread} (h : Starts type tid s) : Attended tid s := by
  obtain ⟨hshared, hthreads⟩ := h
  refine ⟨fun i => ?_, by simp [hshared], by simp [hshared], by simp [hshared]⟩
  obtain ⟨calls, wakeups, picks, ht⟩ := hthreads i
  rw [ht]
  rfl

variable [DecidableEq ι]

/-- A step after which nobody new sleeps, and somebody still answers for the sleepers. -/
theorem Attended.of_subset {s : State ι Memory Thread} {i : ι} {memory : Memory} {t : Thread}
    (h : Attended tid s) (htid : t.tid = tid i) (hnodup : memory.sleepers.Nodup)
    (hsub : ∀ w ∈ memory.sleepers, w ∈ s.shared.sleepers)
    (hself : (s.thread i).pc = .asleep → tid i ∉ memory.sleepers)
    (hanswered : memory.mutex.lock = 1 → memory.sleepers ≠ [] → Answers memory.sleepers t ∨
      ∃ j ≠ i, Answers memory.sleepers (s.thread j)) :
    Attended tid (s.advance i memory t) := by
  refine ⟨fun j => ?_, hnodup, fun w hw => ?_, fun hlock hne => ?_⟩
  · by_cases hji : j = i
    · subst j
      rw [State.advance_thread_self, htid]
    · rw [State.advance_thread_of_ne _ _ _ hji, h.tid_eq]
  · obtain ⟨j, hj, hasleep⟩ := h.asleep w (hsub w hw)
    have hji : j ≠ i := by
      rintro rfl
      exact hself hasleep (hj ▸ hw)
    exact ⟨j, hj, by rwa [State.advance_thread_of_ne _ _ _ hji]⟩
  · obtain hself | ⟨j, hji, hj⟩ := hanswered hlock hne
    · exact ⟨i, by rwa [State.advance_thread_self]⟩
    · exact ⟨j, by rwa [State.advance_thread_of_ne _ _ _ hji]⟩

/-- A thread goes to sleep on a mutex that is taken. -/
theorem Attended.of_sleeping {s : State ι Memory Thread} {i : ι} {memory : Memory} {t : Thread}
    (h : Attended tid s) (htid : t.tid = tid i) (hasleep : t.pc = .asleep)
    (hawake : (s.thread i).pc ≠ .asleep) (hnew : tid i ∉ s.shared.sleepers)
    (hsleepers : memory.sleepers = tid i :: s.shared.sleepers)
    (hlock : memory.mutex.lock = 0) : Attended tid (s.advance i memory t) := by
  refine ⟨fun j => ?_, ?_, fun w hw => ?_, fun hfree => ?_⟩
  · by_cases hji : j = i
    · subst j
      rw [State.advance_thread_self, htid]
    · rw [State.advance_thread_of_ne _ _ _ hji, h.tid_eq]
  · rw [State.advance_shared, hsleepers]
    exact List.nodup_cons.mpr ⟨hnew, h.nodup⟩
  · rw [State.advance_shared, hsleepers, List.mem_cons] at hw
    obtain rfl | hw := hw
    · exact ⟨i, rfl, by rwa [State.advance_thread_self]⟩
    · obtain ⟨j, hj, hjasleep⟩ := h.asleep w hw
      have hji : j ≠ i := by
        rintro rfl
        exact hawake hjasleep
      exact ⟨j, hj, by rwa [State.advance_thread_of_ne _ _ _ hji]⟩
  · rw [State.advance_shared] at hfree
    omega

theorem Attended.advance {s : State ι Memory Thread} {i : ι} {o : Op} {memory : Memory}
    (htids : Tids tid) (h : Attended tid s) (hop : (s.thread i).op = some o)
    (hexec : o.exec s.shared = some memory) :
    Attended tid (s.advance i memory ((s.thread i).resume s.shared)) := by
  have htid : ((s.thread i).resume s.shared).tid = tid i := by
    rw [Thread.resume_tid, h.tid_eq]
  have hrun := Op.run_of_exec hexec
  cases hpc : (s.thread i).pc.waiting with
  | false =>
      obtain ⟨hlock, hsleepers⟩ := same_of_not_waiting hpc hop hexec
      refine h.of_subset htid (hsleepers ▸ h.nodup) (fun w hw => hsleepers ▸ hw) ?_ ?_
      · intro hasleep
        simp [hasleep, Pc.waiting] at hpc
      · rw [hlock, hsleepers]
        intro hfree hne
        obtain ⟨j, hj⟩ := h.answered hfree hne
        refine Or.inr ⟨j, ?_, hj⟩
        rintro rfl
        simp [hj.waiting] at hpc
  | true =>
      unfold Thread.op at hop
      cases ht : (s.thread i).pc <;> simp only [ht, Pc.waiting, reduceCtorEq] at hpc hop
      all_goals obtain rfl := Option.some.inj hop
      case compareExchange =>
        -- Either the mutex is taken now, or it was taken already.
        obtain rfl := Option.some.inj hrun
        refine h.of_subset htid ?_ ?_ (by simp [ht]) ?_
        · split <;> exact h.nodup
        · split <;> exact fun w => id
        · split
          · simp
          · next hlock => exact fun hfree => absurd hfree hlock
      case futexWait =>
        obtain rfl := Option.some.inj hrun
        by_cases hlock : s.shared.mutex.lock = 0
        · have hnew : tid i ∉ s.shared.sleepers := by
            intro hmem
            obtain ⟨j, hj, hasleep⟩ := h.asleep _ hmem
            obtain rfl := htids.injective hj
            simp [ht] at hasleep
          have hsleepers : Futex.sleep s.shared.mutex.lock 0 (s.thread i).tid s.shared.sleepers =
              tid i :: s.shared.sleepers := by
            rw [Futex.sleep, if_pos hlock, h.tid_eq]
          refine h.of_sleeping htid ?_ ?_ hnew hsleepers hlock
          · simp [Thread.resume, ht, hlock]
          · simp [ht]
        · have hsleepers : Futex.sleep s.shared.mutex.lock 0 (s.thread i).tid s.shared.sleepers =
              s.shared.sleepers := if_neg hlock
          rw [hsleepers]
          refine h.of_subset htid h.nodup (fun w => id) (by simp [ht]) ?_
          exact fun _ _ => Or.inl (Or.inr (Or.inl (by simp [Thread.resume, ht, hlock])))
      case asleep =>
        simp only [Op.run, h.tid_eq, Option.ite_none_left_eq_some, Option.some.injEq] at hrun
        obtain ⟨-, rfl⟩ := hrun
        refine h.of_subset htid (h.nodup.erase _) (fun w => List.mem_of_mem_erase)
          (fun _ => h.nodup.not_mem_erase) fun hfree hne => ?_
        by_cases hinterrupted : tid i ∈ s.shared.sleepers ∧ (s.thread i).wakeups 0 = .interrupted
        · -- The thread that leaves did not answer for anybody.
          obtain ⟨j, hj⟩ := h.answered hfree (List.ne_nil_of_mem hinterrupted.1)
          refine Or.inr ⟨j, ?_, hj.mono fun w => List.mem_of_mem_erase⟩
          rintro rfl
          simp [Answers, Contends, ht, h.tid_eq, hinterrupted.1] at hj
        · exact Or.inl (Or.inr (Or.inl (by simp [Thread.resume, ht, h.tid_eq, hinterrupted])))
      case storeLock =>
        obtain rfl := Option.some.inj hrun
        refine h.of_subset htid h.nodup (fun w => id) (by simp [ht]) ?_
        exact fun _ _ => Or.inl (Or.inl (by simp [Thread.resume, ht]))
      case futexWake =>
        obtain rfl := Option.some.inj hrun
        by_cases hne : s.shared.sleepers = []
        · refine h.of_subset htid ?_ ?_ (by simp [ht]) ?_ <;> simp [hne]
        · obtain ⟨w, hw, hnodup, hwake⟩ := Futex.wake_spec ((s.thread i).picks 0) hne h.nodup
          obtain ⟨j, hj, hasleep⟩ := h.asleep w hw
          refine h.of_subset htid hnodup (fun x hx => ((hwake x).mp hx).1) (by simp [ht]) ?_
          -- The woken thread answers for those that sleep on.
          refine fun _ _ => Or.inr ⟨j, ?_, Or.inr (Or.inr (Or.inr ⟨hasleep, ?_⟩))⟩
          · rintro rfl
            simp [ht] at hasleep
          · rw [h.tid_eq, hj]
            exact fun hmem => ((hwake w).mp hmem).2 rfl

theorem attended {s : State ι Memory Thread} (htids : Tids tid)
    (hs : (users ι).Reachable (Starts type tid) s) : Attended tid s := by
  refine hs.induction (I := Attended tid) (fun _ => .start) ?_
  intro s i o memory _ h _ hop hexec
  exact h.advance htids hop hexec

/-- With a free mutex, a contender is at the compare-exchange or goes there with its next
access, which does not block. -/
theorem Contends.retries {memory : Memory} {t : Thread} (h : Contends memory.sleepers t)
    (hfree : memory.mutex.lock = 1) : t.pc = .compareExchange ∨
      (t.resume memory).pc = .compareExchange ∧
        ∃ o, t.op = some o ∧ (o.run memory).isSome = true := by
  obtain h | h | ⟨h, hwoken⟩ := h
  · exact Or.inl h
  · exact Or.inr ⟨by simp [Thread.resume, h, hfree], _, by simp [Thread.op, h]; rfl, rfl⟩
  · refine Or.inr ⟨by simp [Thread.resume, h, hwoken], .endWait t.tid (t.wakeups 0), ?_, ?_⟩
    · simp [Thread.op, h]
    · simp [Op.run, hwoken]

/-- No lost wake-up: while a thread sleeps in the futex and `lock` is `1`, a thread has
stored `1` and not yet called `FUTEX_WAKE`, or a thread awake in `my_mutex_lock` retries
the compare-exchange. -/
theorem noLostWakeup {s : State ι Memory Thread} (htids : Tids tid)
    (hs : (users ι).Reachable (Starts type tid) s) {i : ι} (hsleeps : tid i ∈ s.shared.sleepers)
    (hfree : s.shared.mutex.lock = 1) :
    (∃ j, (s.thread j).pc = .futexWake) ∨
      ∃ j, Contends s.shared.sleepers (s.thread j) ∧ ((s.thread j).pc = .compareExchange ∨
        ((s.thread j).resume s.shared).pc = .compareExchange ∧
          ∃ o, (s.thread j).op = some o ∧ (o.run s.shared).isSome = true) := by
  obtain ⟨j, hwake | hj⟩ := (attended htids hs).answered hfree (List.ne_nil_of_mem hsleeps)
  · exact Or.inl ⟨j, hwake⟩
  · exact Or.inr ⟨j, hj, hj.retries hfree⟩

end Reachable

/-- Thread `0` has stored `1` and thread `1` still sleeps. -/
theorem noLostWakeup_pending :
    let start := calling .recursive fun i => if i = 0 then [.lock, .unlock] else [.lock]
    ∃ s ∈ (users Nat).runIf (fun _ _ => true) start
        (List.replicate 5 0 ++ List.replicate 5 1 ++ List.replicate 7 0),
      (2 : Int) ∈ s.shared.sleepers ∧ s.shared.mutex.lock = 1 ∧
        ((∃ j, (s.thread j).pc = .futexWake) ∨
          ∃ j, Contends s.shared.sleepers (s.thread j)) := by
  intro start
  obtain ⟨s, hrun, hs, hsleeps, hfree⟩ :=
    (Program.ReachableUnder.start (starts_calling _ _)).exists_runIf (fun _ _ _ => trivial)
      (fun s => (2 : Int) ∈ s.shared.sleepers ∧ s.shared.mutex.lock = 1)
      (by decide : ((users Nat).runIf (fun _ _ => true) start
        (List.replicate 5 0 ++ List.replicate 5 1 ++ List.replicate 7 0)).any _ = true)
  refine ⟨s, hrun, hsleeps, hfree, ?_⟩
  obtain hwake | ⟨j, hj, -⟩ := noLostWakeup (i := 1) tids_succ hs hsleeps hfree
  · exact Or.inl hwake
  · exact Or.inr ⟨j, hj⟩

end MyMutex
end OperatingSystems
