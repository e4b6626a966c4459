import OperatingSystems.UThread.RingWalk

/-!
# Sleeping green threads

`u_thread_usleep` returns early when the walk of the scheduler comes back to its caller
without having looked at a thread that is due.  The main thread is due unless it was
left with a date in the future, but the walk passes over it right after it has taken a
finished thread off the ring.

* `Runs` — who runs, and whose code the contexts continue.
* `Rested` — the running thread does not come back from `u_thread_usleep` too early.
* `noEarlyWakeup` — the calls of `u_thread_usleep` after which this holds.
-/

namespace OperatingSystems
namespace UThread

/-- A thread other than the main one runs only as the current thread; the contexts of
unfinished threads continue their own code. -/
structure Runs (s : State) : Prop where
  current : s.running.owner ≠ 0 → s.cur = s.running.owner ∧ (s.thread s.cur).finished = false
  main : s.running.owner = 0 → s.cur = 0 ∨ (s.thread s.cur).finished = true
  owner : ∀ j < s.created, (s.thread j).finished = false → (s.thread j).ctx.owner = j
  unfinished : (s.thread 0).finished = false
  link : ∀ j < s.created, (s.thread j).link = 0
  id : ∀ j < s.created, j ≠ 0 → 0 < (s.thread j).uThreadId
  counter : 0 ≤ s.uThreadId

namespace Runs

variable {s : State}

theorem init (sleepUntil clock : Int) : Runs (initThread sleepUntil clock) := by
  refine ⟨fun hne => absurd rfl hne, fun _ => Or.inl rfl, fun _ _ _ => rfl, rfl, fun _ _ => rfl,
    fun j hj hne => ?_, Int.le_refl 0⟩
  have : j < 1 := hj
  omega

theorem kept {s' : State} (h : Runs s) (hkept : Kept s s') : Runs s' := by
  refine ⟨?_, ?_, fun j hj => ?_, ?_, fun j hj => ?_, fun j hj => ?_, ?_⟩
  · rw [hkept.running, hkept.cur, hkept.finished]
    exact h.current
  · rw [hkept.running, hkept.cur, hkept.finished]
    exact h.main
  · rw [hkept.created] at hj
    rw [hkept.finished, hkept.ctx]
    exact h.owner j hj
  · rw [hkept.finished, h.unfinished]
  · rw [hkept.created] at hj
    rw [hkept.link, h.link j hj]
  · rw [hkept.created] at hj
    rw [hkept.id]
    exact h.id j hj
  · rw [hkept.counter]
    exact h.counter

theorem create (h : Runs s) {l : List Nat} (hl : Linked s s.cur l) :
    Runs (s.uThreadCreate true) := by
  have hcur : s.cur < s.created := hl.lt_created _ hl.ring.self_mem
  have hzero : 0 < s.created := hl.lt_created _ hl.head_mem
  have hsame := create_relinked s
  have hold : ∀ j, j < s.created → s.withNew.thread j = s.thread j := fun j hj =>
    Function.update_of_ne hj.ne ..
  have hnew : s.withNew.thread s.created = s.newThread := Function.update_self ..
  have hlt : ∀ j, j < (s.uThreadCreate true).created → j = s.created ∨ j < s.created :=
    fun j hj => (Nat.lt_succ_iff_lt_or_eq.mp hj).symm
  have hcounter := h.counter
  refine ⟨?_, ?_, fun j hj => ?_, ?_, fun j hj => ?_, fun j hj hne => ?_, ?_⟩
  · rw [s.create_thread, hsame.finished]
    change s.running.owner ≠ 0 → s.cur = s.running.owner ∧ (s.withNew.thread s.cur).finished = false
    rw [hold _ hcur]
    exact h.current
  · rw [s.create_thread, hsame.finished]
    change s.running.owner = 0 → s.cur = 0 ∨ (s.withNew.thread s.cur).finished = true
    rw [hold _ hcur]
    exact h.main
  · rw [s.create_thread, hsame.finished, hsame.ctx]
    obtain rfl | hj := hlt j hj
    · rw [hnew]
      exact fun _ => rfl
    · rw [hold j hj]
      exact h.owner j hj
  · rw [s.create_thread, hsame.finished, hold 0 hzero, h.unfinished]
  · rw [s.create_thread, hsame.link]
    obtain rfl | hj := hlt j hj
    · rw [hnew]
      exact hl.head_eq
    · rw [hold j hj, h.link j hj]
  · rw [s.create_thread, hsame.uThreadId]
    obtain rfl | hj := hlt j hj
    · rw [hnew]
      change 0 < s.uThreadId + 1
      omega
    · rw [hold j hj]
      exact h.id j hj hne
  · change 0 ≤ s.uThreadId + 1 + 1
    omega

/-- After a return the main thread runs. -/
theorem main_of_return (h : Runs s) {l : List Nat} (hl : Linked s s.cur l)
    (hne : s.running.owner ≠ 0) : s.uThreadReturn.running.owner = 0 := by
  have hlt : s.running.owner < s.created :=
    (h.current hne).1 ▸ hl.lt_created _ hl.ring.self_mem
  rw [s.running_uThreadReturn, h.link _ hlt,
    h.owner 0 (hl.lt_created _ hl.head_mem) h.unfinished]

theorem finish (h : Runs s) {l : List Nat} (hl : Linked s s.cur l) (hne : s.running.owner ≠ 0) :
    Runs s.uThreadReturn := by
  obtain ⟨hcur, -⟩ := h.current hne
  have hrunning := h.main_of_return hl hne
  have hthread : ∀ j, s.uThreadReturn.thread j =
      { s.thread j with finished := (s.uThreadReturn.thread j).finished } := by
    intro j
    by_cases hj : j = s.running.owner
    · subst j
      simp [State.uThreadReturn, State.modify]
    · simp [State.uThreadReturn, State.modify, hj]
  have hfinished : ∀ j, j ≠ s.running.owner →
      (s.uThreadReturn.thread j).finished = (s.thread j).finished := by
    intro j hj
    simp [State.uThreadReturn, State.modify, hj]
  have hself : (s.uThreadReturn.thread s.running.owner).finished = true := by
    simp [State.uThreadReturn, State.modify]
  refine ⟨fun h' => absurd hrunning h', fun _ => Or.inr ?_, fun j hj hunfinished => ?_, ?_,
    fun j hj => ?_, fun j hj hj0 => ?_, h.counter⟩
  · change (s.uThreadReturn.thread s.cur).finished = true
    rw [hcur, hself]
  · have hj' : j ≠ s.running.owner := by
      rintro rfl
      simp [hself] at hunfinished
    rw [hfinished j hj'] at hunfinished
    rw [hthread j]
    exact h.owner j hj hunfinished
  · rw [hfinished 0 hne.symm, h.unfinished]
  · rw [hthread j]
    exact h.link j hj
  · rw [hthread j]
    exact h.id j hj hj0

theorem switch {d : Nat} {t : Int} (h : Runs s) (hne : d ≠ s.cur) (hd : d < s.created)
    (hdue : s.Due t d) : Runs (s.switch d) ∧ (s.switch d).running.owner = d := by
  have hthread : ∀ j, (s.switch d).thread j =
      { s.thread j with
        ctx := if j = s.cur then ⟨s.running.owner, s.swaps + 1⟩ else (s.thread j).ctx } := by
    intro j
    by_cases hj : j = s.cur
    · subst j
      simp [State.switch, State.modify]
    · simp [State.switch, State.modify, hj]
  have hrunning : (s.switch d).running.owner = d := by
    change ((s.switch d).thread d).ctx.owner = d
    rw [hthread d, if_neg hne]
    exact h.owner d hd hdue.1
  refine ⟨⟨fun _ => ⟨hrunning.symm, ?_⟩, fun hmain => Or.inl (hrunning.symm.trans hmain),
    fun j hj hunfinished => ?_, ?_, fun j hj => ?_, fun j hj hj0 => ?_, h.counter⟩, hrunning⟩
  · change ((s.switch d).thread d).finished = false
    rw [hthread d]
    exact hdue.1
  · rw [hthread j] at hunfinished ⊢
    by_cases hcur : j = s.cur
    · -- The code that is saved into the context of an unfinished thread is its own.
      subst j
      by_cases hmain : s.running.owner = 0
      · obtain hzero | hfinished := h.main hmain
        · simp [hmain, hzero]
        · simp [hfinished] at hunfinished
      · simp [(h.current hmain).1]
    · simp only [hcur, if_false]
      exact h.owner j hj hunfinished
  · rw [hthread 0]
    exact h.unfinished
  · rw [hthread j]
    exact h.link j hj
  · rw [hthread j]
    exact h.id j hj hj0

end Runs

theorem Runs.perform {s s' : State} {c : Call} {l : List Nat} {fuel : Nat} (h : Runs s)
    (hl : Linked s s.cur l) (hexited : s.exited = false) (hrun : s.perform fuel c = some s') :
    Runs s' := by
  obtain ⟨ok, -, rfl⟩ | ⟨-, hne, rfl⟩ |
    ⟨s₀, t, s₁, d, -, -, hkept, -, ⟨l', h₁⟩, hend⟩ := perform_cases hl hexited hrun
  · have hcall : Runs (s.call false) :=
      ⟨h.current, h.main, h.owner, h.unfinished, h.link, h.id, h.counter⟩
    cases ok with
    | false =>
        have := h.counter
        refine ⟨h.current, h.main, h.owner, h.unfinished, h.link, h.id, ?_⟩
        change 0 ≤ s.uThreadId + 1
        omega
    | true => exact hcall.create (l := l) (hl.of_eq rfl rfl rfl rfl rfl fun _ hj => hj)
  · exact h.finish hl hne
  · obtain ⟨-, rfl⟩ | ⟨hne, hdue, rfl⟩ := hend
    · exact h.kept hkept
    · exact ((h.kept hkept).switch (hkept.cur ▸ hne)
        (h₁.lt_created d h₁.ring.self_mem) hdue).1

theorem Runs.step {s s' : State} {c : Call} {l : List Nat} (h : Runs s) (hl : Linked s s.cur l)
    (hstep : s.Step c s') : Runs s' := by
  obtain ⟨hexited, fuel, hrun⟩ := hstep
  exact h.perform hl hexited (State.perform_of_run hrun).1

theorem runs {ok : State → Call → Prop} {s : State} (hs : Reaches ok s) : Runs s := by
  induction hs with
  | start sleepUntil clock => exact .init sleepUntil clock
  | step hs _ hstep ih =>
      obtain ⟨l, hl⟩ := linked hs
      exact ih.step hl hstep

/-- If the running thread has come back from `u_thread_usleep`, the scheduler has last
read a time that is not before `sleep_until_us`. -/
def Rested (s : State) : Prop :=
  s.running.owner ≠ 0 → s.sleeping s.running.owner = true →
    (s.thread s.running.owner).sleepUntil ≤ s.clock

/-- The deadline of the caller has passed when the scheduler reads the clock, or one of the
threads that the walk looks at on its way round is due. -/
def SomebodyDue (s : State) (usec now t : Int) : Prop :=
  now + usec ≤ t ∨
    ∃ l, Ring s.next s.prev s.cur l ∧ ∃ y ∈ s.examined l, y ≠ s.cur ∧ s.Due t y

/-- `u_thread_usleep` is called by another thread than the main one only when somebody is
due. -/
def OnTime (s : State) : Call → Prop
  | .usleep usec now t => s.running.owner ≠ 0 → SomebodyDue s usec now t
  | _ => True

/-- A thread that was switched to is due. -/
theorem rested_switch {s : State} {d : Nat} (h : Runs s) (hne : d ≠ s.cur) (hd : d < s.created)
    (hdue : s.Due s.clock d) : Rested (s.switch d) := by
  intro _ _
  rw [(h.switch hne hd hdue).2]
  have hsleep : ((s.switch d).thread d).sleepUntil = (s.thread d).sleepUntil := by
    simp [State.switch, State.modify, hne]
  rw [hsleep]
  exact hdue.2

/-- After a call of `u_thread_usleep` by a thread other than the main one. -/
theorem rested_usleep_iff {s s' : State} {l : List Nat} {usec now t : Int} (h : Runs s)
    (hl : Linked s s.cur l) (hne : s.running.owner ≠ 0) (hstep : s.Step (.usleep usec now t) s') :
    Rested s' ↔ SomebodyDue s usec now t := by
  obtain ⟨hcur, hunfinished⟩ := h.current hne
  have hid : (s.thread s.cur).uThreadId ≠ 0 := by
    have := h.id s.cur (hl.lt_created _ hl.ring.self_mem) (hcur ▸ hne)
    omega
  obtain ⟨ok, hc, -⟩ | ⟨hc, -⟩ |
    ⟨s₀, t', fuel, s₁, d, hprepared, -, hloop, hkept, hsame, ⟨l', h₁⟩, hend⟩ := step_cases hl hstep
  · cases hc
  · cases hc
  obtain ⟨rfl, rfl⟩ := Prod.mk.inj (Option.some.inj hprepared)
  rw [if_neg hid] at hloop hsame
  -- The state that the scheduler starts from: the caller sleeps, the time is `t`.
  let s₂ : State :=
    { (s.call true).modify s.cur ({ · with sleepUntil := now + usec }) with clock := t }
  change State.schedulerLoop t fuel s₂ s.cur = some (s₁, d) at hloop
  change Relinked s₂ s₁ at hsame
  have hmodify := (s.call true).modify_kept s.cur (now + usec)
  have hkept₂ : ∀ j, (s₂.thread j).finished = (s.thread j).finished := hmodify.1.finished
  have hlinked₂ : Linked s₂ s.cur (l ++ []) := by
    rw [List.append_nil]
    exact (hmodify.2 (hl.of_eq rfl rfl rfl rfl rfl fun _ hj => hj)).of_eq rfl rfl rfl rfl rfl
      fun _ hj => hj
  have hself : (s₂.thread s.cur).sleepUntil = now + usec := by
    simp [s₂, State.modify]
  have hother : ∀ j, j ≠ s.cur → (s₂.Due t j ↔ s.Due t j) := by
    intro j hj
    have hthread : s₂.thread j = s.thread j := by simp [s₂, State.modify, State.call, hj]
    rw [State.Due, State.Due, hthread]
  -- The scheduler takes the first thread of the ring that is due, or comes back.
  have hchoice : d = ((s.examined l).find? (fun j => s₂.Due t j)).getD s.cur := by
    have := schedulerLoop_choice hlinked₂ hl.ring.closed (by rw [← hunfinished]; exact hkept₂ _)
      hloop
    rwa [State.examined_congr hkept₂ rfl] at this
  have hclock : s₁.clock = t := by rw [hsame.rest]
  obtain ⟨hstay, rfl⟩ | ⟨hswitched, hdue, rfl⟩ := hend
  -- Without a switch the call returns at once, whatever the clock says.
  · have hrested : Rested s' ↔ now + usec ≤ t := by
      have hsleeping : s'.sleeping s.running.owner = true := by
        rw [hsame.rest]
        simp [s₂, State.modify, State.call]
      rw [Rested, hkept.running, hclock, ← hcur, hsame.sleepUntil, hself, hcur]
      simp [hne, hsleeping]
    refine hrested.trans ⟨Or.inl, ?_⟩
    rintro (hpassed | ⟨k, hring, y, hy, hycur, hydue⟩)
    · exact hpassed
    · -- The first thread that is due is the caller itself.
      obtain rfl := hl.ring.unique hring
      cases hfind : (s.examined l).find? (fun j => s₂.Due t j) with
      | none =>
          have := List.find?_eq_none.mp hfind y hy
          simp [hother y hycur, hydue] at this
      | some w =>
          rw [hfind, Option.getD_some, hstay] at hchoice
          subst hchoice
          have hdue : s₂.Due t s.cur := by simpa using List.find?_some hfind
          exact hself ▸ hdue.2
  -- With a switch the thread that runs now is due.
  · refine iff_of_true ?_ (Or.inr ⟨l, hl.ring, d, ?_⟩)
    · refine rested_switch (h.kept hkept) (hkept.cur ▸ hswitched) ?_ (hclock ▸ hdue)
      exact h₁.lt_created d h₁.ring.self_mem
    · cases hfind : (s.examined l).find? (fun j => s₂.Due t j) with
      | none =>
          rw [hfind, Option.getD_none] at hchoice
          exact absurd hchoice hswitched
      | some w =>
          rw [hfind, Option.getD_some] at hchoice
          subst hchoice
          have hdue₂ : s₂.Due t d := by simpa using List.find?_some hfind
          exact ⟨List.mem_of_find?_eq_some hfind, hswitched, (hother d hswitched).mp hdue₂⟩

/-- No call brings a thread back from `u_thread_usleep` too early, but its own one when
nobody is due. -/
theorem Runs.rested {s s' : State} {c : Call} {l : List Nat} (h : Runs s)
    (hl : Linked s s.cur l) (hok : OnTime s c) (hstep : s.Step c s') : Rested s' := by
  obtain ⟨ok, rfl, rfl⟩ | ⟨-, hne, rfl⟩ |
    ⟨s₀, t, fuel, s₁, d, hprepared, -, -, hkept, hsame, ⟨l', h₁⟩, hend⟩ := step_cases hl hstep
  · intro _ hsleeping
    cases ok <;> simp [State.uThreadCreate, State.modify, State.call] at hsleeping
  · exact fun hne' => absurd (h.main_of_return hl hne) hne'
  · obtain ⟨-, rfl⟩ | ⟨hne, hdue, rfl⟩ := hend
    · intro hne hsleeping
      rw [hkept.running] at hne
      cases c with
      | usleep usec now t' => 
          exact (rested_usleep_iff h hl hne hstep).mpr (hok hne) (hkept.running ▸ hne) hsleeping
      | scheduler t' =>
          obtain ⟨rfl, rfl⟩ := Prod.mk.inj (Option.some.inj hprepared)
          rw [hkept.running, hsame.rest] at hsleeping
          simp [State.call] at hsleeping
      | create ok => simp [State.prepared] at hprepared
      | finish => simp [State.prepared] at hprepared
    · have hclock : s₁.clock = t := by rw [hsame.rest]
      exact rested_switch (h.kept hkept) (hkept.cur ▸ hne)
        (h₁.lt_created d h₁.ring.self_mem) (hclock ▸ hdue)

/-- No early wake-up in a run whose calls of `u_thread_usleep` by threads other than the
main one find somebody due; a call that does not returns too early. -/
theorem noEarlyWakeup {s : State} (hs : Reaches OnTime s) :
    Rested s ∧ ∀ usec now t s', s.running.owner ≠ 0 → s.Step (.usleep usec now t) s' →
      (Rested s' ↔ SomebodyDue s usec now t) := by
  refine ⟨?_, fun usec now t s' hne hstep => ?_⟩
  · cases hs with
    | start sleepUntil clock => exact fun hne => absurd rfl hne
    | step hs hok hstep =>
        obtain ⟨l, hl⟩ := linked hs
        exact (runs hs).rested hl hok hstep
  · obtain ⟨l, hl⟩ := linked hs
    exact rested_usleep_iff (runs hs) hl hne hstep

/-- The other calls need nobody to be due. -/
theorem onTime_of_ne {s : State} {c : Call} (h : ∀ usec now t, c ≠ .usleep usec now t) :
    OnTime s c := by
  cases c with
  | usleep usec now t => exact absurd rfl (h usec now t)
  | _ => trivial

/-- A thread sleeps until `6` and comes back when the main thread calls the scheduler at
`7`. -/
theorem noEarlyWakeup_slept :
    ∃ s, Reaches OnTime s ∧ s.running.owner = 1 ∧ (s.thread 1).sleepUntil = 6 ∧
      (s.thread 1).sleepUntil ≤ s.clock := by
  let awake : State → Call → Bool := fun _ c => match c with
    | .usleep _ _ _ => false
    | _ => true
  have hawake : ∀ s c, awake s c = true → OnTime s c := by
    rintro s c h
    exact onTime_of_ne fun usec now t hc => by simp [awake, hc] at h
  -- The main thread is due when the other one goes to sleep.
  obtain ⟨s₁, -, hs₁, ⟨hexited, hnext₁, hprev₀, hnext₀, hprev₁, hcur⟩, hexamined, hdue, hlater⟩ :=
    (Reaches.start 0 0).exists_runCalls hawake
      (fun s => (s.exited = false ∧ s.next 1 = 0 ∧ s.prev 0 = 1 ∧ s.next 0 = 1 ∧ s.prev 1 = 0 ∧
        s.cur = 1) ∧ s.examined [0, 1] = [0, 1] ∧ s.Due 1 0 ∧
        (s.run 10 (.usleep 5 1 1)).any fun s => (runCalls 10 awake s [.scheduler 3, .scheduler 7]).any
          fun s => s.running.owner = 1 ∧ s.sleeping 1 = true ∧ (s.thread 1).sleepUntil = 6)
      (by decide +kernel : (runCalls 10 awake (initThread 0 0)
        [.create true, .scheduler 1]).any _ = true)
  have hok : OnTime s₁ (.usleep 5 1 1) := by
    refine fun _ => Or.inr ⟨[0, 1], ⟨?_, by rw [hcur]; rfl, by decide⟩, 0, ?_, by omega, hdue⟩
    · simp [hcur, hnext₁, hprev₀, hnext₀, hprev₁]
    · simp [hexamined]
  obtain ⟨s₂, hrun₂, hlater⟩ := (Option.any_eq_true _ _).mp hlater
  obtain ⟨s, -, hs, howner, hsleeping, huntil⟩ :=
    (Reaches.step hs₁ hok ⟨hexited, 10, hrun₂⟩).exists_runCalls hawake _ hlater
  refine ⟨s, hs, howner, huntil, ?_⟩
  have := (noEarlyWakeup hs).1 (by omega) (by rw [howner, hsleeping])
  rwa [howner] at this

/-- The thread that was linked in before the main thread has finished; the next one to
sleep takes it off the ring, does not look at the main thread, and comes back at once. -/
theorem noEarlyWakeup_skipped :
    ∃ s, Reaches (fun _ _ => True) s ∧ ¬ Rested s := by
  obtain ⟨s, -, hs, howner, hsleeping, huntil, hclock⟩ :=
    (Reaches.start 0 0).exists_runCalls (fun _ _ _ => trivial)
      (fun s => s.running.owner = 2 ∧ s.sleeping 2 = true ∧ (s.thread 2).sleepUntil = 1000002 ∧
        s.clock = 2)
      (by decide +kernel : (runCalls 10 (fun _ _ => true) (initThread 0 0)
        [.create true, .create true, .scheduler 1, .usleep 0 1 1, .finish, .scheduler 1,
          .scheduler 1, .usleep 1000000 2 2]).any _ = true)
  refine ⟨s, hs, fun h => ?_⟩
  have := h (by omega) (by rw [howner, hsleeping])
  rw [howner, huntil, hclock] at this
  omega

end UThread
end OperatingSystems
