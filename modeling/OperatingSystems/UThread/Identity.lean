import OperatingSystems.UThread.RingWalk

/-!
# Which green thread is running

`mgr->cur` follows the code that executes as long as control changes hands in
`swapcontext` only.  The jump to `uc_link` leaves it behind: the main thread runs while
`mgr->cur` is the thread whose function has returned.

* `InStep` — the manager and the running code agree, and the contexts are those of the
  latest suspensions.
* `curIsRunning` — this holds in every run without a return, and a return breaks it.
-/

namespace OperatingSystems
namespace UThread

/-- `mgr->cur` runs, and the others can go on where they were suspended last. -/
structure InStep (s : State) : Prop where
  cur_eq : s.cur = s.running.owner
  owner : ∀ j < s.created, (s.suspended j).owner = j
  saved : ∀ j < s.created, j ≠ s.running.owner → (s.thread j).ctx = s.suspended j
  link : ∀ j < s.created, (s.thread j).link = 0

/-- A call of `swapcontext` saves the code that runs into its own context and into no
other one. -/
def SavesOwn (s s' : State) : Prop :=
  s'.swaps = s.swaps ∨
    ((s'.thread s.running.owner).ctx = ⟨s.running.owner, s'.swaps⟩ ∧
      s'.suspended s.running.owner = ⟨s.running.owner, s'.swaps⟩ ∧
      ∀ j < s.created, j ≠ s.running.owner → (s'.thread j).ctx = (s.thread j).ctx)

namespace InStep

variable {s : State}

theorem init (sleepUntil clock : Int) : InStep (initThread sleepUntil clock) :=
  ⟨rfl, fun _ _ => rfl, fun _ _ _ => rfl, fun _ _ => rfl⟩

theorem call (h : InStep s) (usleep : Bool) : InStep (s.call usleep) :=
  ⟨h.cur_eq, h.owner, h.saved, h.link⟩

theorem create (h : InStep s) (hhead : s.head = 0) : InStep (s.uThreadCreate true) := by
  have hlt : ∀ j, j < (s.uThreadCreate true).created → j = s.created ∨ j < s.created :=
    fun j hj => (Nat.lt_succ_iff_lt_or_eq.mp hj).symm
  refine ⟨h.cur_eq, fun j hj => ?_, fun j hj hne => ?_, fun j hj => ?_⟩
  · change (Function.update s.suspended s.created _ j).owner = j
    obtain rfl | hj := hlt j hj
    · simp
    · rw [Function.update_of_ne hj.ne, h.owner j hj]
  · rw [s.create_thread, (create_relinked s).ctx]
    change (Function.update s.thread s.created s.newThread j).ctx =
      Function.update s.suspended s.created _ j
    obtain rfl | hj := hlt j hj
    · simp [State.newThread]
    · rw [Function.update_of_ne hj.ne, Function.update_of_ne hj.ne, h.saved j hj hne]
  · rw [s.create_thread, (create_relinked s).link]
    change (Function.update s.thread s.created s.newThread j).link = 0
    obtain rfl | hj := hlt j hj
    · simp [State.newThread, hhead]
    · rw [Function.update_of_ne hj.ne, h.link j hj]

theorem kept {s' : State} (h : InStep s) (hkept : Kept s s') : InStep s' := by
  refine ⟨?_, fun j hj => ?_, fun j hj hne => ?_, fun j hj => ?_⟩
  · rw [hkept.cur, hkept.running, h.cur_eq]
  · rw [hkept.created] at hj
    rw [hkept.suspended, h.owner j hj]
  · rw [hkept.created] at hj
    rw [hkept.running] at hne
    rw [hkept.ctx, hkept.suspended, h.saved j hj hne]
  · rw [hkept.created] at hj
    rw [hkept.link, h.link j hj]

/-- The contexts after a `swapcontext`. -/
theorem ctx_switch (h : InStep s) (d j : Nat) : ((s.switch d).thread j).ctx =
    if j = s.running.owner then ⟨s.running.owner, s.swaps + 1⟩ else (s.thread j).ctx := by
  by_cases hj : j = s.running.owner <;>
    simp [State.switch, State.modify, h.cur_eq, hj]

theorem switch {d : Nat} (h : InStep s) (hne : d ≠ s.cur) (hd : d < s.created) :
    InStep (s.switch d) := by
  have hne' : d ≠ s.running.owner := h.cur_eq ▸ hne
  have hrunning : (s.switch d).running = s.suspended d := by
    rw [← h.saved d hd hne']
    exact (h.ctx_switch d d).trans (if_neg hne')
  refine ⟨?_, fun j hj => ?_, fun j hj hj' => ?_, fun j hj => ?_⟩
  · rw [hrunning, h.owner d hd]
    rfl
  · change (Function.update s.suspended s.running.owner _ j).owner = j
    by_cases hown : j = s.running.owner
    · simp [hown]
    · rw [Function.update_of_ne hown, h.owner j hj]
  · rw [h.ctx_switch]
    change _ = Function.update s.suspended s.running.owner _ j
    by_cases hown : j = s.running.owner
    · simp [hown]
    · rw [if_neg hown, Function.update_of_ne hown, h.saved j hj hown]
  · have hlink : ((s.switch d).thread j).link = (s.thread j).link := by
      by_cases hcur : j = s.cur <;> simp [State.switch, State.modify, hcur]
    rw [hlink, h.link j hj]

end InStep

/-- A call other than a return keeps the manager in step with the running code. -/
theorem InStep.step {s s' : State} {c : Call} {l : List Nat} (h : InStep s)
    (hl : Linked s s.cur l) (hc : c ≠ .finish) (hstep : s.Step c s') :
    InStep s' ∧ SavesOwn s s' := by
  obtain ⟨ok, -, rfl⟩ | ⟨hfinish, -, -⟩ |
    ⟨s₀, t, fuel, s₁, d, -, -, -, hkept, -, ⟨l', h₁⟩, hend⟩ := step_cases hl hstep
  · cases ok with
    | false => exact ⟨⟨h.cur_eq, h.owner, h.saved, h.link⟩, Or.inl rfl⟩
    | true => exact ⟨(h.call false).create hl.head_eq, Or.inl rfl⟩
  · exact absurd hfinish hc
  · have hin := h.kept hkept
    obtain ⟨rfl, rfl⟩ | ⟨hne, -, rfl⟩ := hend
    · exact ⟨hin, Or.inl hkept.swaps⟩
    · refine ⟨hin.switch (hkept.cur ▸ hne) (h₁.lt_created d h₁.ring.self_mem), Or.inr ?_⟩
      rw [← hkept.running]
      refine ⟨?_, ?_, fun j hj hown => ?_⟩
      · rw [hin.ctx_switch, if_pos rfl]
        rfl
      · exact Function.update_self ..
      · rw [hin.ctx_switch, if_neg hown, hkept.ctx]

theorem inStep {s : State} (hs : Reaches (fun _ c => c ≠ .finish) s) : InStep s := by
  induction hs with
  | start sleepUntil clock => exact .init sleepUntil clock
  | step hs hc hstep ih =>
      obtain ⟨l, hl⟩ := linked hs
      exact (ih.step hl hc hstep).1

/-- As long as no thread function has returned, `mgr->cur` is the thread that runs,
`swapcontext` saves it into its own context, and every other unfinished thread has the
context of its latest suspension.  The return of a thread function breaks this. -/
theorem curIsRunning {s : State} (hs : Reaches (fun _ c => c ≠ .finish) s) :
    (s.cur = s.running.owner ∧
      (∀ c s', c ≠ .finish → s.Step c s' → SavesOwn s s') ∧
      ∀ j < s.created, j ≠ s.running.owner → (s.thread j).finished = false →
        (s.thread j).ctx = s.suspended j) ∧
    ∀ s', s.Step .finish s' → s'.cur ≠ s'.running.owner := by
  have h := inStep hs
  obtain ⟨l, hl⟩ := linked hs
  refine ⟨⟨h.cur_eq, fun c s' hc hstep => (h.step hl hc hstep).2,
    fun j hj hne _ => h.saved j hj hne⟩, fun s' hstep => ?_⟩
  obtain ⟨ok, hc, -⟩ | ⟨-, hmain, rfl⟩ | ⟨s₀, t, fuel, s₁, d, hprepared, -⟩ := step_cases hl hstep
  · cases hc
  · have hlt : s.running.owner < s.created := h.cur_eq ▸ hl.lt_created _ hl.ring.self_mem
    have hzero : 0 < s.created := Nat.lt_of_le_of_lt (Nat.zero_le _) hlt
    rw [s.running_uThreadReturn, h.link _ hlt, h.saved 0 hzero hmain.symm, h.owner 0 hzero]
    exact fun heq => hmain (h.cur_eq.symm.trans heq)
  · simp [State.prepared] at hprepared

/-- The main thread creates a thread and calls the scheduler. -/
theorem curIsRunning_created :
    ∃ s ∈ runCalls 10 (fun _ c => c ≠ .finish) (initThread 0 0) [.create true, .scheduler 1],
      s.cur = 1 ∧ s.running.owner = 1 ∧ (s.thread 0).ctx = s.suspended 0 ∧
        ∀ s', s.Step .finish s' → s'.cur ≠ s'.running.owner := by
  obtain ⟨s, hrun, hs, hcur, hcreated, hunfinished⟩ :=
    (Reaches.start 0 0).exists_runCalls (fun _ _ => of_decide_eq_true)
      (fun s => s.cur = 1 ∧ s.created = 2 ∧ (s.thread 0).finished = false)
      (by decide : (runCalls 10 (fun _ c => c ≠ .finish) (initThread 0 0)
        [.create true, .scheduler 1]).any _ = true)
  obtain ⟨⟨howner, -, hsaved⟩, hreturn⟩ := curIsRunning hs
  have howner' : s.running.owner = 1 := howner.symm.trans hcur
  exact ⟨s, hrun, hcur, howner', hsaved 0 (by omega) (by omega) hunfinished, hreturn⟩

/-- Its function returns at once: the main thread runs, and `mgr->cur` is the other one. -/
theorem curIsRunning_returned :
    ∃ s, Reaches (fun _ _ => True) s ∧ s.cur = 1 ∧ s.running.owner = 0 := by
  obtain ⟨s, -, hs, hstale⟩ :=
    (Reaches.start 0 0).exists_runCalls (fun _ _ _ => trivial)
      (fun s => s.cur = 1 ∧ s.running.owner = 0)
      (by decide : (runCalls 10 (fun _ _ => true) (initThread 0 0)
        [.create true, .scheduler 1, .finish]).any _ = true)
  exact ⟨s, hs, hstale⟩

end UThread
end OperatingSystems
