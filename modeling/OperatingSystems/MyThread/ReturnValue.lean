import Mathlib.Data.List.Infix
import OperatingSystems.MyThread.Regions

/-!
# What the threads hand to each other

The values that pass through the descriptor of a thread: the argument of
`my_thread_create`, which `thread_func` gives to `start_routine`, and what
`start_routine` returns, which `my_thread_join` gives to its caller.

`Process` has the statements; `Valued` adds the two fields of the descriptor and the
local variables that they are copied from.  A thread that reads or writes a region which
is not mapped goes no further.

* `Pc.stage` — how far the worker of a region is.
* `Record.At` — what the descriptor and its history hold at each stage.
* `HandsOver` — the invariant; `HandsOver.quiet` is the step that hands over nothing and
  `HandsOver.advance` the one on which a worker reaches its next stage.
* `handsOver` — every call of `start_routine` and every result of `my_thread_join`.
-/

namespace OperatingSystems
namespace MyThread

/-- `void *`; `0` is `NULL`. -/
abbrev Pointer := Nat

/-- The fields of a descriptor that carry a value, and `result`, what `start_routine` has
returned to `thread_func`.

The others are history variables: the argument of the `my_thread_create` that mapped the
region, the arguments of the calls of `start_routine`, what these calls returned, and
what `my_thread_join` wrote to `*retval`. -/
structure Record where
  arg : Pointer
  retval : Pointer
  result : Pointer
  given : Pointer
  calls : List Pointer
  returns : List Pointer
  joined : List Pointer

/-- The process, the parameter `arg` of the `my_thread_create` in which a thread is, and
the values in the regions. -/
structure Valued where
  process : Process
  parameter : Tid → Pointer
  record : Handle → Record

namespace Valued

/-- Nothing has been handed over yet. -/
def start : Valued where
  process := .start
  parameter := fun _ => 0
  record := fun _ => ⟨0, 0, 0, 0, [], [], []⟩

variable (s : Valued)

/-- A write to the values of a region. -/
def setRecord (r : Handle) (x : Record) : Valued :=
  { s with record := Function.update s.record r x }

/-- A call of `my_thread_create` with the argument `v`. -/
def pass (i : Tid) (v : Pointer) : Valued :=
  { s with parameter := Function.update s.parameter i v }

/-- What the next statement of thread `i` does with the values.  `v` is the argument when
the program calls `my_thread_create`, and the result when it returns from
`start_routine`. -/
def handOver (i : Tid) (c : Choice) (v : Pointer) : Valued :=
  match i, s.process.thread i, c with
  | i, .idle, .create => s.pass i v
  -- `my_thread_create(&cleaner_thread, cleanup_thread_func, NULL)`
  | i, .detach _ .exchange, .go _ => if s.process.cleanupThreadStarted then s else s.pass i 0
  | i, .create _ .mmap, .go true =>
      s.setRecord s.process.mapped
        { s.record s.process.mapped with given := s.parameter i }
  | i, .create _ (.init r), .go _ =>
      s.setRecord r { s.record r with arg := s.parameter i, retval := 0 }
  | .worker r, .threadFunc .enter, .go _ =>
      s.setRecord r { s.record r with calls := (s.record r).arg :: (s.record r).calls }
  | .worker r, .idle, .done =>
      s.setRecord r { s.record r with result := v, returns := v :: (s.record r).returns }
  | .worker r, .threadFunc .storeRetval, .go _ =>
      s.setRecord r { s.record r with retval := (s.record r).result }
  | _, .join r _ .retval, .go _ =>
      s.setRecord r { s.record r with joined := (s.record r).retval :: (s.record r).joined }
  | _, _, _ => s

/-- The next statement of thread `i` reads and writes mapped regions only. -/
def inBounds (i : Tid) : Bool :=
  (s.process.accesses i).all fun r =>
    r < s.process.mapped && (s.process.region r).unmaps == 0

end Valued

/-- The process with its values, one statement of one thread after the other. -/
def valued : Machine Valued (Tid × Choice × Pointer) where
  step s a :=
    if s.inBounds a.1 then
      (s.process.next a.1 a.2.1).map fun p => { s.handOver a.1 a.2.1 a.2.2 with process := p }
    else none

/-! ### The stages of a worker -/

/-- How far a worker is. -/
inductive Stage
  | unborn
  | entering
  | running
  | returned
  | stored
  | finished
  deriving DecidableEq

/-- The stage of the worker that executes this statement next. -/
def Pc.stage : Pc → Stage
  | .unborn => .unborn
  | .threadFunc .enter => .entering
  | .threadFunc .storeRetval => .returned
  | .threadFunc .finish => .stored
  | .threadFunc .wake | .threadFunc .exit | .threadFunc .exited => .finished
  | _ => .running

/-- The region whose descriptor a thread fills in. -/
def Pc.makes : Pc → Option Handle
  | .create _ (.init r) | .create _ (.clone r) => some r
  | _ => none

/-- What a region holds at the stage of its worker. -/
def Record.At (x : Record) : Stage → Prop
  | .unborn => x.calls = [] ∧ x.returns = []
  | .entering => x.calls = [] ∧ x.returns = [] ∧ x.arg = x.given
  | .running => x.calls = [x.given] ∧ x.returns = []
  | .returned => x.calls = [x.given] ∧ x.returns = [x.result]
  | .stored | .finished => x.calls = [x.given] ∧ x.returns = [x.retval]

/-- What `my_thread_create` relies on at its next statement. -/
def Valued.Fits (s : Valued) (i : Tid) : Pc → Prop
  | .create _ (.init r) => (s.record r).given = s.parameter i
  | .create _ (.clone r) => (s.record r).arg = (s.record r).given
  | _ => True

theorem Valued.fits_of_makes {s : Valued} {i : Tid} {pc : Pc} (hpc : pc.makes = none) :
    s.Fits i pc := by
  cases pc with
  | create detached pc => cases pc <;> trivial
  | _ => trivial

/-- The invariant. -/
structure HandsOver (s : Valued) : Prop where
  unmade : ∀ r, s.process.mapped ≤ r → (s.process.thread (.worker r)).stage = .unborn
  makes : ∀ i r, (s.process.thread i).makes = some r →
    r < s.process.mapped ∧ (s.process.thread (.worker r)).stage = .unborn
  alone : ∀ i j r, (s.process.thread i).makes = some r → (s.process.thread j).makes = some r →
    i = j
  finished : ∀ r, (s.process.region r).isFinished = true →
    (s.process.thread (.worker r)).stage = .finished
  reads : ∀ i r retval, s.process.thread i = .join r retval .retval →
    (s.process.thread (.worker r)).stage = .finished
  record : ∀ r, (s.record r).At (s.process.thread (.worker r)).stage
  fits : ∀ i, s.Fits i (s.process.thread i)
  joined : ∀ r, ∀ v ∈ (s.record r).joined, (s.record r).returns = [v]

theorem handsOver_start : HandsOver .start := by
  have hidle (i : Tid) : (Process.start.thread i).makes = none ∧
      ∀ r retval, Process.start.thread i ≠ .join r retval .retval := by
    cases i <;> simp [Process.start, Pc.makes]
  exact {
    unmade := fun _ _ => rfl
    makes := fun i r hmakes => by simp [Valued.start, (hidle i).1] at hmakes
    alone := fun i _ r hmakes _ => by simp [Valued.start, (hidle i).1] at hmakes
    finished := fun _ hfinished => by cases hfinished
    reads := fun i r retval hpc => ((hidle i).2 r retval hpc).elim
    record := fun _ => ⟨rfl, rfl⟩
    fits := fun i => Valued.fits_of_makes (hidle i).1
    joined := fun _ _ hv => by simp [Valued.start] at hv }

/-! ### Frames -/

section Frames

variable {s : Valued} {t t' : Process} {i : Tid} {r : Handle} {pc : Pc}

/-- `t'` has the same threads and the same regions as `t`, and no `is_finished` is set. -/
structure Keeps (t t' : Process) : Prop where
  thread : t'.thread = t.thread
  mapped : t'.mapped = t.mapped
  finished : ∀ q, (t'.region q).isFinished = true → (t.region q).isFinished = true

theorem Keeps.refl : Keeps t t := ⟨rfl, rfl, fun _ => id⟩

theorem Keeps.setRegion {x : Region}
    (hx : x.isFinished = true → (t.region r).isFinished = true) : Keeps t (t.setRegion r x) := by
  refine ⟨rfl, rfl, fun q hq => ?_⟩
  by_cases hqr : q = r
  · subst hqr
    exact hx (by simpa [Process.setRegion] using hq)
  · simpa [Process.setRegion, hqr] using hq

theorem Keeps.lock (h : t.lock i = some t') : Keeps t t' := by
  obtain rfl := Process.lock_eq_some h
  exact ⟨rfl, rfl, fun _ => id⟩

/-- A step of thread `i` from `t` to `u` that hands over nothing. -/
structure Quiet (t : Process) (i : Tid) (u : Process) : Prop where
  mapped : u.mapped = t.mapped
  finished : ∀ q, (u.region q).isFinished = true → (t.region q).isFinished = true
  others : ∀ j ≠ i, u.thread j = t.thread j
  stage : (u.thread i).stage = (t.thread i).stage
  makes : (u.thread i).makes = none
  reads : ∀ r retval, u.thread i = .join r retval .retval → (t.region r).isFinished = true

/-- A thread other than `i`, or the new statement of thread `i`. -/
theorem goto_cases (i : Tid) (pc : Pc) (hthread : t'.thread = t.thread) (j : Tid) :
    j ≠ i ∧ (t'.goto i pc).thread j = t.thread j ∨ j = i ∧ (t'.goto i pc).thread j = pc := by
  by_cases hj : j = i
  · subst hj
    exact Or.inr ⟨rfl, goto_thread_self⟩
  · exact Or.inl ⟨hj, (goto_thread_of_ne hj).trans (congrFun hthread j)⟩

theorem Valued.Fits.frame {s' : Valued} {j : Tid} (h : s.Fits j pc)
    (hparameter : s'.parameter j = s.parameter j)
    (hrecord : ∀ q, pc.makes = some q → s'.record q = s.record q) : s'.Fits j pc := by
  cases pc with
  | create detached pc =>
      cases pc with
      | init q => exact (congrArg Record.given (hrecord q rfl)).trans (h.trans hparameter.symm)
      | clone q =>
          rw [Valued.Fits, hrecord q rfl]
          exact h
      | _ => trivial
  | _ => trivial

theorem Quiet.goto (hkeeps : Keeps t t') (hstage : pc.stage = (t.thread i).stage)
    (hmakes : pc.makes = none)
    (hreads : ∀ r retval, pc = .join r retval .retval → (t.region r).isFinished = true) :
    Quiet t i (t'.goto i pc) where
  mapped := hkeeps.mapped
  finished := hkeeps.finished
  others j hj := (goto_thread_of_ne hj).trans (congrFun hkeeps.thread j)
  stage := by rwa [goto_thread_self]
  makes := by rwa [goto_thread_self]
  reads r retval hpc := hreads r retval (goto_thread_self.symm.trans hpc)

/-- A step that hands over nothing; thread `i` may have got a new parameter. -/
theorem HandsOver.quiet {s' : Valued} (h : HandsOver s) (hstep : Quiet s.process i s'.process)
    (hparameter : ∀ j ≠ i, s'.parameter j = s.parameter j) (hrecord : s'.record = s.record) :
    HandsOver s' := by
  have hcases (j : Tid) : j ≠ i ∧ s'.process.thread j = s.process.thread j ∨ j = i := by
    by_cases hj : j = i
    · exact Or.inr hj
    · exact Or.inl ⟨hj, hstep.others j hj⟩
  have hstage (j : Tid) : (s'.process.thread j).stage = (s.process.thread j).stage := by
    rcases hcases j with ⟨-, hpc⟩ | rfl
    · rw [hpc]
    · exact hstep.stage
  -- Only threads other than `i` make a region.
  have hmakes {j : Tid} {r : Handle} (hj : (s'.process.thread j).makes = some r) :
      (s.process.thread j).makes = some r := by
    rcases hcases j with ⟨-, hpc⟩ | rfl
    · rwa [hpc] at hj
    · simp [hstep.makes] at hj
  refine ⟨fun r hr => ?_, fun j r hj => ?_, fun j k r hj hk => ?_, fun r hr => ?_,
    fun j r retval hj => ?_, fun r => ?_, fun j => ?_, fun r => ?_⟩
  · rw [hstage]
    exact h.unmade r (hstep.mapped ▸ hr)
  · rw [hstage, hstep.mapped]
    exact h.makes j r (hmakes hj)
  · exact h.alone j k r (hmakes hj) (hmakes hk)
  · rw [hstage]
    exact h.finished r (hstep.finished r hr)
  · rw [hstage]
    rcases hcases j with ⟨-, hpc⟩ | rfl
    · exact h.reads j r retval (hpc ▸ hj)
    · exact h.finished r (hstep.reads r retval hj)
  · rw [hstage, hrecord]
    exact h.record r
  · rcases hcases j with ⟨hne, hpc⟩ | rfl
    · rw [hpc]
      exact (h.fits j).frame (hparameter j hne) fun q _ => congrFun hrecord q
    · exact Valued.fits_of_makes hstep.makes
  · rw [hrecord]
    exact h.joined r

/-- The worker of the region `r` reaches its next stage. -/
theorem HandsOver.advance {x : Record} (h : HandsOver s) (hthread : t.thread = s.process.thread)
    (hmapped : t.mapped = s.process.mapped)
    (hfinished : ∀ q, (t.region q).isFinished = true →
      (s.process.region q).isFinished = true ∨ q = r ∧ pc.stage = .finished)
    (hfrom : (s.process.thread (.worker r)).stage ≠ .finished) (hr : r < s.process.mapped)
    (hfree : ∀ j, (s.process.thread j).makes ≠ some r) (hmakes : pc.makes = none)
    (hreads : ∀ q retval, pc ≠ .join q retval .retval) (hat : x.At pc.stage)
    (hjoined : ∀ v ∈ x.joined, x.returns = [v]) :
    HandsOver { s.setRecord r x with process := t.goto (.worker r) pc } := by
  have hcases := goto_cases (.worker r) pc hthread
  have hself : (t.goto (.worker r) pc).thread (.worker r) = pc := goto_thread_self
  have hsame {q : Handle} (hq : q ≠ r) :
      (t.goto (.worker r) pc).thread (.worker q) = s.process.thread (.worker q) := by
    rcases hcases (.worker q) with ⟨-, hpc⟩ | ⟨heq, -⟩
    · exact hpc
    · exact (hq (Tid.worker.inj heq)).elim
  have hother {j : Tid} {q : Handle} (hj : ((t.goto (.worker r) pc).thread j).makes = some q) :
      (s.process.thread j).makes = some q ∧ q ≠ r := by
    rcases hcases j with ⟨-, hpc⟩ | ⟨-, hpc⟩
    · rw [hpc] at hj
      exact ⟨hj, fun hqr => hfree j (hqr ▸ hj)⟩
    · simp [hpc, hmakes] at hj
  refine ⟨fun q hq => ?_, fun j q hj => ?_, fun j k q hj hk => ?_, fun q hq => ?_,
    fun j q retval hj => ?_, fun q => ?_, fun j => ?_, fun q => ?_⟩
  · have hle : s.process.mapped ≤ q := hmapped ▸ hq
    rw [hsame (hr.trans_le hle).ne']
    exact h.unmade q hle
  · obtain ⟨hj, hq⟩ := hother hj
    rw [hsame hq]
    exact ⟨hmapped ▸ (h.makes j q hj).1, (h.makes j q hj).2⟩
  · exact h.alone j k q (hother hj).1 (hother hk).1
  · rcases hfinished q hq with hbefore | ⟨rfl, hstage⟩
    · have hbefore := h.finished q hbefore
      have hq : q ≠ r := fun hqr => hfrom (hqr ▸ hbefore)
      rwa [hsame hq]
    · rwa [hself]
  · rcases hcases j with ⟨-, hpc⟩ | ⟨-, hpc⟩
    · have hbefore := h.reads j q retval (hpc ▸ hj)
      have hq : q ≠ r := fun hqr => hfrom (hqr ▸ hbefore)
      rwa [hsame hq]
    · exact (hreads q retval (hpc ▸ hj)).elim
  · by_cases hq : q = r
    · subst hq
      simpa [Valued.setRecord, hself] using hat
    · rw [hsame hq]
      simpa [Valued.setRecord, hq] using h.record q
  · rcases hcases j with ⟨-, hpc⟩ | ⟨-, hpc⟩
    · rw [hpc]
      refine (h.fits j).frame rfl fun q hq => Function.update_of_ne ?_ ..
      rintro rfl
      exact hfree j hq
    · rw [hpc]
      exact Valued.fits_of_makes hmakes
  · by_cases hq : q = r
    · subst hq
      simpa [Valued.setRecord] using hjoined
    · simpa [Valued.setRecord, hq] using h.joined q

/-- Thread `i` goes on with filling in the descriptor of the region `r`, whose worker has not
been started. -/
theorem HandsOver.fill {x : Record} (h : HandsOver s) (hthread : t.thread = s.process.thread)
    (hmapped : s.process.mapped ≤ t.mapped) (hr : r < t.mapped)
    (hfinished : ∀ q, (t.region q).isFinished = true → (s.process.region q).isFinished = true)
    (hunborn : (s.process.thread (.worker r)).stage = .unborn)
    (hstage : pc.stage = (s.process.thread i).stage) (hmakes : pc.makes = some r)
    (hfree : ∀ j ≠ i, (s.process.thread j).makes ≠ some r)
    (hreads : ∀ q retval, pc ≠ .join q retval .retval) (hat : x.At .unborn)
    (hjoined : x.joined = (s.record r).joined) (hfits : (s.setRecord r x).Fits i pc) :
    HandsOver { s.setRecord r x with process := t.goto i pc } := by
  have hcases := goto_cases i pc hthread
  have hsame (j : Tid) : ((t.goto i pc).thread j).stage = (s.process.thread j).stage := by
    rcases hcases j with ⟨-, hpc⟩ | ⟨rfl, hpc⟩
    · rw [hpc]
    · rw [hpc, hstage]
  have hother {j : Tid} {q : Handle} (hj : ((t.goto i pc).thread j).makes = some q) :
      j = i ∧ q = r ∨ j ≠ i ∧ q ≠ r ∧ (s.process.thread j).makes = some q := by
    rcases hcases j with ⟨hne, hpc⟩ | ⟨rfl, hpc⟩
    · rw [hpc] at hj
      exact Or.inr ⟨hne, fun hqr => hfree j hne (hqr ▸ hj), hj⟩
    · rw [hpc, hmakes] at hj
      exact Or.inl ⟨rfl, (Option.some.inj hj).symm⟩
  have hreturns : (s.record r).returns = [] := by
    have hrecord := h.record r
    rw [hunborn] at hrecord
    exact hrecord.2
  refine ⟨fun q hq => ?_, fun j q hj => ?_, fun j k q hj hk => ?_, fun q hq => ?_,
    fun j q retval hj => ?_, fun q => ?_, fun j => ?_, fun q v hv => ?_⟩
  · rw [hsame]
    exact h.unmade q (hmapped.trans hq)
  · rw [hsame]
    rcases hother hj with ⟨-, rfl⟩ | ⟨-, -, hbefore⟩
    · exact ⟨hr, hunborn⟩
    · exact ⟨(h.makes j q hbefore).1.trans_le hmapped, (h.makes j q hbefore).2⟩
  · rcases hother hj with ⟨rfl, rfl⟩ | ⟨hji, hq, hbefore⟩
    · rcases hother hk with ⟨rfl, -⟩ | ⟨-, hq, -⟩
      · rfl
      · exact (hq rfl).elim
    · rcases hother hk with ⟨-, rfl⟩ | ⟨-, -, hbefore'⟩
      · exact (hq rfl).elim
      · exact h.alone j k q hbefore hbefore'
  · rw [hsame]
    exact h.finished q (hfinished q hq)
  · rw [hsame]
    rcases hcases j with ⟨-, hpc⟩ | ⟨-, hpc⟩
    · exact h.reads j q retval (hpc ▸ hj)
    · exact (hreads q retval (hpc ▸ hj)).elim
  · rw [hsame]
    by_cases hq : q = r
    · subst hq
      simpa [Valued.setRecord, hunborn] using hat
    · simpa [Valued.setRecord, hq] using h.record q
  · rcases hcases j with ⟨hne, hpc⟩ | ⟨rfl, hpc⟩
    · rw [hpc]
      refine (h.fits j).frame rfl fun q hq => Function.update_of_ne ?_ ..
      rintro rfl
      exact hfree j hne hq
    · rw [hpc]
      exact hfits.frame rfl fun _ _ => rfl
  · by_cases hq : q = r
    · subst hq
      have hv : v ∈ (s.record q).joined := by simpa [Valued.setRecord, hjoined] using hv
      simpa [hreturns] using h.joined q v hv
    · have hsame : (s.setRecord r x).record q = s.record q := Function.update_of_ne hq ..
      exact hsame ▸ h.joined q v (hsame ▸ hv)

end Frames

/-! ### The functions of the source -/

section Functions

variable {t t' : Process} {i : Tid} {r : Handle}

/-- `my_thread_join` hands over only at its `*retval = (*thread)->retval`. -/
theorem quiet_join {retval : Bool} {pc : JoinPc} (hpc : t.thread i = .join r retval pc)
    (hstep : t.join i r retval pc = some t') : Quiet t i t' := by
  have hquiet {u : Process} {pc' : Pc} (hkeeps : Keeps t u) (hstage : pc'.stage = .running)
      (hmakes : pc'.makes = none)
      (hreads : ∀ q b, pc' = .join q b .retval → (t.region q).isFinished = true) :
      Quiet t i (u.goto i pc') :=
    .goto hkeeps (by rw [hstage, hpc]; rfl) hmakes hreads
  cases pc with
  | check =>
      simp only [Process.join] at hstep
      split at hstep <;> obtain rfl := Option.some.inj hstep
      · exact hquiet .refl rfl rfl (by simp)
      · exact hquiet .refl rfl rfl (by simp)
  | test =>
      by_cases hfinished : (t.region r).isFinished = true
      · rw [Process.join, if_pos hfinished] at hstep
        obtain rfl := Option.some.inj hstep
        refine hquiet .refl rfl rfl fun q b heq => ?_
        obtain ⟨rfl, -, -⟩ := Pc.join.inj heq
        exact hfinished
      · rw [Process.join, if_neg hfinished] at hstep
        obtain rfl := Option.some.inj hstep
        exact hquiet .refl rfl rfl (by simp)
  | wait | retval | reset =>
      obtain rfl := Option.some.inj hstep
      exact hquiet .refl rfl rfl (by simp)
  | unmap =>
      obtain rfl := Option.some.inj hstep
      exact hquiet (.setRegion id) rfl rfl (by simp)

theorem quiet_detach {pc : DetachPc} (hpc : t.thread i = .detach r pc)
    (hstep : t.detach i r pc = some t') : Quiet t i t' := by
  have hquiet {u : Process} {pc' : Pc} (hkeeps : Keeps t u) (hstage : pc'.stage = .running)
      (hmakes : pc'.makes = none) (hreads : ∀ q b, pc' ≠ .join q b .retval) :
      Quiet t i (u.goto i pc') :=
    .goto hkeeps (by rw [hstage, hpc]; rfl) hmakes fun q b heq => (hreads q b heq).elim
  cases pc with
  | check =>
      simp only [Process.detach] at hstep
      split at hstep <;> obtain rfl := Option.some.inj hstep
      · exact hquiet .refl rfl rfl (by simp)
      · exact hquiet .refl rfl rfl (by simp)
  | set =>
      obtain rfl := Option.some.inj hstep
      exact hquiet (.setRegion id) rfl rfl (by simp)
  | exchange =>
      simp only [Process.detach] at hstep
      split at hstep <;> obtain rfl := Option.some.inj hstep
      · exact hquiet ⟨rfl, rfl, fun _ => id⟩ rfl rfl (by simp)
      · exact hquiet ⟨rfl, rfl, fun _ => id⟩ rfl rfl (by simp)
  | lock =>
      obtain ⟨u, hlock, rfl⟩ := Option.map_eq_some_iff.mp hstep
      exact hquiet (.lock hlock) rfl rfl (by simp)
  | push | unlock =>
      obtain rfl := Option.some.inj hstep
      exact hquiet ⟨rfl, rfl, fun _ => id⟩ rfl rfl (by simp)
  | signal =>
      obtain rfl := Option.some.inj hstep
      exact hquiet .refl rfl rfl (by simp)

theorem quiet_cleanupThreadFunc {pc : CleanupPc} (hpc : t.thread i = .cleanup pc)
    (hstep : t.cleanupThreadFunc i pc = some t') : Quiet t i t' := by
  have hquiet {u : Process} {pc' : CleanupPc} (hkeeps : Keeps t u) :
      Quiet t i (u.goto i (.cleanup pc')) :=
    .goto hkeeps (by rw [hpc]; rfl) rfl (by simp)
  cases pc with
  | lock | wait =>
      obtain ⟨u, hlock, rfl⟩ := Option.map_eq_some_iff.mp hstep
      exact hquiet (.lock hlock)
  | test | sleepTest q =>
      simp only [Process.cleanupThreadFunc] at hstep
      split at hstep <;> obtain rfl := Option.some.inj hstep
      · exact hquiet ⟨rfl, rfl, fun _ => id⟩
      · exact hquiet ⟨rfl, rfl, fun _ => id⟩
  | pop =>
      cases hlist : t.cleanupList with
      | nil => simp [Process.cleanupThreadFunc, hlist] at hstep
      | cons q rest =>
          simp only [Process.cleanupThreadFunc, hlist, Option.some.injEq] at hstep
          subst hstep
          exact hquiet ⟨rfl, rfl, fun _ => id⟩
  | unlock q =>
      obtain rfl := Option.some.inj hstep
      exact hquiet ⟨rfl, rfl, fun _ => id⟩
  | unmap q =>
      obtain rfl := Option.some.inj hstep
      exact hquiet (.setRegion id)
  | free =>
      obtain rfl := Option.some.inj hstep
      exact hquiet .refl

variable {s : Valued} {v : Pointer}

/-- A thread that executes this statement is no worker that has not been started. -/
theorem ne_worker {pc : Pc} (hpc : s.process.thread i = pc) (hstage : pc.stage ≠ .unborn)
    (hunborn : (s.process.thread (.worker r)).stage = .unborn) : i ≠ .worker r := by
  rintro rfl
  exact hstage (hpc ▸ hunborn)

theorem HandsOver.create {detached : Option Handle} {succeeds : Bool} {pc : CreatePc}
    (h : HandsOver s) (hpc : s.process.thread i = .create detached pc)
    (hstep : s.process.create i detached succeeds pc = some t') :
    HandsOver { s.handOver i (.go succeeds) v with process := t' } := by
  have hfits := h.fits i
  rw [hpc] at hfits
  have hquiet {u : Process} {pc' : Pc} (hkeeps : Keeps s.process u)
      (hstage : pc'.stage = .running) (hmakes : pc'.makes = none)
      (hreads : ∀ q b, pc' ≠ .join q b .retval)
      (hsame : s.handOver i (.go succeeds) v = s) :
      HandsOver { s.handOver i (.go succeeds) v with process := u.goto i pc' } := by
    rw [hsame]
    refine h.quiet (i := i) (.goto hkeeps (by rw [hstage, hpc]; rfl) hmakes fun q b heq => ?_)
      (fun _ _ => rfl) rfl
    exact (hreads q b heq).elim
  cases pc with
  | mmap =>
      cases succeeds with
      | true =>
          obtain rfl := Option.some.inj hstep
          have hunborn := h.unmade s.process.mapped le_rfl
          have hrecord := h.record s.process.mapped
          rw [hunborn] at hrecord
          simp only [Valued.handOver, hpc]
          refine h.fill rfl (Nat.le_succ _) (Nat.lt_succ_self _) (fun q hq => ?_) hunborn
            (by rw [hpc]; rfl) rfl (fun j _ hj => ?_) (by simp) hrecord rfl ?_
          · by_cases hqm : q = s.process.mapped
            · subst hqm
              simp [Process.map, Region.zero] at hq
            · simpa [Process.map, hqm] using hq
          · exact absurd (h.makes j _ hj).1 (lt_irrefl _)
          · simp [Valued.Fits, Valued.setRecord]
      | false =>
          obtain rfl := Option.some.inj hstep
          exact hquiet .refl rfl rfl (by simp) (by simp only [Valued.handOver, hpc])
  | init r =>
      obtain rfl := Option.some.inj hstep
      have hmade : (s.process.thread i).makes = some r := by rw [hpc]; rfl
      obtain ⟨hr, hunborn⟩ := h.makes i r hmade
      have hrecord := h.record r
      rw [hunborn] at hrecord
      simp only [Valued.handOver, hpc]
      refine h.fill rfl le_rfl hr (fun q hq => ?_) hunborn (by rw [hpc]; rfl) rfl
        (fun j hj hmakes => hj (h.alone j i r hmakes hmade)) (by simp) hrecord rfl ?_
      · by_cases hqr : q = r
        · subst hqr
          simp [Process.setRegion] at hq
        · simpa [Process.setRegion, hqr] using hq
      · simpa [Valued.Fits, Valued.setRecord] using hfits.symm
  | clone r =>
      cases succeeds with
      | true =>
          obtain rfl := Option.some.inj hstep
          have hmade : (s.process.thread i).makes = some r := by rw [hpc]; rfl
          obtain ⟨hr, hunborn⟩ := h.makes i r hmade
          have hne := ne_worker hpc (by simp [Pc.stage]) hunborn
          have hself : s.handOver i (.go true) v = s := by simp only [Valued.handOver, hpc]
          let moved := s.process.goto i (.create detached (.setTid r))
          have hmoved : HandsOver { s.handOver i (.go true) v with process := moved } :=
            hquiet .refl rfl rfl (by simp) hself
          have hworker : moved.thread (.worker r) = s.process.thread (.worker r) :=
            goto_thread_of_ne hne.symm
          -- The thread that has made the region fills it in no longer.
          have hfree (j : Tid) : (moved.thread j).makes ≠ some r := by
            intro hj
            have hcases : j ≠ i ∧ moved.thread j = s.process.thread j ∨
                j = i ∧ moved.thread j = .create detached (.setTid r) :=
              goto_cases i _ rfl j
            rcases hcases with ⟨hji, hthread⟩ | ⟨-, hthread⟩
            · exact hji (h.alone j i r (hthread ▸ hj) hmade)
            · simp [hthread, Pc.makes] at hj
          have hrecord := h.record r
          rw [hunborn] at hrecord
          rw [hself] at hmoved ⊢
          have hstarted : HandsOver { s.setRecord r (s.record r) with
              process := moved.goto (.worker r) (.threadFunc .enter) } :=
            hmoved.advance rfl rfl (fun q => Or.inl) (by simp [hworker, hunborn]) hr hfree rfl
              (by simp) ⟨hrecord.1, hrecord.2, hfits⟩ (h.joined r)
          simpa [Valued.setRecord] using hstarted
      | false =>
          obtain rfl := Option.some.inj hstep
          exact hquiet .refl rfl rfl (by simp) (by simp only [Valued.handOver, hpc])
  | cloneFailed r =>
      obtain rfl := Option.some.inj hstep
      exact hquiet (.setRegion id) rfl rfl (by simp) (by simp only [Valued.handOver, hpc])
  | setTid r =>
      obtain rfl := Option.some.inj hstep
      exact hquiet .refl rfl rfl (by simp) (by simp only [Valued.handOver, hpc])
  | store r =>
      cases detached with
      | none =>
          obtain rfl := Option.some.inj hstep
          exact hquiet (.setRegion id) rfl rfl (by simp) (by simp only [Valued.handOver, hpc])
      | some d =>
          obtain rfl := Option.some.inj hstep
          exact hquiet .refl rfl rfl (by simp) (by simp only [Valued.handOver, hpc])

/-- `start_routine` is called or returns, or `thread_func` goes on behind it. -/
theorem HandsOver.worker {x : Record} {pc : Pc} (h : HandsOver s)
    (hthread : t.thread = s.process.thread) (hmapped : t.mapped = s.process.mapped)
    (hfinished : ∀ q, (t.region q).isFinished = true →
      (s.process.region q).isFinished = true ∨ q = r ∧ pc.stage = .finished)
    (hborn : (s.process.thread (.worker r)).stage ≠ .unborn)
    (hfrom : (s.process.thread (.worker r)).stage ≠ .finished) (hmakes : pc.makes = none)
    (hreads : ∀ q retval, pc ≠ .join q retval .retval) (hat : x.At pc.stage)
    (hjoined : x.joined = (s.record r).joined)
    (hreturns : x.returns = (s.record r).returns ∨ (s.record r).returns = []) :
    HandsOver { s.setRecord r x with process := t.goto (.worker r) pc } := by
  have hr : r < s.process.mapped := lt_of_not_ge fun hle => hborn (h.unmade r hle)
  refine h.advance hthread hmapped hfinished hfrom hr (fun j hj => hborn (h.makes j r hj).2)
    hmakes hreads hat fun v hv => ?_
  have hv := h.joined r v (hjoined ▸ hv)
  rcases hreturns with hsame | hnone
  · rw [hsame, hv]
  · simp [hnone] at hv

theorem HandsOver.threadFunc {pc : ThreadPc} {succeeds : Bool} (h : HandsOver s)
    (hpc : s.process.thread (.worker r) = .threadFunc pc)
    (hstep : s.process.threadFunc r pc = some t') :
    HandsOver { s.handOver (.worker r) (.go succeeds) v with process := t' } := by
  have hrecord := h.record r
  rw [hpc] at hrecord
  cases pc with
  | enter =>
      obtain ⟨hcalls, hreturns, harg⟩ := hrecord
      have hrunning : (s.process.thread (.worker r)).stage = .entering := by rw [hpc]; rfl
      simp only [Process.threadFunc] at hstep
      simp only [Valued.handOver, hpc]
      split at hstep <;> obtain rfl := Option.some.inj hstep
      · exact h.worker rfl rfl (fun q => Or.inl) (by simp [hrunning]) (by simp [hrunning]) rfl
          (by simp) ⟨by rw [hcalls, harg], hreturns⟩ rfl (.inl rfl)
      · exact h.worker rfl rfl (fun q => Or.inl) (by simp [hrunning]) (by simp [hrunning]) rfl
          (by simp) ⟨by rw [hcalls, harg], hreturns⟩ rfl (.inl rfl)
  | storeRetval =>
      obtain ⟨hcalls, hreturns⟩ := hrecord
      have hreturned : (s.process.thread (.worker r)).stage = .returned := by rw [hpc]; rfl
      obtain rfl := Option.some.inj hstep
      simp only [Valued.handOver, hpc]
      exact h.worker rfl rfl (fun q => Or.inl) (by simp [hreturned]) (by simp [hreturned]) rfl
        (by simp) ⟨hcalls, hreturns⟩ rfl (.inl rfl)
  | finish =>
      have hstored : (s.process.thread (.worker r)).stage = .stored := by rw [hpc]; rfl
      obtain rfl := Option.some.inj hstep
      have hself : s.handOver (.worker r) (.go succeeds) v = s.setRecord r (s.record r) := by
        simp [Valued.handOver, hpc, Valued.setRecord]
      rw [hself]
      refine h.worker rfl rfl (fun q hq => ?_) (by simp [hstored]) (by simp [hstored]) rfl
        (by simp) hrecord rfl (.inl rfl)
      by_cases hqr : q = r
      · exact Or.inr ⟨hqr, rfl⟩
      · exact Or.inl (by simpa [Process.setRegion, hqr] using hq)
  | wake | exit =>
      obtain rfl := Option.some.inj hstep
      simp only [Valued.handOver, hpc]
      exact h.quiet (i := .worker r) (.goto .refl (by rw [hpc]; rfl) rfl (by simp))
        (fun _ _ => rfl) rfl
  | exited => simp [Process.threadFunc] at hstep

/-- The result of `my_thread_join` is what `start_routine` has returned. -/
theorem HandsOver.read {b : Bool} (h : HandsOver s)
    (hpc : s.process.thread i = .join r b .retval) :
    HandsOver (s.setRecord r
      { s.record r with joined := (s.record r).retval :: (s.record r).joined }) := by
  have hstage := h.reads i r b hpc
  have hrecord := h.record r
  rw [hstage] at hrecord
  have hother {q : Handle} (hq : q ≠ r) (x : Record) : (s.setRecord r x).record q = s.record q :=
    Function.update_of_ne hq ..
  refine ⟨h.unmade, h.makes, h.alone, h.finished, h.reads, fun q => ?_, fun j => ?_,
    fun q u hu => ?_⟩
  · by_cases hq : q = r
    · subst hq
      simp only [Valued.setRecord, Function.update_self, hstage]
      exact hrecord
    · rw [hother hq]
      exact h.record q
  · refine (h.fits j).frame rfl fun q hq => hother ?_ _
    rintro rfl
    exact absurd (hstage.symm.trans (h.makes j q hq).2) (by simp)
  · by_cases hq : q = r
    · subst hq
      simp only [Valued.setRecord, Function.update_self, List.mem_cons] at hu ⊢
      rcases hu with rfl | hu
      · exact hrecord.2
      · exact h.joined q u hu
    · rw [hother hq] at hu ⊢
      exact h.joined q u hu

/-- A step of a thread. -/
theorem HandsOver.next {c : Choice} (h : HandsOver s) (hstep : s.process.next i c = some t') :
    HandsOver { s.handOver i c v with process := t' } := by
  unfold Process.next at hstep
  split at hstep
  · next hpc =>
    obtain rfl := Option.some.inj hstep
    simp only [Valued.handOver, hpc]
    exact h.quiet (.goto .refl (by rw [hpc]; rfl) rfl (by simp))
      (fun j hj => Function.update_of_ne hj ..) rfl
  · next hpc =>
    obtain rfl := Option.some.inj hstep
    simp only [Valued.handOver, hpc]
    exact h.quiet (.goto (.setRegion id) (by rw [hpc]; rfl) rfl (by simp))
      (fun _ _ => rfl) rfl
  · next hpc =>
    obtain rfl := Option.some.inj hstep
    simpa only [Valued.handOver, hpc] using h
  · next hpc =>
    obtain rfl := Option.some.inj hstep
    simp only [Valued.handOver, hpc]
    exact h.quiet (.goto (.setRegion id) (by rw [hpc]; rfl) rfl (by simp))
      (fun _ _ => rfl) rfl
  · next r hpc =>
    obtain rfl := Option.some.inj hstep
    have hrunning : (s.process.thread (.worker r)).stage = .running := by rw [hpc]; rfl
    have hrecord := h.record r
    rw [hrunning] at hrecord
    simp only [Valued.handOver, hpc]
    refine h.worker rfl rfl (fun q => Or.inl) (by simp [hrunning]) (by simp [hrunning]) rfl
      (by simp) ⟨hrecord.1, ?_⟩ rfl (.inr hrecord.2)
    rw [hrecord.2]
  · next hpc => exact h.create hpc hstep
  · next i _ _ r b pc succeeds hpc =>
    have hquiet := quiet_join hpc hstep
    cases pc with
    | retval =>
        simp only [Valued.handOver, hpc]
        exact (h.read hpc).quiet hquiet (fun _ _ => rfl) rfl
    | _ =>
        simp only [Valued.handOver, hpc]
        exact h.quiet hquiet (fun _ _ => rfl) rfl
  · next i _ _ r pc succeeds hpc =>
    refine h.quiet (quiet_detach hpc hstep) (fun j hj => ?_) ?_
    · cases pc with
      | exchange =>
          simp only [Valued.handOver, hpc]
          split
          · rfl
          · exact Function.update_of_ne hj ..
      | _ => simp only [Valued.handOver, hpc]
    · cases pc with
      | exchange =>
          simp only [Valued.handOver, hpc]
          split <;> rfl
      | _ => simp only [Valued.handOver, hpc]
  · next hpc => exact h.threadFunc hpc hstep
  · next hpc =>
    simp only [Valued.handOver, hpc]
    exact h.quiet (quiet_cleanupThreadFunc hpc hstep) (fun _ _ => rfl) rfl
  · simp at hstep

end Functions

/-- In every run up to the first access to a region that is not mapped, with any number of
threads that create, join and detach each other and whatever fails: `start_routine` is
called at most once for each region, with the argument of the `my_thread_create` that
mapped it, and returns at most once; and what a `my_thread_join` writes to `*retval` is
what it has returned. -/
theorem handsOver {s : Valued} (hs : valued.Reachable (· = .start) s) (r : Handle) :
    (s.record r).calls <+: [(s.record r).given] ∧ (s.record r).returns.length ≤ 1 ∧
      ∀ v ∈ (s.record r).joined, (s.record r).returns = [v] := by
  have h : HandsOver s := by
    refine hs.induction ?_ fun s a s' h _ hstep => ?_
    · rintro s rfl
      exact handsOver_start
    · obtain ⟨-, hmap⟩ := Option.ite_none_right_eq_some.mp hstep
      obtain ⟨t, hnext, rfl⟩ := Option.map_eq_some_iff.mp hmap
      exact h.next hnext
  have hrecord := h.record r
  refine ⟨?_, ?_, h.joined r⟩
  · cases hstage : (s.process.thread (.worker r)).stage with
    | unborn | entering =>
        rw [hstage] at hrecord
        rw [hrecord.1]
        exact List.nil_prefix
    | running | returned | stored | finished =>
        rw [hstage] at hrecord
        rw [hrecord.1]
  · cases hstage : (s.process.thread (.worker r)).stage with
    | unborn | running =>
        rw [hstage] at hrecord
        simp [hrecord.2]
    | entering =>
        rw [hstage] at hrecord
        simp [hrecord.2.1]
    | returned | stored | finished =>
        rw [hstage] at hrecord
        simp [hrecord.2]

/-- The main thread gives `7` to a thread that returns `5`, and joins it before its
`FUTEX_WAKE`. -/
def joinedEarly : List (Tid × Choice × Pointer) :=
  (.outside 0, .create, 7) :: List.replicate 5 (.outside 0, .go true, 0) ++
    [(.worker 0, .go true, 0), (.worker 0, .done, 5), (.worker 0, .go true, 0),
      (.worker 0, .go true, 0)] ++
    (.outside 0, .join 0 true, 0) :: List.replicate 5 (.outside 0, .go true, 0)

/-- It gets the `5`. -/
theorem handsOver_joinedEarly :
    ∃ s ∈ valued.run (fun _ _ => true) .start joinedEarly,
      (s.record 0).joined = [5] ∧ (s.record 0).returns = [5] ∧ (s.record 0).calls <+: [7] := by
  have hstart : valued.Reachable (· = .start) .start := .start rfl
  obtain ⟨s, hrun, hs, hjoined, hgiven⟩ := hstart.exists_run (fun _ _ _ => trivial)
    (fun s => (s.record 0).joined = [5] ∧ (s.record 0).given = 7)
    (by decide +kernel : (valued.run (fun _ _ => true) .start joinedEarly).any _ = true)
  obtain ⟨hcalls, -, hreturns⟩ := handsOver hs 0
  exact ⟨s, hrun, hjoined, hreturns 5 (by simp [hjoined]), hgiven ▸ hcalls⟩

end MyThread
end OperatingSystems
