import OperatingSystems.MyThread.Regions

/-!
# Stack lifetime

* `Undisturbed` — what the other threads notice of a step.
* `Sound.served_next` — once `cleanup_thread_started` is set, some thread is in
  `cleanup_thread_func` or about to create the thread that will be.
* `unmapped_once` — every region that is joined or detached is unmapped once, behind the
  last step of its worker, and not used afterwards, as long as no `munmap` falls between
  the worker's store to `is_finished` and its `SYS_exit`.
-/

namespace OperatingSystems
namespace MyThread

/-! ### The cleanup thread -/

section Serving

variable {s s' t : Process} {place : Handle → Place Tid Rest} {i : Tid} {r : Handle} {pc : Pc}

/-- What the others notice of a step of thread `i`: a thread that exists stays where it
is, `start_routine` is not written any more, and `cleanup_thread_started` is only set by
a thread that goes on to create the cleanup thread. -/
structure Undisturbed (s s' : Process) (i : Tid) : Prop where
  thread : ∀ j ≠ i, s.thread j ≠ .unborn → s'.thread j = s.thread j
  routine : ∀ r, s.thread (.worker r) ≠ .unborn →
    (s'.region r).startRoutine = (s.region r).startRoutine
  started : s'.cleanupThreadStarted = true → s.cleanupThreadStarted = true ∨ s'.serves i = true

theorem Undisturbed.goto (hthread : t.thread = s.thread)
    (hroutine : ∀ r, s.thread (.worker r) ≠ .unborn →
      (t.region r).startRoutine = (s.region r).startRoutine)
    (hstarted : t.cleanupThreadStarted = true →
      s.cleanupThreadStarted = true ∨ (t.goto i pc).serves i = true) :
    Undisturbed s (t.goto i pc) i :=
  ⟨fun _ hj _ => (goto_thread_of_ne hj).trans (by rw [hthread]), hroutine, hstarted⟩

theorem Undisturbed.setRegion {x : Region}
    (hx : s.thread (.worker r) ≠ .unborn → x.startRoutine = (s.region r).startRoutine) :
    Undisturbed s ((s.setRegion r x).goto i pc) i := by
  refine .goto rfl (fun q hq => ?_) Or.inl
  by_cases hqr : q = r
  · subst hqr
    simpa using hx hq
  · rw [show (s.setRegion r x).region q = s.region q from Function.update_of_ne hqr ..]

theorem Sound.create_undisturbed {detached : Option Handle} {succeeds : Bool} {pc : CreatePc}
    (h : Sound s place) (hpc : s.thread i = .create detached pc)
    (hstep : s.create i detached succeeds pc = some s') : Undisturbed s s' i := by
  have hfits := h.fits i
  rw [hpc] at hfits
  cases pc with
  | mmap =>
      cases succeeds with
      | true =>
          obtain rfl := Option.some.inj hstep
          refine .goto rfl (fun q hq => ?_) Or.inl
          have hne : q ≠ s.mapped := by
            rintro rfl
            have hkept := h.kept s.mapped
            exact hq (hkept.unborn (hkept.unmade.mp (Nat.le_refl _)))
          rw [show s.map.region q = s.region q from Function.update_of_ne hne ..]
      | false =>
          obtain rfl := Option.some.inj hstep
          exact .goto rfl (fun _ _ => rfl) Or.inl
  | init r =>
      obtain rfl := Option.some.inj hstep
      exact .setRegion fun hborn => (hborn hfits.2.2.1).elim
  | clone r =>
      cases succeeds with
      | true =>
          obtain rfl := Option.some.inj hstep
          refine ⟨fun j hj hborn => ?_, fun _ _ => rfl, Or.inl⟩
          have hne : j ≠ .worker r := by
            rintro rfl
            exact hborn hfits.2.2.1
          rw [goto_thread_of_ne hne, goto_thread_of_ne hj]
      | false =>
          obtain rfl := Option.some.inj hstep
          exact .goto rfl (fun _ _ => rfl) Or.inl
  | cloneFailed r =>
      obtain rfl := Option.some.inj hstep
      exact .setRegion fun _ => rfl
  | setTid r =>
      obtain rfl := Option.some.inj hstep
      exact .goto rfl (fun _ _ => rfl) Or.inl
  | store r =>
      cases detached with
      | none =>
          obtain rfl := Option.some.inj hstep
          exact .setRegion fun _ => rfl
      | some d =>
          obtain rfl := Option.some.inj hstep
          exact .goto rfl (fun _ _ => rfl) Or.inl

theorem join_undisturbed {retval : Bool} {pc : JoinPc}
    (hstep : s.join i r retval pc = some s') : Undisturbed s s' i := by
  cases pc with
  | check | test =>
      simp only [Process.join] at hstep
      split at hstep <;> obtain rfl := Option.some.inj hstep
      · exact .goto rfl (fun _ _ => rfl) Or.inl
      · exact .goto rfl (fun _ _ => rfl) Or.inl
  | wait | retval | reset =>
      obtain rfl := Option.some.inj hstep
      exact .goto rfl (fun _ _ => rfl) Or.inl
  | unmap =>
      obtain rfl := Option.some.inj hstep
      exact .setRegion fun _ => rfl

theorem detach_undisturbed {pc : DetachPc} (hstep : s.detach i r pc = some s') :
    Undisturbed s s' i := by
  cases pc with
  | check =>
      simp only [Process.detach] at hstep
      split at hstep <;> obtain rfl := Option.some.inj hstep
      · exact .goto rfl (fun _ _ => rfl) Or.inl
      · exact .goto rfl (fun _ _ => rfl) Or.inl
  | exchange =>
      by_cases hstarted : s.cleanupThreadStarted = true
      · rw [Process.detach, if_pos hstarted] at hstep
        obtain rfl := Option.some.inj hstep
        exact .goto rfl (fun _ _ => rfl) fun _ => Or.inl hstarted
      · rw [Process.detach, if_neg hstarted] at hstep
        obtain rfl := Option.some.inj hstep
        refine .goto rfl (fun _ _ => rfl) fun _ => Or.inr ?_
        simp [Process.serves]
  | set =>
      obtain rfl := Option.some.inj hstep
      exact .setRegion fun _ => rfl
  | lock =>
      obtain ⟨t, hlock, rfl⟩ := Option.map_eq_some_iff.mp hstep
      obtain rfl := Process.lock_eq_some hlock
      exact .goto rfl (fun _ _ => rfl) Or.inl
  | push | unlock | signal =>
      obtain rfl := Option.some.inj hstep
      exact .goto rfl (fun _ _ => rfl) Or.inl

theorem threadFunc_undisturbed {pc : ThreadPc} (hstep : s.threadFunc r pc = some s') :
    Undisturbed s s' (.worker r) := by
  cases pc with
  | enter =>
      simp only [Process.threadFunc] at hstep
      split at hstep <;> obtain rfl := Option.some.inj hstep
      · exact .goto rfl (fun _ _ => rfl) Or.inl
      · exact .goto rfl (fun _ _ => rfl) Or.inl
  | finish =>
      obtain rfl := Option.some.inj hstep
      exact .setRegion fun _ => rfl
  | storeRetval | wake | exit =>
      obtain rfl := Option.some.inj hstep
      exact .goto rfl (fun _ _ => rfl) Or.inl
  | exited => simp [Process.threadFunc] at hstep

theorem cleanupThreadFunc_undisturbed {pc : CleanupPc}
    (hstep : s.cleanupThreadFunc i pc = some s') : Undisturbed s s' i := by
  cases pc with
  | lock | wait =>
      obtain ⟨t, hlock, rfl⟩ := Option.map_eq_some_iff.mp hstep
      obtain rfl := Process.lock_eq_some hlock
      exact .goto rfl (fun _ _ => rfl) Or.inl
  | test | sleepTest r =>
      simp only [Process.cleanupThreadFunc] at hstep
      split at hstep <;> obtain rfl := Option.some.inj hstep
      · exact .goto rfl (fun _ _ => rfl) Or.inl
      · exact .goto rfl (fun _ _ => rfl) Or.inl
  | pop =>
      cases hlist : s.cleanupList with
      | nil => simp [Process.cleanupThreadFunc, hlist] at hstep
      | cons r rest =>
          simp only [Process.cleanupThreadFunc, hlist, Option.some.injEq] at hstep
          subst hstep
          exact .goto rfl (fun _ _ => rfl) Or.inl
  | unlock r | free =>
      obtain rfl := Option.some.inj hstep
      exact .goto rfl (fun _ _ => rfl) Or.inl
  | unmap r =>
      obtain rfl := Option.some.inj hstep
      exact .setRegion fun _ => rfl

theorem Sound.next_undisturbed {c : Choice} (h : Sound s place) (hstep : s.next i c = some s') :
    Undisturbed s s' i := by
  unfold Process.next at hstep
  split at hstep
  · obtain rfl := Option.some.inj hstep
    exact .goto rfl (fun _ _ => rfl) Or.inl
  · obtain rfl := Option.some.inj hstep
    exact .setRegion fun _ => rfl
  · obtain rfl := Option.some.inj hstep
    exact ⟨fun _ _ _ => rfl, fun _ _ => rfl, Or.inl⟩
  · obtain rfl := Option.some.inj hstep
    exact .setRegion fun _ => rfl
  · obtain rfl := Option.some.inj hstep
    exact .goto rfl (fun _ _ => rfl) Or.inl
  · next hpc => exact h.create_undisturbed hpc hstep
  · exact join_undisturbed hstep
  · exact detach_undisturbed hstep
  · exact threadFunc_undisturbed hstep
  · exact cleanupThreadFunc_undisturbed hstep
  · simp at hstep

/-- A thread that serves the list goes on serving it while another thread moves. -/
theorem Undisturbed.serves {j : Tid} (h : Undisturbed s s' i) (hj : j ≠ i)
    (hserves : s.serves j = true) : s'.serves j = true := by
  have hborn : s.thread j ≠ .unborn := by
    intro hunborn
    simp [Process.serves, hunborn] at hserves
  have hcleaner : s'.isCleaner j = s.isCleaner j := by
    cases j with
    | outside n => rfl
    | worker r => simp only [Process.isCleaner, h.routine r hborn]
  simpa only [Process.serves, h.thread j hj hborn, hcleaner] using hserves

/-- The cleanup thread does not leave `cleanup_thread_func`. -/
theorem cleanupThreadFunc_serves {pc : CleanupPc} (hstep : s.cleanupThreadFunc i pc = some s') :
    s'.serves i = true := by
  cases pc with
  | lock | wait =>
      obtain ⟨t, -, rfl⟩ := Option.map_eq_some_iff.mp hstep
      simp [Process.serves]
  | test | sleepTest r =>
      simp only [Process.cleanupThreadFunc] at hstep
      split at hstep <;> obtain rfl := Option.some.inj hstep
      · simp [Process.serves]
      · simp [Process.serves]
  | pop =>
      cases hlist : s.cleanupList with
      | nil => simp [Process.cleanupThreadFunc, hlist] at hstep
      | cons r rest =>
          simp only [Process.cleanupThreadFunc, hlist, Option.some.injEq] at hstep
          subst hstep
          simp [Process.serves]
  | unlock r | unmap r | free =>
      obtain rfl := Option.some.inj hstep
      simp [Process.serves]

/-- A thread that serves the list goes on serving it with its own steps, or starts the
thread that does. -/
theorem Sound.serves_next {c : Choice} (h : Sound s place)
    (hcreated : cleanerCreated s (i, c) = true) (hstep : s.next i c = some s')
    (hserves : s.serves i = true) : ∃ j, s'.serves j = true := by
  have hfits := h.fits i
  unfold Process.next at hstep
  split at hstep
  · next hpc => simp [Process.serves, hpc] at hserves
  · next hpc => simp [Process.serves, hpc] at hserves
  · next hpc => simp [Process.serves, hpc] at hserves
  · next hpc => simp [Process.serves, hpc] at hserves
  · next hpc => simp [Process.serves, hpc] at hserves
  · next i _ _ _ detached pc succeeds hpc =>
    rw [hpc] at hfits
    cases detached with
    | none => simp [Process.serves, hpc] at hserves
    | some d =>
        cases pc with
        | mmap =>
            obtain rfl : succeeds = true := by simpa [cleanerCreated, hpc] using hcreated
            obtain rfl := Option.some.inj hstep
            exact ⟨i, by simp [Process.serves]⟩
        | init r =>
            obtain rfl := Option.some.inj hstep
            exact ⟨i, by simp [Process.serves]⟩
        | clone r =>
            obtain rfl : succeeds = true := by simpa [cleanerCreated, hpc] using hcreated
            obtain rfl := Option.some.inj hstep
            exact ⟨.worker r, by simp [Process.serves, Process.isCleaner, hfits.2.2.2.2.2]⟩
        | _ => simp [Process.serves, hpc] at hserves
  · next hpc => simp [Process.serves, hpc] at hserves
  · next hpc => simp [Process.serves, hpc] at hserves
  · next r pc succeeds hpc =>
    cases pc with
    | enter =>
        have hcleaner : (s.region r).startRoutine = .cleanupThreadFunc := by
          simpa [Process.serves, Process.isCleaner, hpc] using hserves
        simp only [Process.threadFunc, hcleaner, Option.some.injEq] at hstep
        subst hstep
        exact ⟨.worker r, by simp [Process.serves]⟩
    | _ => simp [Process.serves, hpc] at hserves
  · exact ⟨_, cleanupThreadFunc_serves hstep⟩
  · simp at hstep

theorem Sound.served_next {c : Choice} (h : Sound s place)
    (hcreated : cleanerCreated s (i, c) = true) (hstep : s.next i c = some s')
    (hserved : s.cleanupThreadStarted = true → ∃ j, s.serves j = true)
    (hstarted : s'.cleanupThreadStarted = true) : ∃ j, s'.serves j = true := by
  have hundisturbed := h.next_undisturbed hstep
  rcases hundisturbed.started hstarted with hbefore | hserves
  · obtain ⟨j, hj⟩ := hserved hbefore
    by_cases hji : j = i
    · subst hji
      exact h.serves_next hcreated hstep hj
    · exact ⟨j, hundisturbed.serves hji hj⟩
  · exact ⟨i, hserves⟩

end Serving

/-! ### The lifetime of a stack -/

/-- The conditions on a step. -/
def ok (s : Process) (a : Tid × Choice) : Bool :=
  usedOnce s a && inTime s a && cleanerCreated s a

theorem sound {s : Process} (hs : myThread.ReachableUnder (· = .start) (fun s a => ok s a) s) :
    (∃ place, Sound s place) ∧
      (s.cleanupThreadStarted = true → ∃ i, s.serves i = true) := by
  refine hs.induction (I := fun s => (∃ place, Sound s place) ∧
    (s.cleanupThreadStarted = true → ∃ i, s.serves i = true)) ?_ ?_
  · rintro s rfl
    exact ⟨⟨_, sound_start⟩, by simp [Process.start]⟩
  · rintro s ⟨i, c⟩ s' ⟨⟨place, h⟩, hserved⟩ hok hstep
    obtain ⟨⟨hused, htime⟩, hcreated⟩ : (usedOnce s (i, c) = true ∧ inTime s (i, c) = true) ∧
        cleanerCreated s (i, c) = true := by simpa [ok] using hok
    exact ⟨h.next hused htime hcreated hstep, h.served_next hcreated hstep hserved⟩

theorem touches_subset_due (pc : Pc) : pc.touches ⊆ pc.due := by
  cases pc with
  | create detached pc => cases pc <;> simp [Pc.touches, Pc.due, CreatePc.made]
  | join r retval pc => simp [Pc.touches, Pc.due]
  | detach r pc => cases pc <;> simp [Pc.touches, Pc.due]
  | cleanup pc => cases pc <;> simp [Pc.touches, Pc.due]
  | _ => simp [Pc.touches]

section Lifetime

variable {s : Process} {place : Handle → Place Tid Rest}

/-- A region that a thread uses is not unmapped. -/
theorem Sound.mapped_of_accesses {i : Tid} {r : Handle} (h : Sound s place)
    (haccess : r ∈ s.accesses i) : (s.region r).unmaps = 0 := by
  have hkept := h.kept r
  have htouches (htouch : r ∈ (s.thread i).touches) : place r ≠ .rests .unmapped := by
    have hplace := (h.custody i r).mp (touches_subset_due _ htouch)
    simp [hplace]
  have hplace : place r ≠ .rests .unmapped := by
    cases i with
    | outside n => exact htouches haccess
    | worker q =>
        rcases List.mem_append.mp haccess with hown | htouch
        · split at hown
          · simp at hown
          · next hruns =>
            obtain rfl := List.mem_singleton.mp hown
            exact fun hp => hruns (hkept.halted hp)
        · exact htouches htouch
  simpa [hplace] using hkept.unmaps

/-- A region that was joined or detached is unmapped, or a thread has it in its hands, or
it is on `cleanup_list`. -/
theorem Sound.taken {r : Handle} (h : Sound s place) (htaken : (s.region r).taken = true) :
    (s.region r).unmaps = 1 ∨ (∃ i, r ∈ (s.thread i).due) ∨ r ∈ s.cleanupList := by
  have hkept := h.kept r
  have hstored := hkept.taken htaken
  cases hplace : place r with
  | hands i => exact Or.inr (Or.inl ⟨i, (h.custody i r).mpr hplace⟩)
  | rests k =>
      rw [hplace] at hkept
      cases k with
      | unmapped => exact Or.inl (by simpa using hkept.unmaps)
      | cleanupList => exact Or.inr (Or.inr (hkept.listed.mpr rfl))
      | handed => simpa [htaken] using hkept.handed.mpr rfl
      | unmade => simpa [hstored] using hkept.hidden (Or.inl rfl)
      | kept => simpa [hstored] using hkept.hidden (Or.inr rfl)

end Lifetime

/-- In every run in which each handle is used once, no `munmap` of `my_thread_join` or of
the cleanup thread falls between the worker's store to `is_finished` and its `SYS_exit`,
and the cleanup thread is created: no region is unmapped twice; one that was joined or
detached is unmapped, or a thread has its `munmap` still before it, or it is on
`cleanup_list` while a cleanup thread serves the list; a region is unmapped only when its
worker runs no more; and no thread reads or writes one that is unmapped. -/
theorem unmapped_once {s : Process}
    (hs : myThread.ReachableUnder (· = .start) (fun s a => ok s a) s) (r : Handle) :
    (s.region r).unmaps ≤ 1 ∧
      ((s.region r).taken = true → (s.region r).unmaps = 1 ∨ (∃ i, r ∈ (s.thread i).due) ∨
        r ∈ s.cleanupList ∧ ∃ i, s.serves i = true) ∧
      (0 < (s.region r).unmaps → (s.thread (.worker r)).halted = true) ∧
      ∀ i, r ∈ s.accesses i → (s.region r).unmaps = 0 := by
  obtain ⟨⟨place, h⟩, hserved⟩ := sound hs
  have hkept := h.kept r
  refine ⟨?_, fun htaken => ?_, fun hunmaps => ?_, fun i => h.mapped_of_accesses⟩
  · rw [hkept.unmaps]
    split <;> omega
  · rcases h.taken htaken with hdone | hhands | hlisted
    · exact Or.inl hdone
    · exact Or.inr (Or.inl hhands)
    · exact Or.inr (Or.inr ⟨hlisted, hserved (hkept.started (hkept.listed.mp hlisted))⟩)
  · rw [hkept.unmaps] at hunmaps
    split at hunmaps
    · next hplace => exact hkept.halted hplace
    · omega

/-! ### Two runs -/

theorem start_reachable {ok : Process → Tid × Choice → Prop} :
    myThread.ReachableUnder (· = .start) ok .start :=
  .start rfl

/-- A thread executes its next statements, whose system calls succeed. -/
def steps (i : Tid) (n : Nat) : List (Tid × Choice) :=
  List.replicate n (i, .go true)

/-- The main thread creates a thread. -/
def created : List (Tid × Choice) :=
  (.outside 0, .create) :: steps (.outside 0) 5

/-- The worker returns from `start_routine` at once and stores to `is_finished`. -/
def finished (r : Handle) : List (Tid × Choice) :=
  (.worker r, .go true) :: (.worker r, .done) :: steps (.worker r) 2

/-- One thread is joined; another one is detached, and the cleanup thread unmaps its
stack. -/
def joinedAndDetached : List (Tid × Choice) :=
  created ++ created ++ finished 0 ++ steps (.worker 0) 2 ++
    ((.outside 0, .join 0 true) :: steps (.outside 0) 5) ++
    ((.outside 0, .detach (some 1)) :: steps (.outside 0) 12) ++
    finished 1 ++ steps (.worker 1) 2 ++ steps (.worker 2) 7

/-- The stacks of both threads are unmapped, and no thread uses them any more. -/
theorem unmapped_once_joinedAndDetached :
    ∃ s ∈ myThread.run ok .start joinedAndDetached,
      (s.region 0).unmaps = 1 ∧ (s.region 1).unmaps = 1 ∧
        ∀ i, 0 ∉ s.accesses i ∧ 1 ∉ s.accesses i := by
  obtain ⟨s, hrun, hs, hjoined, hdetached⟩ := start_reachable.exists_run (fun _ _ => id)
    (fun s => (s.region 0).unmaps = 1 ∧ (s.region 1).unmaps = 1)
    (by decide +kernel : (myThread.run ok .start joinedAndDetached).any _ = true)
  refine ⟨s, hrun, hjoined, hdetached, fun i => ⟨fun hmem => ?_, fun hmem => ?_⟩⟩
  · have hzero := (unmapped_once hs 0).2.2.2 i hmem
    omega
  · have hzero := (unmapped_once hs 1).2.2.2 i hmem
    omega

/-- The main thread joins the worker between its store to `is_finished` and its
`FUTEX_WAKE`, which then goes to a descriptor that is unmapped. -/
theorem unmapped_too_early :
    ∃ s ∈ myThread.run (fun s a => usedOnce s a && cleanerCreated s a) .start
        (created ++ finished 0 ++ (.outside 0, .join 0 true) :: steps (.outside 0) 5),
      myThread.ReachableUnder (· = .start) (fun s a => usedOnce s a && cleanerCreated s a) s ∧
        0 < (s.region 0).unmaps ∧ s.thread (.worker 0) = .threadFunc .wake ∧
          0 ∈ s.accesses (.worker 0) := by
  refine start_reachable.exists_run (fun _ _ => id)
    (fun s => 0 < (s.region 0).unmaps ∧ s.thread (.worker 0) = .threadFunc .wake ∧
      0 ∈ s.accesses (.worker 0)) ?_
  decide +kernel

end MyThread
end OperatingSystems
