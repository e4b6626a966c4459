import OperatingSystems.Library.Custody
import OperatingSystems.MyThread.Thread

/-!
# Who has a stack region

Every region is in the hands of the thread that creates, joins, detaches or cleans it
up, or it rests: not mapped yet, handed to the program, on `cleanup_list`, kept by the
cleanup thread for its own stack, or unmapped.

* `Kept` — what holds of a region, by where it is.
* `Fits` — what a thread relies on at its next statement.
* `Sound` — the invariant; `Sound.quiet` and `Sound.transfer` are the steps that change no
  region and one region, and every function of the source has a lemma.
* `usedOnce`, `inTime`, `cleanerCreated` — the conditions on a step.
-/

namespace OperatingSystems
namespace MyThread

/-- Where a region is when no thread has it in its hands. -/
inductive Rest
  | unmade
  | handed
  | cleanupList
  | kept
  | unmapped
  deriving DecidableEq

/-- The thread has stored to `is_finished`. -/
def Pc.afterFlag : Pc → Bool
  | .threadFunc .wake | .threadFunc .exit | .threadFunc .exited => true
  | _ => false

/-- What holds of the region `r` at the place `p`. -/
structure Kept (s : Process) (r : Handle) (p : Place Tid Rest) : Prop where
  listed : r ∈ s.cleanupList ↔ p = .rests .cleanupList
  unmade : s.mapped ≤ r ↔ p = .rests .unmade
  handed : ((s.region r).stored = true ∧ (s.region r).taken = false) ↔ p = .rests .handed
  hidden : p = .rests .unmade ∨ p = .rests .kept → (s.region r).stored = false
  taken : (s.region r).taken = true → (s.region r).stored = true
  unmaps : (s.region r).unmaps = if p = .rests .unmapped then 1 else 0
  halted : p = .rests .unmapped → (s.thread (.worker r)).halted = true
  unborn : p = .rests .unmade → s.thread (.worker r) = .unborn
  joinable : p = .rests .handed → (s.region r).joinable = true
  finished : (s.region r).isFinished = true → (s.thread (.worker r)).afterFlag = true
  started : p = .rests .cleanupList → s.cleanupThreadStarted = true

/-- What `my_thread_create` relies on at its next statement. -/
def CreateFits (s : Process) (detached : Option Handle) : CreatePc → Prop
  | .mmap => True
  | .init r => detached ≠ some r ∧ s.thread (.worker r) = .unborn ∧ (s.region r).stored = false
  | .clone r =>
      detached ≠ some r ∧ s.thread (.worker r) = .unborn ∧ (s.region r).stored = false ∧
        (s.region r).joinable = true ∧
        (detached ≠ none → (s.region r).startRoutine = .cleanupThreadFunc)
  | .cloneFailed r =>
      s.thread (.worker r) = .unborn ∧ (s.region r).stored = false ∧ detached = none
  | .setTid r | .store r =>
      detached ≠ some r ∧ (s.region r).stored = false ∧ (s.region r).joinable = true

/-- What a thread relies on at its next statement. -/
def Fits (s : Process) : Pc → Prop
  | .create detached pc =>
      (detached ≠ none → s.cleanupThreadStarted = true) ∧ CreateFits s detached pc
  | .join r _ .check | .detach r .check => (s.region r).joinable = true
  | .join r _ .retval | .join r _ .reset | .join r _ .unmap | .cleanup (.unmap r) =>
      (s.thread (.worker r)).afterFlag = true
  | .detach _ .lock | .detach _ .push => s.cleanupThreadStarted = true
  | _ => True

/-- The invariant. -/
structure Sound (s : Process) (place : Handle → Place Tid Rest) : Prop where
  custody : Custody (fun i r => r ∈ (s.thread i).due) place
  nodup : s.cleanupList.Nodup
  kept : ∀ r, Kept s r (place r)
  fits : ∀ i, Fits s (s.thread i)

/-- `my_thread_join` and `my_thread_detach` are only called with a handle that
`my_thread_create` has returned, and once for each handle. -/
def usedOnce (s : Process) (a : Tid × Choice) : Bool :=
  match s.thread a.1, a.2 with
  | .idle, .join r _ | .idle, .detach (some r) => (s.region r).stored && !(s.region r).taken
  | _, _ => true

/-- No `munmap` of `my_thread_join` or of the cleanup thread falls between the worker's
store to `is_finished` and its `SYS_exit`. -/
def inTime (s : Process) (a : Tid × Choice) : Bool :=
  match s.thread a.1 with
  | .join r _ .unmap | .cleanup (.unmap r) =>
      s.thread (.worker r) ≠ .threadFunc .wake ∧ s.thread (.worker r) ≠ .threadFunc .exit
  | _ => true

/-- The `mmap` and the `clone` for the cleanup thread succeed. -/
def cleanerCreated (s : Process) (a : Tid × Choice) : Bool :=
  match s.thread a.1, a.2 with
  | .create (some _) .mmap, .go succeeds | .create (some _) (.clone _), .go succeeds => succeeds
  | _, _ => true

/-! ### Frames -/

/-- A thread stays where it is, or it goes on and does not take back its store to
`is_finished`. -/
def Pc.Onward (pc pc' : Pc) : Prop :=
  pc' = pc ∨ pc.halted = false ∧ (pc.afterFlag = true → pc'.afterFlag = true)

theorem Pc.Onward.of_halted {pc pc' : Pc} (h : pc.Onward pc') (hhalted : pc.halted = true) :
    pc' = pc := by
  rcases h with rfl | ⟨hruns, -⟩
  · rfl
  · simp [hhalted] at hruns

theorem Pc.Onward.afterFlag {pc pc' : Pc} (h : pc.Onward pc') (hflag : pc.afterFlag = true) :
    pc'.afterFlag = true := by
  rcases h with rfl | ⟨-, hkeeps⟩
  · exact hflag
  · exact hkeeps hflag

section Frames

variable {s t : Process} {place : Handle → Place Tid Rest} {i : Tid} {pc : Pc} {r : Handle}
  {p : Place Tid Rest} {detached : Option Handle}

@[simp] theorem goto_thread_self : (s.goto i pc).thread i = pc :=
  Function.update_self ..

theorem goto_thread_of_ne {j : Tid} (hj : j ≠ i) : (s.goto i pc).thread j = s.thread j :=
  Function.update_of_ne hj ..

@[simp] theorem goto_region : (s.goto i pc).region = s.region := rfl

@[simp] theorem goto_mapped : (s.goto i pc).mapped = s.mapped := rfl

@[simp] theorem goto_cleanupList : (s.goto i pc).cleanupList = s.cleanupList := rfl

@[simp] theorem setRegion_region_self {x : Region} : (s.setRegion r x).region r = x :=
  Function.update_self ..

/-- Thread `i` goes on from where it is. -/
structure Goes (s : Process) (i : Tid) (pc : Pc) : Prop where
  runs : (s.thread i).halted = false
  flag : (s.thread i).afterFlag = true → pc.afterFlag = true

theorem Goes.onward (h : Goes s i pc) (ht : t.thread = s.thread) (j : Tid) :
    (s.thread j).Onward ((t.goto i pc).thread j) := by
  by_cases hj : j = i
  · subst hj
    rw [goto_thread_self]
    exact Or.inr ⟨h.runs, h.flag⟩
  · rw [goto_thread_of_ne hj, ht]
    exact Or.inl rfl

theorem Kept.frame (h : Kept s r p) (hregion : t.region r = s.region r)
    (hlist : r ∈ t.cleanupList ↔ r ∈ s.cleanupList) (hmapped : t.mapped ≤ r ↔ s.mapped ≤ r)
    (hworker : (s.thread (.worker r)).Onward (t.thread (.worker r)))
    (hstarted : s.cleanupThreadStarted = true → t.cleanupThreadStarted = true) : Kept t r p where
  listed := hlist.trans h.listed
  unmade := hmapped.trans h.unmade
  handed := hregion ▸ h.handed
  hidden := hregion ▸ h.hidden
  taken := hregion ▸ h.taken
  unmaps := hregion ▸ h.unmaps
  halted hp := (hworker.of_halted (h.halted hp)).symm ▸ h.halted hp
  unborn hp := (hworker.of_halted (by rw [h.unborn hp]; rfl)).trans (h.unborn hp)
  joinable := hregion ▸ h.joinable
  finished hfinished := hworker.afterFlag (h.finished (hregion ▸ hfinished))
  started hp := hstarted (h.started hp)

/-- A thread relies only on the regions in its hands. -/
theorem Fits.frame (h : Fits s pc)
    (hregion : ∀ q ∈ pc.due, (t.region q).joinable = (s.region q).joinable ∧
      (t.region q).startRoutine = (s.region q).startRoutine ∧
      (t.region q).stored = (s.region q).stored)
    (hworker : ∀ q ∈ pc.due, (s.thread (.worker q)).Onward (t.thread (.worker q)))
    (hstarted : s.cleanupThreadStarted = true → t.cleanupThreadStarted = true) :
    Fits t pc := by
  have hunborn {q : Handle} (hq : q ∈ pc.due) (hs : s.thread (.worker q) = .unborn) :
      t.thread (.worker q) = .unborn :=
    ((hworker q hq).of_halted (by rw [hs]; rfl)).trans hs
  have hflag {q : Handle} (hq : q ∈ pc.due) := (hworker q hq).afterFlag
  cases pc with
  | unborn => trivial
  | idle => trivial
  | threadFunc pc => trivial
  | create detached pc =>
      refine ⟨fun hsome => hstarted (h.1 hsome), ?_⟩
      cases pc <;> simp_all [Fits, CreateFits, Pc.due, CreatePc.made]
  | join r retval pc => cases pc <;> simp_all [Fits, Pc.due]
  | detach r pc => cases pc <;> simp_all [Fits, Pc.due]
  | cleanup pc => cases pc <;> simp_all [Fits, Pc.due]

/-- `t` and `s` have the same regions in the same places. -/
structure SameRegions (s t : Process) : Prop where
  thread : t.thread = s.thread
  region : t.region = s.region
  mapped : t.mapped = s.mapped
  cleanupList : t.cleanupList = s.cleanupList
  started : s.cleanupThreadStarted = true → t.cleanupThreadStarted = true

theorem SameRegions.refl : SameRegions s s := ⟨rfl, rfl, rfl, rfl, id⟩

theorem SameRegions.unlock : SameRegions s s.unlock := ⟨rfl, rfl, rfl, rfl, id⟩

theorem Process.lock_eq_some (h : s.lock i = some t) :
    t = { s with cleanupMutex := some i } := by
  simp only [Process.lock, Option.ite_none_right_eq_some, Option.some.injEq] at h
  exact h.2.symm

theorem SameRegions.lock (h : s.lock i = some t) : SameRegions s t := by
  obtain rfl := Process.lock_eq_some h
  exact ⟨rfl, rfl, rfl, rfl, id⟩

/-- A step that changes no region and hands on nothing. -/
theorem Sound.quiet (h : Sound s place) (hsame : SameRegions s t) (hgoes : Goes s i pc)
    (hdue : pc.due = (s.thread i).due) (hfits : Fits (t.goto i pc) pc) :
    Sound (t.goto i pc) place where
  custody := by
    refine h.custody.keep fun j q => ?_
    by_cases hj : j = i
    · subst hj
      rw [goto_thread_self, hdue]
    · rw [goto_thread_of_ne hj, hsame.thread]
  nodup := hsame.cleanupList ▸ h.nodup
  kept _ := (h.kept _).frame (by rw [goto_region, hsame.region])
    (by rw [goto_cleanupList, hsame.cleanupList]) (by rw [goto_mapped, hsame.mapped])
    (hgoes.onward hsame.thread _) hsame.started
  fits j := by
    by_cases hj : j = i
    · subst hj
      rwa [goto_thread_self]
    · rw [goto_thread_of_ne hj, hsame.thread]
      exact (h.fits j).frame (fun q _ => by simp [hsame.region])
        (fun q _ => hgoes.onward hsame.thread _) hsame.started

/-- `t` differs from `s` in the region `r` only. -/
structure OnlyAt (s t : Process) (r : Handle) : Prop where
  thread : t.thread = s.thread
  region : ∀ q ≠ r, t.region q = s.region q
  mapped : ∀ q ≠ r, t.mapped ≤ q ↔ s.mapped ≤ q
  listed : ∀ q ≠ r, q ∈ t.cleanupList ↔ q ∈ s.cleanupList
  nodup : t.cleanupList.Nodup
  started : s.cleanupThreadStarted = true → t.cleanupThreadStarted = true

/-- A write to one region. -/
theorem Sound.setRegion (h : Sound s place) (x : Region) : OnlyAt s (s.setRegion r x) r where
  thread := rfl
  region _ hq := Function.update_of_ne hq ..
  mapped _ _ := Iff.rfl
  listed _ _ := Iff.rfl
  nodup := h.nodup
  started := id

/-- A step that changes one region, which is in the hands of thread `i` or at rest, and
leaves it in the hands of thread `i` or at rest. -/
theorem Sound.transfer (h : Sound s place) (honly : OnlyAt s t r) (hgoes : Goes s i pc)
    (hdue : ∀ q ≠ r, q ∈ pc.due ↔ q ∈ (s.thread i).due)
    (hfrom : ∀ j ≠ i, place r ≠ .hands j) (hto : ∀ j ≠ i, p ≠ .hands j)
    (hin : r ∈ pc.due ↔ p = .hands i) (hkept : Kept (t.goto i pc) r p)
    (hfits : Fits (t.goto i pc) pc) : Sound (t.goto i pc) (Function.update place r p) where
  custody := by
    refine h.custody.transfer (i := i) (fun j hj _ => ?_) (fun q hq => ?_) (fun j hj hheld => ?_)
      ?_ hto
    · rw [goto_thread_of_ne hj, honly.thread]
    · rw [goto_thread_self]
      exact hdue q hq
    · exact hfrom j hj ((h.custody j r).mp hheld)
    · rw [goto_thread_self]
      exact hin
  nodup := honly.nodup
  kept q := by
    by_cases hq : q = r
    · subst hq
      rwa [Function.update_self]
    · rw [Function.update_of_ne hq]
      exact (h.kept q).frame (honly.region q hq) (honly.listed q hq) (honly.mapped q hq)
        (hgoes.onward honly.thread _) honly.started
  fits j := by
    by_cases hj : j = i
    · subst hj
      rwa [goto_thread_self]
    · rw [goto_thread_of_ne hj, honly.thread]
      refine (h.fits j).frame (fun q hq => ?_) (fun q _ => hgoes.onward honly.thread _)
        honly.started
      have hne : q ≠ r := by
        rintro rfl
        exact hfrom j hj ((h.custody j q).mp hq)
      simp [honly.region q hne]

/-- The worker of the region `r` stores to `is_finished`. -/
theorem Sound.finish (h : Sound s place) (hpc : s.thread (.worker r) = .threadFunc .finish) :
    Sound ((s.setRegion r { s.region r with isFinished := true }).goto (.worker r)
      (.threadFunc .wake)) place := by
  have hgoes : Goes s (.worker r) (.threadFunc .wake) := by
    constructor <;> simp [hpc, Pc.halted, Pc.afterFlag]
  have honward := hgoes.onward (t := s.setRegion r { s.region r with isFinished := true }) rfl
  have hsame (q : Handle) (hq : q ≠ r) :
      (s.setRegion r { s.region r with isFinished := true }).region q = s.region q :=
    Function.update_of_ne hq ..
  refine ⟨?_, h.nodup, fun q => ?_, fun j => ?_⟩
  · refine h.custody.keep fun j q => ?_
    by_cases hj : j = .worker r
    · subst hj
      simp [hpc, Pc.due]
    · rw [goto_thread_of_ne hj]
      rfl
  · by_cases hq : q = r
    · subst hq
      have hkept := h.kept q
      have hruns : place q ≠ .rests .unmade ∧ place q ≠ .rests .unmapped := by
        refine ⟨fun hp => ?_, fun hp => ?_⟩
        · simpa [hpc] using hkept.unborn hp
        · simpa [hpc, Pc.halted] using hkept.halted hp
      exact ⟨hkept.listed, hkept.unmade, by simpa using hkept.handed, by simpa using hkept.hidden,
        by simpa using hkept.taken, by simpa using hkept.unmaps, fun hp => (hruns.2 hp).elim,
        fun hp => (hruns.1 hp).elim, by simpa using hkept.joinable, by simp [Pc.afterFlag],
        hkept.started⟩
    · exact (h.kept q).frame (hsame q hq) Iff.rfl Iff.rfl (honward _) id
  · by_cases hj : j = .worker r
    · subst hj
      rw [goto_thread_self]
      trivial
    · rw [goto_thread_of_ne hj]
      refine (h.fits j).frame (fun q _ => ?_) (fun q _ => honward _) id
      by_cases hq : q = r
      · subst hq
        simp
      · simp [hsame q hq]

/-- `clone` starts the worker of the region `r`. -/
theorem Sound.birth (h : Sound s place) (hplace : place r = .hands i)
    (hpc : s.thread i = .create detached (.setTid r))
    (hunborn : s.thread (.worker r) = .unborn) :
    Sound (s.goto (.worker r) (.threadFunc .enter)) place := by
  have hother {q : Handle} (hq : q ≠ r) : Tid.worker q ≠ .worker r := fun he =>
    hq (Tid.worker.inj he)
  refine ⟨?_, h.nodup, fun q => ?_, fun j => ?_⟩
  · refine h.custody.keep fun j q => ?_
    by_cases hj : j = .worker r
    · subst hj
      simp [hunborn, Pc.due]
    · rw [goto_thread_of_ne hj]
  · by_cases hq : q = r
    · subst hq
      have hkept := h.kept q
      rw [hplace] at hkept ⊢
      refine ⟨hkept.listed, hkept.unmade, hkept.handed, hkept.hidden, hkept.taken, hkept.unmaps,
        by simp, by simp, hkept.joinable, fun hfinished => ?_, hkept.started⟩
      simpa [hunborn, Pc.afterFlag] using hkept.finished hfinished
    · exact (h.kept q).frame rfl Iff.rfl Iff.rfl (Or.inl (goto_thread_of_ne (hother hq)))
        id
  · by_cases hj : j = .worker r
    · subst hj
      rw [goto_thread_self]
      trivial
    · rw [goto_thread_of_ne hj]
      by_cases hji : j = i
      · subst hji
        have hfits := h.fits j
        rw [hpc] at hfits ⊢
        exact hfits
      · refine (h.fits j).frame (fun q _ => by simp) (fun q hq => ?_) id
        have hne : q ≠ r := by
          rintro rfl
          exact h.custody.not_held hplace hji hq
        exact Or.inl (goto_thread_of_ne (hother hne))

end Frames

/-! ### The functions of the source -/

section Functions

variable {s s' : Process} {place : Handle → Place Tid Rest} {i : Tid} {r : Handle}

theorem Sound.in_hands (h : Sound s place) (hdue : r ∈ (s.thread i).due) :
    place r = .hands i ∧ Kept s r (.hands i) := by
  have hplace := (h.custody i r).mp hdue
  exact ⟨hplace, hplace ▸ h.kept r⟩

/-- What holds of a region in the hands of a thread. -/
theorem Kept.hands (h : Kept s r (.hands i)) : r ∉ s.cleanupList ∧ r < s.mapped ∧
    ¬ ((s.region r).stored = true ∧ (s.region r).taken = false) ∧ (s.region r).unmaps = 0 := by
  refine ⟨?_, ?_, ?_, by simpa using h.unmaps⟩
  · simpa using h.listed
  · simpa using h.unmade
  · exact fun hhanded => by simpa using h.handed.mp hhanded

/-- The last thread that has the region in its hands unmaps it. -/
theorem Sound.unmap {pc : Pc} (h : Sound s place) (hdue : (s.thread i).due = [r])
    (hgoes : Goes s i pc) (hpc : pc.due = []) (hfits : Fits ((s.unmap r).goto i pc) pc)
    (hhalted : (s.thread (.worker r)).halted = true) :
    Sound ((s.unmap r).goto i pc) (Function.update place r (.rests .unmapped)) := by
  obtain ⟨hplace, hkept⟩ := h.in_hands (i := i) (r := r) (by simp [hdue])
  obtain ⟨hlisted, hmapped, hhanded, hunmaps⟩ := hkept.hands
  have hworker := (hgoes.onward (t := s.unmap r) rfl (.worker r)).of_halted hhalted
  have hself : (s.unmap r).region r = { s.region r with unmaps := (s.region r).unmaps + 1 } :=
    Function.update_self ..
  refine h.transfer (h.setRegion _) hgoes (fun q hq => by simp [hpc, hdue, hq])
    (fun _ hj => Place.ne_of_hands hplace hj) (by simp) (by simp [hpc]) ?_ hfits
  constructor
  case finished => simpa [hself, hworker] using hkept.finished
  case taken => simpa [hself] using hkept.taken
  all_goals simp [hself, hworker, hhalted, hunmaps]
  · exact hlisted
  · exact hmapped
  · simpa using hhanded

theorem Goes.of_create {detached : Option Handle} {pc : CreatePc} {pc' : Pc}
    (hpc : s.thread i = .create detached pc) : Goes s i pc' := by
  constructor <;> simp [hpc, Pc.halted, Pc.afterFlag]

/-- `mmap` makes a region and gives it to the thread that calls it. -/
theorem Sound.mmap {detached : Option Handle} (h : Sound s place)
    (hpc : s.thread i = .create detached .mmap) :
    Sound (s.map.goto i (.create detached (.init s.mapped)))
      (Function.update place s.mapped (.hands i)) := by
  have hkept := h.kept s.mapped
  have hplace : place s.mapped = .rests .unmade := hkept.unmade.mp (Nat.le_refl _)
  have hunborn := hkept.unborn hplace
  have hself : s.map.region s.mapped = .zero := Function.update_self ..
  have hne : i ≠ .worker s.mapped := by
    rintro rfl
    simp [hpc] at hunborn
  have hworker : (s.map.goto i (.create detached (.init s.mapped))).thread
      (.worker s.mapped) = .unborn := (goto_thread_of_ne hne.symm).trans hunborn
  have hnew : s.mapped ∉ detached.toList := fun hmem =>
    h.custody.not_held_rests hplace (j := i) (by simp [hpc, Pc.due, hmem])
  have honly : OnlyAt s s.map s.mapped :=
    ⟨rfl, fun q hq => Function.update_of_ne hq .., fun q hq => Nat.succ_le_iff.trans
      ⟨Nat.le_of_lt, fun hle => Nat.lt_of_le_of_ne hle hq.symm⟩, fun _ _ => Iff.rfl, h.nodup, id⟩
  have hfits := h.fits i
  rw [hpc] at hfits
  refine h.transfer honly (.of_create hpc) (fun q hq => ?_) ?_ ?_ ?_ ?_
    ⟨hfits.1, ?_, hworker, ?_⟩
  · simp [hpc, Pc.due, CreatePc.made, hq]
  · simp [hplace]
  · exact fun _ hj => Place.ne_of_hands rfl hj
  · simp [Pc.due, CreatePc.made]
  · have hlisted : s.mapped ∉ s.cleanupList := by simpa [hplace] using hkept.listed
    constructor <;> simp [Region.zero, Process.map, hlisted]
  · simpa using hnew
  · simp [hself, Region.zero]

/-- The descriptor of a new region is filled in. -/
theorem Sound.init {detached : Option Handle} {x : Region} (h : Sound s place)
    (hpc : s.thread i = .create detached (.init r))
    (hx : x = { s.region r with
      startRoutine := if detached.isSome then .cleanupThreadFunc else .program
      isFinished := false
      joinable := true }) :
    Sound ((s.setRegion r x).goto i (.create detached (.clone r)))
      (Function.update place r (.hands i)) := by
  have hfits := h.fits i
  rw [hpc] at hfits
  obtain ⟨hstarted, hne, hunborn, hstored⟩ := hfits
  obtain ⟨hplace, hkept⟩ := h.in_hands (i := i) (r := r) (by simp [hpc, Pc.due, CreatePc.made])
  obtain ⟨hlisted, hmapped, -, hunmaps⟩ := hkept.hands
  have htaken : (s.region r).taken = false := by
    simpa [hstored] using hkept.taken
  have hgoes : Goes s i (.create detached (.clone r)) := .of_create hpc
  have hworker := (hgoes.onward (t := s.setRegion r x) rfl (.worker r)).of_halted
    (by rw [hunborn]; rfl)
  subst hx
  refine h.transfer (h.setRegion _) hgoes (fun q _ => ?_) ?_ ?_ ?_ ?_ ?_
  · simp [hpc, Pc.due, CreatePc.made]
  · exact fun _ hj => Place.ne_of_hands hplace hj
  · exact fun _ hj => Place.ne_of_hands rfl hj
  · simp [Pc.due, CreatePc.made]
  · constructor <;> simp [Process.setRegion, hlisted, hmapped, hstored, htaken, hunmaps]
  · refine ⟨hstarted, hne, hworker.trans hunborn, ?_, ?_, fun hsome => ?_⟩
    · simp [hstored]
    · simp
    · simp [Option.isSome_iff_ne_none.mpr hsome]

/-- `clone` succeeds. -/
theorem Sound.clone {detached : Option Handle} (h : Sound s place)
    (hpc : s.thread i = .create detached (.clone r)) :
    Sound ((s.goto i (.create detached (.setTid r))).goto (.worker r) (.threadFunc .enter))
      place := by
  have hfits := h.fits i
  rw [hpc] at hfits
  obtain ⟨hstarted, hne, hunborn, hstored, hjoinable, -⟩ := hfits
  have hgoes : Goes s i (.create detached (.setTid r)) := .of_create hpc
  have hmoved := h.quiet .refl hgoes (by rw [hpc]; rfl)
    ⟨hstarted, hne, hstored, hjoinable⟩
  refine hmoved.birth (i := i) ?_ goto_thread_self ?_
  · exact (h.custody i r).mp (by simp [hpc, Pc.due, CreatePc.made])
  · exact ((hgoes.onward rfl _).of_halted (by rw [hunborn]; rfl)).trans hunborn

/-- The handle is stored where the caller of `my_thread_create` wants it: the program, or
`my_thread_detach`, which forgets it. -/
theorem Sound.store {detached : Option Handle} (h : Sound s place)
    (hpc : s.thread i = .create detached (.store r))
    (hstep : s.create i detached true (.store r) = some s') : ∃ place', Sound s' place' := by
  have hfits := h.fits i
  rw [hpc] at hfits
  obtain ⟨hstarted, hne, hstored, hjoinable⟩ := hfits
  obtain ⟨hplace, hkept⟩ := h.in_hands (i := i) (r := r) (by simp [hpc, Pc.due, CreatePc.made])
  obtain ⟨hlisted, hmapped, -, hunmaps⟩ := hkept.hands
  have htaken : (s.region r).taken = false := by
    simpa [hstored] using hkept.taken
  cases detached with
  | none =>
      obtain rfl := Option.some.inj hstep
      have hgoes : Goes s i .idle := .of_create hpc
      refine ⟨_, h.transfer (p := .rests .handed) (h.setRegion _) hgoes (fun q hq => ?_) ?_ ?_ ?_
        ?_ trivial⟩
      · simp [hpc, Pc.due, CreatePc.made, hq]
      · exact fun _ hj => Place.ne_of_hands hplace hj
      · simp
      · simp [Pc.due]
      · constructor
        case finished =>
          exact fun hset => (hgoes.onward rfl _).afterFlag (hkept.finished (by simpa using hset))
        all_goals simp [Process.setRegion, hlisted, hmapped, htaken, hunmaps, hjoinable]
  | some d =>
      obtain rfl := Option.some.inj hstep
      have hgoes : Goes s i (.detach d .lock) := .of_create hpc
      have honly : OnlyAt s s r :=
        ⟨rfl, fun _ _ => rfl, fun _ _ => Iff.rfl, fun _ _ => Iff.rfl, h.nodup, id⟩
      refine ⟨_, h.transfer (p := .rests .kept) honly hgoes (fun q hq => ?_) ?_ ?_ ?_ ?_
        (hstarted (by simp))⟩
      · simp [hpc, Pc.due, CreatePc.made, hq]
      · exact fun _ hj => Place.ne_of_hands hplace hj
      · simp
      · simpa [Pc.due, eq_comm] using hne
      · constructor
        case finished => exact fun hset => (hgoes.onward rfl _).afterFlag (hkept.finished hset)
        all_goals simp [hlisted, hmapped, hstored, htaken, hunmaps]

/-- `my_thread_create`. -/
theorem Sound.create {detached : Option Handle} {succeeds : Bool} {pc : CreatePc}
    (h : Sound s place) (hpc : s.thread i = .create detached pc)
    (hok : cleanerCreated s (i, .go succeeds) = true)
    (hstep : s.create i detached succeeds pc = some s') : ∃ place', Sound s' place' := by
  have hfits := h.fits i
  rw [hpc] at hfits
  cases pc with
  | mmap =>
      cases succeeds with
      | true =>
          obtain rfl := Option.some.inj hstep
          exact ⟨_, h.mmap hpc⟩
      | false =>
          obtain rfl := Option.some.inj hstep
          cases detached with
          | none =>
              exact ⟨place, h.quiet .refl (.of_create hpc) (by rw [hpc]; rfl) trivial⟩
          | some d => simp [cleanerCreated, hpc] at hok
  | init r =>
      obtain rfl := Option.some.inj hstep
      exact ⟨_, h.init hpc rfl⟩
  | clone r =>
      cases succeeds with
      | true =>
          obtain rfl := Option.some.inj hstep
          exact ⟨place, h.clone hpc⟩
      | false =>
          obtain rfl := Option.some.inj hstep
          obtain ⟨-, -, hunborn, hstored, -⟩ := hfits
          cases detached with
          | none =>
              have hgoes : Goes s i (.create none (.cloneFailed r)) := .of_create hpc
              have hworker := (hgoes.onward (t := s) rfl (.worker r)).of_halted
                (by rw [hunborn]; rfl)
              exact ⟨place, h.quiet .refl hgoes (by rw [hpc]; rfl)
                ⟨by simp, hworker.trans hunborn, hstored, rfl⟩⟩
          | some d => simp [cleanerCreated, hpc] at hok
  | cloneFailed r =>
      obtain rfl := Option.some.inj hstep
      obtain ⟨-, hunborn, -, rfl⟩ := hfits
      exact ⟨_, h.unmap (by rw [hpc]; rfl) (.of_create hpc) rfl trivial (by rw [hunborn]; rfl)⟩
  | setTid r =>
      obtain rfl := Option.some.inj hstep
      exact ⟨place, h.quiet .refl (.of_create hpc) (by rw [hpc]; rfl) hfits⟩
  | store r => exact h.store hpc hstep

/-- `munmap` in time: the worker is behind `SYS_exit`. -/
theorem halted_of_afterFlag {pc : Pc} (hflag : pc.afterFlag = true)
    (htime : pc ≠ .threadFunc .wake ∧ pc ≠ .threadFunc .exit) : pc.halted = true := by
  cases pc with
  | threadFunc pc => cases pc <;> simp_all [Pc.afterFlag, Pc.halted]
  | _ => simp [Pc.afterFlag] at hflag

/-- `my_thread_join`. -/
theorem Sound.join {retval : Bool} {pc : JoinPc} {c : Choice} (h : Sound s place)
    (hpc : s.thread i = .join r retval pc) (hok : inTime s (i, c) = true)
    (hstep : s.join i r retval pc = some s') : ∃ place', Sound s' place' := by
  have hfits := h.fits i
  rw [hpc] at hfits
  have hgoes {pc' : Pc} : Goes s i pc' := by
    constructor <;> simp [hpc, Pc.halted, Pc.afterFlag]
  have hflag {pc' : Pc} (hset : (s.thread (.worker r)).afterFlag = true) :
      ((s.goto i pc').thread (.worker r)).afterFlag = true :=
    (hgoes.onward rfl _).afterFlag hset
  have hquiet {pc' : JoinPc} (hnext : Fits (s.goto i (.join r retval pc')) (.join r retval pc')) :
      Sound (s.goto i (.join r retval pc')) place :=
    h.quiet .refl hgoes (by rw [hpc]; rfl) hnext
  cases pc with
  | check =>
      have hjoinable : (s.region r).joinable = true := hfits
      rw [Process.join, if_pos hjoinable] at hstep
      obtain rfl := Option.some.inj hstep
      exact ⟨place, hquiet trivial⟩
  | test =>
      by_cases hfinished : (s.region r).isFinished = true
      · rw [Process.join, if_pos hfinished] at hstep
        obtain rfl := Option.some.inj hstep
        have hset := (h.kept r).finished hfinished
        cases retval with
        | true => exact ⟨place, hquiet (hflag hset)⟩
        | false => exact ⟨place, hquiet (hflag hset)⟩
      · rw [Process.join, if_neg hfinished] at hstep
        obtain rfl := Option.some.inj hstep
        exact ⟨place, hquiet trivial⟩
  | wait =>
      obtain rfl := Option.some.inj hstep
      exact ⟨place, hquiet trivial⟩
  | retval =>
      obtain rfl := Option.some.inj hstep
      exact ⟨place, hquiet (hflag hfits)⟩
  | reset =>
      obtain rfl := Option.some.inj hstep
      exact ⟨place, hquiet (hflag hfits)⟩
  | unmap =>
      obtain rfl := Option.some.inj hstep
      have htime : s.thread (.worker r) ≠ .threadFunc .wake ∧
          s.thread (.worker r) ≠ .threadFunc .exit := by
        simpa [inTime, hpc] using hok
      exact ⟨_, h.unmap (by rw [hpc]; rfl) hgoes rfl trivial (halted_of_afterFlag hfits htime)⟩

/-- `my_thread_detach`. -/
theorem Sound.detach {pc : DetachPc} (h : Sound s place) (hpc : s.thread i = .detach r pc)
    (hstep : s.detach i r pc = some s') : ∃ place', Sound s' place' := by
  have hfits := h.fits i
  rw [hpc] at hfits
  have hgoes {pc' : Pc} : Goes s i pc' := by
    constructor <;> simp [hpc, Pc.halted, Pc.afterFlag]
  cases pc with
  | check =>
      have hjoinable : (s.region r).joinable = true := hfits
      rw [Process.detach, if_pos hjoinable] at hstep
      obtain rfl := Option.some.inj hstep
      exact ⟨place, h.quiet .refl hgoes (by rw [hpc]; rfl) trivial⟩
  | set =>
      obtain rfl := Option.some.inj hstep
      -- The region stays with the caller, and is a detached one from now on.
      obtain ⟨hplace, hkept⟩ := h.in_hands (i := i) (r := r) (by simp [hpc, Pc.due])
      obtain ⟨hlisted, hmapped, hhanded, hunmaps⟩ := hkept.hands
      refine ⟨_, h.transfer (p := .hands i) (h.setRegion _) hgoes (fun q _ => ?_) ?_ ?_ ?_ ?_
        trivial⟩
      · simp [hpc, Pc.due]
      · exact fun _ hj => Place.ne_of_hands hplace hj
      · exact fun _ hj => Place.ne_of_hands rfl hj
      · simp [Pc.due]
      · constructor
        case finished =>
          exact fun hset => (hgoes.onward rfl _).afterFlag (hkept.finished (by simpa using hset))
        case taken => simpa using hkept.taken
        all_goals simp [Process.setRegion, hlisted, hmapped, hunmaps]
        simpa using hhanded
  | exchange =>
      have hsame : SameRegions s { s with cleanupThreadStarted := true } :=
        ⟨rfl, rfl, rfl, rfl, fun _ => rfl⟩
      by_cases hstarted : s.cleanupThreadStarted = true
      · rw [Process.detach, if_pos hstarted] at hstep
        obtain rfl := Option.some.inj hstep
        exact ⟨place, h.quiet hsame hgoes (by rw [hpc]; rfl) rfl⟩
      · rw [Process.detach, if_neg hstarted] at hstep
        obtain rfl := Option.some.inj hstep
        exact ⟨place, h.quiet hsame hgoes (by rw [hpc]; rfl) ⟨fun _ => rfl, trivial⟩⟩
  | lock =>
      obtain ⟨t, hlock, rfl⟩ := Option.map_eq_some_iff.mp hstep
      have hsame := SameRegions.lock hlock
      exact ⟨place, h.quiet hsame hgoes (by rw [hpc]; rfl) (hsame.started hfits)⟩
  | push =>
      obtain rfl := Option.some.inj hstep
      obtain ⟨hplace, hkept⟩ := h.in_hands (i := i) (r := r) (by simp [hpc, Pc.due])
      obtain ⟨hlisted, hmapped, hhanded, hunmaps⟩ := hkept.hands
      -- From the caller's hands to the list.
      have honly : OnlyAt s { s with cleanupList := r :: s.cleanupList } r :=
        ⟨rfl, fun _ _ => rfl, fun _ _ => Iff.rfl, fun q hq => by simp [hq],
          List.nodup_cons.mpr ⟨hlisted, h.nodup⟩, id⟩
      refine ⟨_, h.transfer (p := .rests .cleanupList) honly hgoes (fun q hq => ?_) ?_ ?_ ?_ ?_
        trivial⟩
      · simp [hpc, Pc.due, hq]
      · exact fun _ hj => Place.ne_of_hands hplace hj
      · simp
      · simp [Pc.due]
      · constructor
        case finished => exact fun hset => (hgoes.onward rfl _).afterFlag (hkept.finished hset)
        case taken => exact hkept.taken
        case started => exact fun _ => hfits
        all_goals simp [hmapped, hunmaps]
        simpa using hhanded
  | unlock =>
      obtain rfl := Option.some.inj hstep
      exact ⟨place, h.quiet .unlock hgoes (by rw [hpc]; rfl) trivial⟩
  | signal =>
      obtain rfl := Option.some.inj hstep
      exact ⟨place, h.quiet .refl hgoes (by rw [hpc]; rfl) trivial⟩

/-- `thread_func`. -/
theorem Sound.threadFunc {pc : ThreadPc} (h : Sound s place)
    (hpc : s.thread (.worker r) = .threadFunc pc) (hstep : s.threadFunc r pc = some s') :
    Sound s' place := by
  have hgoes {pc' : Pc} (hruns : pc ≠ .exited)
      (hflag : (Pc.threadFunc pc).afterFlag = true → pc'.afterFlag = true) :
      Goes s (.worker r) pc' := by
    refine ⟨?_, fun hset => hflag (hpc ▸ hset)⟩
    rw [hpc]
    cases pc with
    | exited => exact absurd rfl hruns
    | _ => rfl
  cases pc with
  | enter =>
      cases hroutine : (s.region r).startRoutine with
      | program =>
          simp only [Process.threadFunc, hroutine, Option.some.injEq] at hstep
          subst hstep
          exact h.quiet .refl (hgoes (by simp) (by simp [Pc.afterFlag]))
            (by rw [hpc]; rfl) trivial
      | cleanupThreadFunc =>
          simp only [Process.threadFunc, hroutine, Option.some.injEq] at hstep
          subst hstep
          exact h.quiet .refl (hgoes (by simp) (by simp [Pc.afterFlag]))
            (by rw [hpc]; rfl) trivial
  | storeRetval =>
      obtain rfl := Option.some.inj hstep
      exact h.quiet .refl (hgoes (by simp) (by simp [Pc.afterFlag]))
        (by rw [hpc]; rfl) trivial
  | finish =>
      obtain rfl := Option.some.inj hstep
      exact h.finish hpc
  | wake =>
      obtain rfl := Option.some.inj hstep
      exact h.quiet .refl (hgoes (by simp) fun _ => rfl) (by rw [hpc]; rfl) trivial
  | exit =>
      obtain rfl := Option.some.inj hstep
      exact h.quiet .refl (hgoes (by simp) fun _ => rfl) (by rw [hpc]; rfl) trivial
  | exited => simp [Process.threadFunc] at hstep

/-- `cleanup_thread_func`. -/
theorem Sound.cleanupThreadFunc {pc : CleanupPc} {c : Choice} (h : Sound s place)
    (hpc : s.thread i = .cleanup pc) (hok : inTime s (i, c) = true)
    (hstep : s.cleanupThreadFunc i pc = some s') : ∃ place', Sound s' place' := by
  have hfits := h.fits i
  rw [hpc] at hfits
  have hgoes {pc' : Pc} : Goes s i pc' := by
    constructor <;> simp [hpc, Pc.halted, Pc.afterFlag]
  cases pc with
  | lock =>
      obtain ⟨t, hlock, rfl⟩ := Option.map_eq_some_iff.mp hstep
      exact ⟨place, h.quiet (.lock hlock) hgoes (by rw [hpc]; rfl) trivial⟩
  | test =>
      by_cases hempty : s.cleanupList = []
      · rw [Process.cleanupThreadFunc, if_pos hempty] at hstep
        obtain rfl := Option.some.inj hstep
        exact ⟨place, h.quiet .unlock hgoes (by rw [hpc]; rfl) trivial⟩
      · rw [Process.cleanupThreadFunc, if_neg hempty] at hstep
        obtain rfl := Option.some.inj hstep
        exact ⟨place, h.quiet .refl hgoes (by rw [hpc]; rfl) trivial⟩
  | wait =>
      obtain ⟨t, hlock, rfl⟩ := Option.map_eq_some_iff.mp hstep
      exact ⟨place, h.quiet (.lock hlock) hgoes (by rw [hpc]; rfl) trivial⟩
  | pop =>
      cases hlist : s.cleanupList with
      | nil => simp [Process.cleanupThreadFunc, hlist] at hstep
      | cons r rest =>
          simp only [Process.cleanupThreadFunc, hlist, Option.some.injEq] at hstep
          subst hstep
          -- From the list to the hands of the cleanup thread.
          have hkept := h.kept r
          have hplace : place r = .rests .cleanupList := hkept.listed.mp (by simp [hlist])
          rw [hplace] at hkept
          obtain ⟨hnew, hrest⟩ := List.nodup_cons.mp (hlist ▸ h.nodup)
          have honly : OnlyAt s { s with cleanupList := rest } r :=
            ⟨rfl, fun _ _ => rfl, fun _ _ => Iff.rfl, fun q hq => by simp [hlist, hq], hrest, id⟩
          refine ⟨_, h.transfer (p := .hands i) honly hgoes (fun q hq => ?_) ?_ ?_ ?_ ?_ trivial⟩
          · simp [hpc, Pc.due, hq]
          · simp [hplace]
          · exact fun _ hj => Place.ne_of_hands rfl hj
          · simp [Pc.due]
          · constructor
            case finished => exact fun hset => (hgoes.onward rfl _).afterFlag (hkept.finished hset)
            case taken => exact hkept.taken
            case unmade => simpa using hkept.unmade
            case handed => simpa using hkept.handed
            case unmaps => simpa using hkept.unmaps
            all_goals simp [hnew]
  | unlock r =>
      obtain rfl := Option.some.inj hstep
      exact ⟨place, h.quiet .unlock hgoes (by rw [hpc]; rfl) trivial⟩
  | sleepTest r =>
      by_cases hfinished : (s.region r).isFinished = true
      · rw [Process.cleanupThreadFunc, if_pos hfinished] at hstep
        obtain rfl := Option.some.inj hstep
        -- The flag is read: the thread is past its last use of the region but one.
        have hset := (h.kept r).finished hfinished
        exact ⟨place, h.quiet .refl hgoes (by rw [hpc]; rfl)
          ((hgoes.onward rfl _).afterFlag hset)⟩
      · rw [Process.cleanupThreadFunc, if_neg hfinished] at hstep
        obtain rfl := Option.some.inj hstep
        exact ⟨place, h.quiet .refl hgoes (by rw [hpc]) trivial⟩
  | unmap r =>
      obtain rfl := Option.some.inj hstep
      -- `munmap` in time finds the thread behind its `wake` and its exit.
      have htime : s.thread (.worker r) ≠ .threadFunc .wake ∧
          s.thread (.worker r) ≠ .threadFunc .exit := by
        simpa [inTime, hpc] using hok
      exact ⟨_, h.unmap (by rw [hpc]; rfl) hgoes rfl trivial (halted_of_afterFlag hfits htime)⟩
  | free =>
      obtain rfl := Option.some.inj hstep
      exact ⟨place, h.quiet .refl hgoes (by rw [hpc]; rfl) trivial⟩

/-- The program hands its only use of a handle to `my_thread_join` or
`my_thread_detach`. -/
theorem Sound.take {pc : Pc} (h : Sound s place) (hpc : s.thread i = .idle)
    (hused : ((s.region r).stored && !(s.region r).taken) = true) (hdue : pc.due = [r])
    (hfits : (s.region r).joinable = true → Fits ((s.take r).goto i pc) pc) :
    ∃ place', Sound ((s.take r).goto i pc) place' := by
  have hgoes {pc' : Pc} : Goes s i pc' := by
    constructor <;> simp [hpc, Pc.halted, Pc.afterFlag]
  obtain ⟨hstored, htaken⟩ : (s.region r).stored = true ∧ (s.region r).taken = false := by
    simpa using hused
  have hkept := h.kept r
  have hplace : place r = .rests .handed := hkept.handed.mp ⟨hstored, htaken⟩
  rw [hplace] at hkept
  have hself : (s.take r).region r = { s.region r with taken := true } := Function.update_self ..
  refine ⟨_, h.transfer (p := .hands i) (h.setRegion _) hgoes (fun q hq => ?_) ?_ ?_ ?_ ?_
    (hfits (hkept.joinable rfl))⟩
  · simp only [hdue, hpc]
    simp [Pc.due, hq]
  · simp [hplace]
  · exact fun _ hj => Place.ne_of_hands rfl hj
  · simp [hdue]
  · constructor
    case finished =>
      intro hset
      rw [goto_region, hself] at hset
      exact (hgoes.onward rfl _).afterFlag (hkept.finished hset)
    case listed => simpa [Process.take, Process.setRegion] using hkept.listed
    case unmade => simpa [Process.take, Process.setRegion] using hkept.unmade
    case unmaps => simpa [hself] using hkept.unmaps
    all_goals simp [hself, hstored]

/-- A step of a thread. -/
theorem Sound.next {c : Choice} (h : Sound s place) (hused : usedOnce s (i, c) = true)
    (htime : inTime s (i, c) = true) (hcreated : cleanerCreated s (i, c) = true)
    (hstep : s.next i c = some s') : ∃ place', Sound s' place' := by
  unfold Process.next at hstep
  split at hstep
  · next hpc =>
    obtain rfl := Option.some.inj hstep
    exact ⟨place, h.quiet .refl (by constructor <;> simp [hpc, Pc.halted, Pc.afterFlag])
      (by rw [hpc]; rfl) ⟨by simp, trivial⟩⟩
  · next hpc =>
    obtain rfl := Option.some.inj hstep
    exact h.take hpc (by simpa [usedOnce, hpc] using hused) rfl
      fun hjoinable => by simpa [Fits, Process.take] using hjoinable
  · next hpc =>
    obtain rfl := Option.some.inj hstep
    exact ⟨place, h⟩
  · next hpc =>
    obtain rfl := Option.some.inj hstep
    exact h.take hpc (by simpa [usedOnce, hpc] using hused) rfl
      fun hjoinable => by simpa [Fits, Process.take] using hjoinable
  · next hpc =>
    obtain rfl := Option.some.inj hstep
    exact ⟨place, h.quiet .refl (by constructor <;> simp [hpc, Pc.halted, Pc.afterFlag])
      (by rw [hpc]; rfl) trivial⟩
  · next hpc => exact h.create hpc hcreated hstep
  · next hpc => exact h.join hpc htime hstep
  · next hpc => exact h.detach hpc hstep
  · next hpc => exact ⟨place, h.threadFunc hpc hstep⟩
  · next hpc => exact h.cleanupThreadFunc hpc htime hstep
  · simp at hstep

end Functions

theorem sound_start : Sound .start fun _ => .rests .unmade := by
  refine ⟨fun i r => ?_, List.nodup_nil, fun r => ?_, fun i => ?_⟩
  · cases i <;> simp [Process.start, Pc.due]
  · constructor <;> simp [Process.start, Region.zero]
  · cases i <;> trivial

end MyThread
end OperatingSystems
