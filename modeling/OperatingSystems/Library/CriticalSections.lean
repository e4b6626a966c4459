import OperatingSystems.Library.Threads

/-!
# Critical sections

Threads that bracket a piece of code by the two functions of a lock.  The lock is itself code: a
call of it takes several steps, which interleave with those of the other threads.

* `guarded L B` — the threads that run the sections `B` under the lock `L`.
* `LockCode.Uses`, `LockCode.Excludes` — what the threads do to the lock alone, and that it lets
  one thread at a time into its section.
* `Body.Serial` — the sections run one after the other.
* `serial` — under a lock that excludes, the data and the threads are as in a run in
  which no section is interrupted by another.
-/

namespace OperatingSystems
namespace CriticalSections

open Threads

variable {ι σ τ ο μ β θ : Type*}

/-- The code of a lock: the steps of its functions, how a thread calls them, and whether a call
has returned. -/
structure LockCode (ι σ τ ο : Type*) extends Program ι σ τ ο where
  callLock : τ → τ
  callUnlock : τ → τ
  returned : τ → Bool

/-- The code of the sections: the steps inside, whether the section is at its end, and how a
thread goes on when it has left it. -/
structure Body (ι μ β θ : Type*) extends Program ι μ β θ where
  returned : β → Bool
  next : β → β

/-- Where a thread is. -/
inductive Phase
  | outside
  | locking
  | inside
  | unlocking
  deriving DecidableEq

/-- A thread, as its lock sees it. -/
structure Use (τ : Type*) where
  phase : Phase
  lock : τ

/-- A thread. -/
structure Guarded (τ β : Type*) extends Use τ where
  body : β

/-- An access of a thread: its own call or return, one of the lock, or one of the section. -/
inductive Access (ο θ : Type*)
  | own
  | lock (o : ο)
  | body (o : θ)

/-! ### The lock -/

namespace LockCode

variable (L : LockCode ι σ τ ο)

/-- A step of one thread that calls the two functions in turn. -/
inductive Step (i : ι) : σ → Use τ → σ → Use τ → Prop
  | call {memory : σ} {t : τ} : Step i memory ⟨.outside, t⟩ memory ⟨.locking, L.callLock t⟩
  | run {memory memory' : σ} {p : Phase} {t : τ} {o : ο} (hp : p = .locking ∨ p = .unlocking)
      (hop : L.op t = some o) (hexec : L.exec i o memory = some memory') :
      Step i memory ⟨p, t⟩ memory' ⟨p, L.resume memory t⟩
  | enter {memory : σ} {t : τ} (h : L.returned t = true) :
      Step i memory ⟨.locking, t⟩ memory ⟨.inside, t⟩
  | leave {memory : σ} {t : τ} :
      Step i memory ⟨.inside, t⟩ memory ⟨.unlocking, L.callUnlock t⟩
  | exit {memory : σ} {t : τ} (h : L.returned t = true) :
      Step i memory ⟨.unlocking, t⟩ memory ⟨.outside, t⟩

variable [DecidableEq ι] (init : State ι σ (Use τ) → Prop)

/-- The states of the lock and its threads. -/
inductive Uses : State ι σ (Use τ) → Prop
  | start {s : State ι σ (Use τ)} : init s → Uses s
  | step {s : State ι σ (Use τ)} {i : ι} {memory : σ} {t : Use τ} :
      Uses s → L.Step i s.shared (s.thread i) memory t → Uses (s.advance i memory t)

/-- The lock lets one thread at a time into its section, and none while it is free. -/
structure Excludes (free : σ → Prop) : Prop where
  unique : ∀ {s}, L.Uses init s → ∀ {i j}, (s.thread i).phase = .inside →
    (s.thread j).phase = .inside → i = j
  free : ∀ {s}, L.Uses init s → free s.shared → ∀ i, (s.thread i).phase ≠ .inside

end LockCode

/-! ### The sections -/

namespace Body

variable [DecidableEq ι] (B : Body ι μ β θ) (init : State ι μ β → Prop)

/-- The sections one after the other; `h` is the thread whose section is under way. -/
inductive Serial : Option ι → State ι μ β → Prop
  | start {d : State ι μ β} : init d → Serial none d
  | enter {d : State ι μ β} (i : ι) : Serial none d → Serial (some i) d
  | run {d : State ι μ β} {i : ι} {o : θ} {memory : μ} : Serial (some i) d →
      B.returned (d.thread i) = false → B.op (d.thread i) = some o →
      B.exec i o d.shared = some memory →
      Serial (some i) (d.advance i memory (B.resume d.shared (d.thread i)))
  | leave {d : State ι μ β} {i : ι} : Serial (some i) d → B.returned (d.thread i) = true →
      Serial none d
  | next {d : State ι μ β} {h : Option ι} {i : ι} : Serial h d → h ≠ some i →
      B.returned (d.thread i) = true →
      Serial h (d.advance i d.shared (B.next (d.thread i)))

variable {B init}

/-- The invariant rule. -/
theorem Serial.induction {J : Option ι → State ι μ β → Prop} (hinit : ∀ d, init d → J none d)
    (henter : ∀ d i, J none d → J (some i) d)
    (hrun : ∀ d i o memory, J (some i) d → B.returned (d.thread i) = false →
      B.op (d.thread i) = some o → B.exec i o d.shared = some memory →
      J (some i) (d.advance i memory (B.resume d.shared (d.thread i))))
    (hleave : ∀ d i, J (some i) d → B.returned (d.thread i) = true → J none d)
    (hnext : ∀ d h i, J h d → h ≠ some i → B.returned (d.thread i) = true →
      J h (d.advance i d.shared (B.next (d.thread i))))
    {h : Option ι} {d : State ι μ β} (hd : B.Serial init h d) : J h d := by
  induction hd with
  | start hd => exact hinit _ hd
  | enter i _ ih => exact henter _ i ih
  | run _ hreturned hop hexec ih => exact hrun _ _ _ _ ih hreturned hop hexec
  | leave _ hreturned ih => exact hleave _ _ ih hreturned
  | next _ hne hreturned ih => exact hnext _ _ _ ih hne hreturned

end Body

/-! ### Sections under a lock -/

/-- The threads that run the sections under the lock. -/
def guarded (L : LockCode ι σ τ ο) (B : Body ι μ β θ) :
    Program ι (σ × μ) (Guarded τ β) (Access ο θ) where
  op t :=
    match t.phase with
    | .outside => some .own
    | .locking | .unlocking =>
        if L.returned t.lock then some .own else (L.op t.lock).map .lock
    | .inside => if B.returned t.body then some .own else (B.op t.body).map .body
  exec i o memory :=
    match o with
    | .own => some memory
    | .lock o => (L.exec i o memory.1).map fun lock => (lock, memory.2)
    | .body o => (B.exec i o memory.2).map fun data => (memory.1, data)
  resume memory t :=
    match t.phase with
    | .outside => { t with phase := .locking, lock := L.callLock t.lock }
    | .locking =>
        if L.returned t.lock then { t with phase := .inside }
        else { t with lock := L.resume memory.1 t.lock }
    | .inside =>
        if B.returned t.body then { t with phase := .unlocking, lock := L.callUnlock t.lock }
        else { t with body := B.resume memory.2 t.body }
    | .unlocking =>
        if L.returned t.lock then { t with phase := .outside, body := B.next t.body }
        else { t with lock := L.resume memory.1 t.lock }

/-- The lock and the threads that use it. -/
def lockOf (s : State ι (σ × μ) (Guarded τ β)) : State ι σ (Use τ) :=
  s.map Prod.fst Guarded.toUse

/-- The data and the threads that work on it. -/
def dataOf (s : State ι (σ × μ) (Guarded τ β)) : State ι μ β :=
  s.map Prod.snd Guarded.body

/-- The threads have not called the lock yet. -/
structure Starts (lockInit : State ι σ (Use τ) → Prop) (dataInit : State ι μ β → Prop)
    (s : State ι (σ × μ) (Guarded τ β)) : Prop where
  lock : lockInit (lockOf s)
  data : dataInit (dataOf s)
  outside : ∀ i, (s.thread i).phase = .outside

section Advance

variable [DecidableEq ι] (s : State ι (σ × μ) (Guarded τ β)) (i : ι) (memory : σ × μ)
  (t : Guarded τ β)

theorem lockOf_advance : lockOf (s.advance i memory t) = (lockOf s).advance i memory.1 t.toUse :=
  s.map_advance i memory t Prod.fst Guarded.toUse

theorem dataOf_advance : dataOf (s.advance i memory t) = (dataOf s).advance i memory.2 t.body :=
  s.map_advance i memory t Prod.snd Guarded.body

variable {s i memory t}

/-- A step that leaves the lock alone. -/
theorem lockOf_eq (hlock : memory.1 = s.shared.1) (huse : t.toUse = (s.thread i).toUse) :
    lockOf (s.advance i memory t) = lockOf s :=
  s.map_advance_self i memory t hlock huse

/-- A step that leaves the data alone. -/
theorem dataOf_eq (hdata : memory.2 = s.shared.2) (hbody : t.body = (s.thread i).body) :
    dataOf (s.advance i memory t) = dataOf s :=
  s.map_advance_self i memory t hdata hbody

end Advance

/-! ### Serial runs -/

section Serial

variable [DecidableEq ι] {L : LockCode ι σ τ ο} {B : Body ι μ β θ}
  {lockInit : State ι σ (Use τ) → Prop} {dataInit : State ι μ β → Prop}
  {s : State ι (σ × μ) (Guarded τ β)} {i : ι}

variable (L B lockInit dataInit) in
/-- The lock is used as it should be, and the sections are run one after the other. -/
structure Serialized (s : State ι (σ × μ) (Guarded τ β)) (h : Option ι) : Prop where
  uses : L.Uses lockInit (lockOf s)
  serial : B.Serial dataInit h (dataOf s)
  inside : ∀ i, (s.thread i).phase = .inside ↔ h = some i
  left : ∀ i, (s.thread i).phase = .unlocking → B.returned (s.thread i).body = true

namespace Serialized

variable {h h' : Option ι} {memory : σ × μ} {t : Guarded τ β}

/-- A step after which the acting thread is inside if and only if its section is under way. -/
theorem advance (hs : Serialized L B lockInit dataInit s h)
    (huses : L.Uses lockInit (lockOf (s.advance i memory t)))
    (hserial : B.Serial dataInit h' (dataOf (s.advance i memory t)))
    (hinside : t.phase = .inside ↔ h' = some i) (hothers : ∀ j, j ≠ i → (h' = some j ↔ h = some j))
    (hleft : t.phase = .unlocking → B.returned t.body = true) :
    Serialized L B lockInit dataInit (s.advance i memory t) h' := by
  refine ⟨huses, hserial, fun j => ?_, fun j hj => ?_⟩
  · by_cases hji : j = i
    · subst hji
      rw [State.advance_thread_self]
      exact hinside
    · rw [State.advance_thread_of_ne _ _ _ hji, hs.inside j]
      exact (hothers j hji).symm
  · by_cases hji : j = i
    · subst hji
      rw [State.advance_thread_self] at hj ⊢
      exact hleft hj
    · rw [State.advance_thread_of_ne _ _ _ hji] at hj ⊢
      exact hs.left j hj

/-- A step of the lock, behind which the thread is outside its section as before. -/
theorem lockStep (hs : Serialized L B lockInit dataInit s h) {lock : σ}
    (hstep : L.Step i s.shared.1 (s.thread i).toUse lock t.toUse)
    (hbody : t.body = (s.thread i).body) (hbefore : (s.thread i).phase ≠ .inside)
    (hafter : t.phase ≠ .inside) (hleft : t.phase = .unlocking → B.returned t.body = true) :
    Serialized L B lockInit dataInit (s.advance i (lock, s.shared.2) t) h := by
  have hdata : dataOf (s.advance i (lock, s.shared.2) t) = dataOf s :=
    dataOf_eq rfl hbody
  have hh : h ≠ some i := fun heq => hbefore ((hs.inside i).mpr heq)
  refine hs.advance ?_ (hdata ▸ hs.serial) ⟨fun hin => absurd hin hafter, fun heq => absurd heq hh⟩
    (fun _ _ => Iff.rfl) hleft
  rw [lockOf_advance]
  exact hs.uses.step hstep

omit [DecidableEq ι] in
theorem toUse_eq {p : Phase} (hphase : (s.thread i).phase = p) :
    (s.thread i).toUse = ⟨p, (s.thread i).lock⟩ := by
  subst hphase
  rfl

/-- A step of the lock during a call. -/
theorem runLock (hs : Serialized L B lockInit dataInit s h) {p : Phase}
    (hphase : (s.thread i).phase = p) (hp : p = .locking ∨ p = .unlocking) {o : ο} {lock : σ}
    (hop : L.op (s.thread i).lock = some o) (hexec : L.exec i o s.shared.1 = some lock) :
    Serialized L B lockInit dataInit
      (s.advance i (lock, s.shared.2)
        ⟨⟨p, L.resume s.shared.1 (s.thread i).lock⟩, (s.thread i).body⟩) h := by
  subst hphase
  have hne : (s.thread i).phase ≠ .inside := by
    rcases hp with hp | hp <;> simp [hp]
  exact hs.lockStep (LockCode.Step.run hp hop hexec) rfl hne hne (hs.left i)

/-- The lock is taken: nobody else is inside, and the section begins. -/
theorem enter {free : σ → Prop} (hL : L.Excludes lockInit free)
    (hs : Serialized L B lockInit dataInit s h) (hphase : (s.thread i).phase = .locking)
    (hreturned : L.returned (s.thread i).lock = true) :
    Serialized L B lockInit dataInit
      (s.advance i s.shared ⟨⟨.inside, (s.thread i).lock⟩, (s.thread i).body⟩) (some i) := by
  have hstep : L.Step i s.shared.1 (s.thread i).toUse s.shared.1 ⟨.inside, (s.thread i).lock⟩ :=
    toUse_eq hphase ▸ .enter hreturned
  have huses := hs.uses.step hstep
  have hnone : h = none := by
    apply Option.eq_none_iff_forall_ne_some.mpr
    intro j hj
    have hjinside := (hs.inside j).mpr hj
    have hji : j ≠ i := by
      rintro rfl
      simp [hphase] at hjinside
    refine hji (hL.unique huses (i := j) (j := i) ?_ ?_)
    · rw [State.advance_thread_of_ne _ _ _ hji]
      exact hjinside
    · rw [State.advance_thread_self]
  subst hnone
  have hdata : dataOf (s.advance i s.shared
      ⟨⟨.inside, (s.thread i).lock⟩, (s.thread i).body⟩) = dataOf s := dataOf_eq rfl rfl
  refine hs.advance ?_ ?_ (by simp) (fun j hj => ?_) (by simp)
  · rw [lockOf_advance]
    exact huses
  · exact .enter i (hdata ▸ hs.serial)
  · simpa using hj.symm

/-- A step of the section. -/
theorem runBody (hs : Serialized L B lockInit dataInit s (some i))
    (hphase : (s.thread i).phase = .inside) (hrest : B.returned (s.thread i).body = false) {o : θ}
    {data : μ} (hop : B.op (s.thread i).body = some o) (hexec : B.exec i o s.shared.2 = some data) :
    Serialized L B lockInit dataInit
      (s.advance i (s.shared.1, data)
        ⟨(s.thread i).toUse, B.resume s.shared.2 (s.thread i).body⟩) (some i) := by
  have hlock : lockOf (s.advance i (s.shared.1, data)
      ⟨(s.thread i).toUse, B.resume s.shared.2 (s.thread i).body⟩) = lockOf s :=
    lockOf_eq rfl rfl
  refine hs.advance ?_ ?_ (by simp [hphase]) (fun _ _ => Iff.rfl) (by simp [hphase])
  · rw [hlock]
    exact hs.uses
  · rw [dataOf_advance]
    exact hs.serial.run hrest hop hexec

/-- The section is at its end, and the lock is about to be released. -/
theorem leave (hs : Serialized L B lockInit dataInit s (some i))
    (hphase : (s.thread i).phase = .inside) (hreturned : B.returned (s.thread i).body = true) :
    Serialized L B lockInit dataInit
      (s.advance i s.shared
        ⟨⟨.unlocking, L.callUnlock (s.thread i).lock⟩, (s.thread i).body⟩) none := by
  have hstep : L.Step i s.shared.1 (s.thread i).toUse s.shared.1
      ⟨.unlocking, L.callUnlock (s.thread i).lock⟩ := toUse_eq hphase ▸ .leave
  have hdata : dataOf (s.advance i s.shared
      ⟨⟨.unlocking, L.callUnlock (s.thread i).lock⟩, (s.thread i).body⟩) = dataOf s :=
    dataOf_eq rfl rfl
  refine hs.advance ?_ ?_ (by simp) (fun j hj => ?_) fun _ => hreturned
  · rw [lockOf_advance]
    exact hs.uses.step hstep
  · exact hdata ▸ hs.serial.leave hreturned
  · simpa using hj.symm

/-- The call that releases the lock returns. -/
theorem exit (hs : Serialized L B lockInit dataInit s h)
    (hphase : (s.thread i).phase = .unlocking) (hreturned : L.returned (s.thread i).lock = true) :
    Serialized L B lockInit dataInit
      (s.advance i s.shared
        ⟨⟨.outside, (s.thread i).lock⟩, B.next (s.thread i).body⟩) h := by
  have hstep : L.Step i s.shared.1 (s.thread i).toUse s.shared.1 ⟨.outside, (s.thread i).lock⟩ :=
    toUse_eq hphase ▸ .exit hreturned
  have hh : h ≠ some i := by
    intro heq
    have hinside := (hs.inside i).mpr heq
    simp [hphase] at hinside
  refine hs.advance ?_ ?_ ?_ (fun _ _ => Iff.rfl) (by simp)
  · rw [lockOf_advance]
    exact hs.uses.step hstep
  · rw [dataOf_advance]
    exact hs.serial.next hh (hs.left i hphase)
  · simpa using hh

/-- One step of one thread. -/
theorem step {free : σ → Prop} (hL : L.Excludes lockInit free)
    (hs : Serialized L B lockInit dataInit s h) {o : Access ο θ}
    (hop : (guarded L B).op (s.thread i) = some o)
    (hexec : (guarded L B).exec i o s.shared = some memory) :
    ∃ h', Serialized L B lockInit dataInit
      (s.advance i memory ((guarded L B).resume s.shared (s.thread i))) h' := by
  cases hphase : (s.thread i).phase with
  | outside =>
      simp only [guarded, hphase, Option.some.injEq] at hop hexec ⊢
      subst hop
      obtain rfl := Option.some.inj hexec
      have hstep : L.Step i s.shared.1 (s.thread i).toUse s.shared.1
          ⟨.locking, L.callLock (s.thread i).lock⟩ := toUse_eq hphase ▸ .call
      exact ⟨h, hs.lockStep hstep rfl (by simp [hphase]) (by simp) (by simp)⟩
  | locking =>
      simp only [guarded, hphase] at hop hexec ⊢
      by_cases hreturned : L.returned (s.thread i).lock = true
      · rw [if_pos hreturned] at hop ⊢
        obtain rfl := Option.some.inj hop
        obtain rfl := Option.some.inj hexec
        exact ⟨some i, hs.enter hL hphase hreturned⟩
      · rw [if_neg hreturned] at hop ⊢
        obtain ⟨o', hop', rfl⟩ := Option.map_eq_some_iff.mp hop
        obtain ⟨lock, hexec', rfl⟩ := Option.map_eq_some_iff.mp hexec
        exact ⟨h, hs.runLock hphase (.inl rfl) hop' hexec'⟩
  | inside =>
      simp only [guarded, hphase] at hop hexec ⊢
      obtain rfl := (hs.inside i).mp hphase
      by_cases hreturned : B.returned (s.thread i).body = true
      · rw [if_pos hreturned] at hop ⊢
        obtain rfl := Option.some.inj hop
        obtain rfl := Option.some.inj hexec
        exact ⟨none, hs.leave hphase hreturned⟩
      · rw [if_neg hreturned] at hop ⊢
        obtain ⟨o', hop', rfl⟩ := Option.map_eq_some_iff.mp hop
        obtain ⟨data, hexec', rfl⟩ := Option.map_eq_some_iff.mp hexec
        exact ⟨some i, hs.runBody hphase (by simpa using hreturned) hop' hexec'⟩
  | unlocking =>
      simp only [guarded, hphase] at hop hexec ⊢
      by_cases hreturned : L.returned (s.thread i).lock = true
      · rw [if_pos hreturned] at hop ⊢
        obtain rfl := Option.some.inj hop
        obtain rfl := Option.some.inj hexec
        exact ⟨h, hs.exit hphase hreturned⟩
      · rw [if_neg hreturned] at hop ⊢
        obtain ⟨o', hop', rfl⟩ := Option.map_eq_some_iff.mp hop
        obtain ⟨lock, hexec', rfl⟩ := Option.map_eq_some_iff.mp hexec
        exact ⟨h, hs.runLock hphase (.inr rfl) hop' hexec'⟩

end Serialized

/-- Under a lock that excludes, the data and the threads are as in a serial run. -/
theorem serial {free : σ → Prop} (hL : L.Excludes lockInit free)
    (hs : (guarded L B).Reachable (Starts lockInit dataInit) s) :
    ∃ h, Serialized L B lockInit dataInit s h := by
  refine hs.induction (I := fun s => ∃ h, Serialized L B lockInit dataInit s h) ?_ ?_
  · rintro s ⟨hlock, hdata, houtside⟩
    refine ⟨none, .start hlock, .start hdata, fun i => ?_, fun i hi => ?_⟩
    · simp [houtside i]
    · simp [houtside i] at hi
  · rintro s i o memory _ ⟨h, hs⟩ _ hop hexec
    exact hs.step hL hop hexec

/-- While the lock is free, no section is under way. -/
theorem Serialized.of_free {free : σ → Prop} {h : Option ι} (hL : L.Excludes lockInit free)
    (hs : Serialized L B lockInit dataInit s h) (hfree : free s.shared.1) : h = none := by
  apply Option.eq_none_iff_forall_ne_some.mpr
  intro i hi
  exact hL.free hs.uses hfree i ((hs.inside i).mpr hi)

end Serial

end CriticalSections
end OperatingSystems
