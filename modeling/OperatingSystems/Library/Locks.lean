import Mathlib.Data.Finset.Basic
import Mathlib.Data.List.Perm.Basic
import Mathlib.Data.Set.Basic
import OperatingSystems.Library.Threads

/-!
# Mutexes and read-write locks

A lock is held by one writer or by a set of readers; a mutex is a lock that is
only ever taken for writing.  `LockDiscipline` ties the lock table of a threaded
program to the control state of its threads: `held t` lists the locks which a
thread in local state `t` holds, and the only actions that change it are the
actions that acquire or release the lock in the table.

* `LockDiscipline.heldBy_iff` — in every reachable state the table and the
  control states agree, so the holder of a lock can be read off either one.
* `LockDiscipline.writer_unique` — a lock held for writing has one holder.
* `RwLock.Exclusive.holder_unique`, `LockDiscipline.exclusive` — and no reader.
* `LockDiscipline.not_deadlocked` — if every thread waits only for locks ranked
  above the locks it holds, and ranks are bounded, no set of threads is
  deadlocked.
-/

namespace OperatingSystems
namespace Threads

/-- The two ways to hold a lock. -/
inductive Mode
  | read
  | write
  deriving DecidableEq

/-- The state of one lock. -/
structure RwLock (ι : Type*) where
  writer : Option ι
  readers : Finset ι

namespace RwLock

variable {ι : Type*} [DecidableEq ι]

/-- A lock as its initialiser leaves it. -/
def unlocked : RwLock ι := ⟨none, ∅⟩

/-- Thread `i` takes the lock, if it is free for that mode. -/
def acquire (i : ι) : Mode → RwLock ι → Option (RwLock ι)
  | .read, l => if l.writer = none then some { l with readers := insert i l.readers } else none
  | .write, l =>
      if l.writer = none ∧ l.readers = ∅ then some { l with writer := some i } else none

/-- Thread `i` gives the lock back. -/
def release (i : ι) : Mode → RwLock ι → RwLock ι
  | .read, l => { l with readers := l.readers.erase i }
  | .write, l => { l with writer := none }

/-- Thread `i` holds the lock in the given mode. -/
def HeldBy (l : RwLock ι) (i : ι) : Mode → Prop
  | .read => i ∈ l.readers
  | .write => l.writer = some i

omit [DecidableEq ι] in
theorem not_heldBy_unlocked (i : ι) (m : Mode) : ¬ (unlocked : RwLock ι).HeldBy i m := by
  cases m <;> simp [unlocked, HeldBy]

/-- A successful acquisition adds exactly the acquiring thread. -/
theorem heldBy_acquire {l l' : RwLock ι} {i : ι} {m : Mode}
    (h : l.acquire i m = some l') (j : ι) (m' : Mode) :
    l'.HeldBy j m' ↔ l.HeldBy j m' ∨ (j = i ∧ m' = m) := by
  cases m with
  | read =>
      simp only [acquire, Option.ite_none_right_eq_some, Option.some.injEq] at h
      obtain ⟨-, rfl⟩ := h
      cases m' <;> simp [HeldBy, or_comm]
  | write =>
      simp only [acquire, Option.ite_none_right_eq_some, Option.some.injEq] at h
      obtain ⟨⟨hwriter, -⟩, rfl⟩ := h
      cases m' <;> simp [HeldBy, hwriter, eq_comm]

/-- A lock acquired for writing was held by nobody. -/
theorem not_heldBy_of_acquire_write {l l' : RwLock ι} {i : ι}
    (h : l.acquire i .write = some l') (j : ι) (m : Mode) : ¬ l.HeldBy j m := by
  simp only [acquire, Option.ite_none_right_eq_some] at h
  obtain ⟨⟨hwriter, hreaders⟩, -⟩ := h
  cases m <;> simp [HeldBy, hwriter, hreaders]

/-- A release by a holder removes exactly that holder. -/
theorem heldBy_release {l : RwLock ι} {i : ι} {m : Mode} (h : l.HeldBy i m)
    (j : ι) (m' : Mode) :
    (l.release i m).HeldBy j m' ↔ l.HeldBy j m' ∧ ¬ (j = i ∧ m' = m) := by
  cases m with
  | read => cases m' <;> simp [release, HeldBy, and_comm]
  | write =>
      have hwriter : l.writer = some i := h
      cases m' <;> simp [release, HeldBy, hwriter, eq_comm]

omit [DecidableEq ι] in
/-- A lock that nobody holds. -/
theorem eq_unlocked {l : RwLock ι} (h : ∀ i m, ¬ l.HeldBy i m) : l = .unlocked := by
  have hwriter : l.writer = none := by
    cases hw : l.writer with
    | none => rfl
    | some i => exact absurd hw (h i .write)
  have hreaders : l.readers = ∅ := Finset.eq_empty_of_forall_notMem fun i hi => h i .read hi
  obtain ⟨writer, readers⟩ := l
  subst hwriter hreaders
  rfl

/-- A lock with a writer has no readers. -/
def Exclusive (l : RwLock ι) : Prop :=
  l.writer ≠ none → l.readers = ∅

omit [DecidableEq ι] in
theorem exclusive_unlocked : (unlocked : RwLock ι).Exclusive :=
  fun h => absurd rfl h

theorem Exclusive.acquire {l l' : RwLock ι} {i : ι} {m : Mode} (h : l.acquire i m = some l') :
    l'.Exclusive := by
  cases m with
  | read =>
      simp only [RwLock.acquire, Option.ite_none_right_eq_some, Option.some.injEq] at h
      obtain ⟨hwriter, rfl⟩ := h
      exact fun hne => absurd hwriter hne
  | write =>
      simp only [RwLock.acquire, Option.ite_none_right_eq_some, Option.some.injEq] at h
      obtain ⟨⟨-, hreaders⟩, rfl⟩ := h
      exact fun _ => hreaders

theorem Exclusive.release {l : RwLock ι} (h : l.Exclusive) (i : ι) (m : Mode) :
    (l.release i m).Exclusive := by
  cases m with
  | read =>
      intro hne
      simp [RwLock.release, h hne]
  | write => exact fun hne => absurd rfl hne

omit [DecidableEq ι] in
/-- Nobody else holds a lock that is held for writing. -/
theorem Exclusive.holder_unique {l : RwLock ι} (h : l.Exclusive) {i j : ι} {m : Mode}
    (hi : l.HeldBy i .write) (hj : l.HeldBy j m) : j = i := by
  have hwriter : l.writer = some i := hi
  cases m with
  | write => exact Option.some.inj (Eq.trans (Eq.symm hj) hwriter)
  | read =>
      have hempty : l.readers = ∅ := h (by simp [hwriter])
      have hmem : j ∈ l.readers := hj
      simp [hempty] at hmem

end RwLock

/-- What an action does to the lock table. -/
inductive LockEffect (Λ : Type*)
  | keep
  | acquire (l : Λ) (m : Mode)
  | release (l : Λ) (m : Mode)
  deriving DecidableEq

/-- A threaded program whose locks are named by `Λ`, with the lock set of a
thread read off its control state.  A lock is never taken for reading by a
thread which already reads it.  `ok` is what the thread that acts can rely on. -/
structure LockDiscipline {ι σ τ ο : Type*} [DecidableEq ι] (P : Program ι σ τ ο)
    (Λ : Type*) [DecidableEq Λ] (ok : σ → τ → Prop := fun _ _ => True) where
  locks : σ → Λ → RwLock ι
  effect : ο → LockEffect Λ
  held : τ → List (Λ × Mode)
  exec_keep : ∀ {i o memory memory'}, P.exec i o memory = some memory' →
    effect o = .keep → locks memory' = locks memory
  exec_acquire : ∀ {i o memory memory' l m}, P.exec i o memory = some memory' →
    effect o = .acquire l m → ∃ l', (locks memory l).acquire i m = some l' ∧
      locks memory' = Function.update (locks memory) l l'
  exec_release : ∀ {i o memory memory' l m}, P.exec i o memory = some memory' →
    effect o = .release l m →
      locks memory' = Function.update (locks memory) l ((locks memory l).release i m)
  resume_keep : ∀ {t o memory}, ok memory t → P.op t = some o → effect o = .keep →
    (held (P.resume memory t)).Perm (held t)
  resume_acquire : ∀ {t o l m memory}, ok memory t → P.op t = some o →
    effect o = .acquire l m → (held (P.resume memory t)).Perm ((l, m) :: held t)
  acquire_read : ∀ {t o l memory}, ok memory t → P.op t = some o →
    effect o = .acquire l .read → (l, Mode.read) ∉ held t
  resume_release : ∀ {t o l m memory}, ok memory t → P.op t = some o →
    effect o = .release l m → (held t).Perm ((l, m) :: held (P.resume memory t))

namespace LockDiscipline

variable {ι σ τ ο Λ : Type*} [DecidableEq ι] [DecidableEq Λ] {P : Program ι σ τ ο}
  {ok : σ → τ → Prop} (D : LockDiscipline P Λ ok)

/-- The lock table and the control state of one thread agree. -/
structure Agrees (i : ι) (memory : σ) (t : τ) : Prop where
  heldBy_iff : ∀ l m, (D.locks memory l).HeldBy i m ↔ (l, m) ∈ D.held t
  nodup : (D.held t).Nodup

/-- The acting thread keeps the agreement. -/
theorem agrees_own {i : ι} {o : ο} {memory memory' : σ} {t : τ}
    (h : D.Agrees i memory t) (hok : ok memory t) (hop : P.op t = some o)
    (hexec : P.exec i o memory = some memory') :
    D.Agrees i memory' (P.resume memory t) := by
  cases heffect : D.effect o with
  | keep =>
      have hperm := D.resume_keep hok hop heffect
      refine ⟨fun l m => ?_, hperm.nodup_iff.mpr h.nodup⟩
      rw [D.exec_keep hexec heffect, h.heldBy_iff, hperm.mem_iff]
  | acquire l m =>
      obtain ⟨l', hacquire, hlocks⟩ := D.exec_acquire hexec heffect
      have hperm := D.resume_acquire hok hop heffect
      have hnew : (l, m) ∉ D.held t := by
        cases m with
        | read => exact D.acquire_read hok hop heffect
        | write =>
            intro hmem
            exact RwLock.not_heldBy_of_acquire_write hacquire i .write
              ((h.heldBy_iff l .write).mpr hmem)
      refine ⟨fun k n => ?_, hperm.nodup_iff.mpr (List.nodup_cons.mpr ⟨hnew, h.nodup⟩)⟩
      rw [hperm.mem_iff, List.mem_cons, ← h.heldBy_iff, hlocks]
      by_cases hk : k = l
      · subst k
        rw [Function.update_self, RwLock.heldBy_acquire hacquire]
        simp [or_comm]
      · simp [hk]
  | release l m =>
      have hperm := D.resume_release hok hop heffect
      have hnodup := hperm.nodup_iff.mp h.nodup
      rw [List.nodup_cons] at hnodup
      have hheld : (D.locks memory l).HeldBy i m :=
        (h.heldBy_iff l m).mpr (hperm.mem_iff.mpr (by simp))
      refine ⟨fun k n => ?_, hnodup.2⟩
      rw [D.exec_release hexec heffect]
      by_cases hk : k = l
      · subst k
        rw [Function.update_self, RwLock.heldBy_release hheld, h.heldBy_iff, hperm.mem_iff]
        by_cases hn : n = m
        · subst n
          simpa using hnodup.1
        · simp [hn]
      · rw [Function.update_of_ne hk, h.heldBy_iff, hperm.mem_iff]
        simp [hk]

/-- The other threads keep the agreement: nobody takes or gives back a lock in
another thread's name. -/
theorem agrees_other {i j : ι} {o : ο} {memory memory' : σ} {t u : τ}
    (hi : D.Agrees i memory t) (hj : D.Agrees j memory u) (hji : j ≠ i) (hok : ok memory t)
    (hop : P.op t = some o) (hexec : P.exec i o memory = some memory') :
    D.Agrees j memory' u := by
  refine ⟨fun k n => ?_, hj.nodup⟩
  cases heffect : D.effect o with
  | keep => rw [D.exec_keep hexec heffect, hj.heldBy_iff]
  | acquire l m =>
      obtain ⟨l', hacquire, hlocks⟩ := D.exec_acquire hexec heffect
      rw [hlocks, ← hj.heldBy_iff]
      by_cases hk : k = l
      · subst k
        rw [Function.update_self, RwLock.heldBy_acquire hacquire]
        simp [hji]
      · rw [Function.update_of_ne hk]
  | release l m =>
      have hheld : (D.locks memory l).HeldBy i m :=
        (hi.heldBy_iff l m).mpr ((D.resume_release hok hop heffect).mem_iff.mpr (by simp))
      rw [D.exec_release hexec heffect, ← hj.heldBy_iff]
      by_cases hk : k = l
      · subst k
        rw [Function.update_self, RwLock.heldBy_release hheld]
        simp [hji]
      · rw [Function.update_of_ne hk]

/-- An action keeps writers and readers apart. -/
theorem exclusive {i : ι} {o : ο} {memory memory' : σ} (h : ∀ l, (D.locks memory l).Exclusive)
    (hexec : P.exec i o memory = some memory') (l : Λ) : (D.locks memory' l).Exclusive := by
  cases heffect : D.effect o with
  | keep =>
      rw [D.exec_keep hexec heffect]
      exact h l
  | acquire k m =>
      obtain ⟨l', hacquire, hlocks⟩ := D.exec_acquire hexec heffect
      rw [hlocks]
      by_cases hk : l = k
      · subst k
        rw [Function.update_self]
        exact .acquire hacquire
      · rw [Function.update_of_ne hk]
        exact h l
  | release k m =>
      rw [D.exec_release hexec heffect]
      by_cases hk : l = k
      · subst k
        rw [Function.update_self]
        exact (h l).release i m
      · rw [Function.update_of_ne hk]
        exact h l

variable {init : State ι σ τ → Prop} {steps : State ι σ τ → ι → Prop}

/-- Every lock is free and the thread holds none. -/
theorem agrees_start {i : ι} {memory : σ} {t : τ} (hlocks : ∀ l, D.locks memory l = .unlocked)
    (hheld : D.held t = []) : D.Agrees i memory t := by
  refine ⟨fun l m => ?_, by simp [hheld]⟩
  rw [hlocks l, hheld]
  simpa using RwLock.not_heldBy_unlocked i m

/-- One step keeps the agreement for all threads. -/
theorem agrees_advance {s : State ι σ τ} {i : ι} {o : ο} {memory : σ}
    (h : ∀ j, D.Agrees j s.shared (s.thread j)) (hok : ok s.shared (s.thread i))
    (hop : P.op (s.thread i) = some o) (hexec : P.exec i o s.shared = some memory) (j : ι) :
    D.Agrees j memory
      ((s.advance i memory (P.resume s.shared (s.thread i))).thread j) := by
  by_cases hji : j = i
  · subst j
    rw [State.advance_thread_self]
    exact D.agrees_own (h i) hok hop hexec
  · rw [State.advance_thread_of_ne _ _ _ hji]
    exact D.agrees_other (h i) (h j) hji hok hop hexec

/-- A program that starts with every lock free and no thread holding one keeps
lock table and control states in agreement. -/
theorem agrees {D : LockDiscipline P Λ} (hlocks : ∀ s, init s → ∀ l, D.locks s.shared l = .unlocked)
    (hheld : ∀ s, init s → ∀ i, D.held (s.thread i) = [])
    {s : State ι σ τ} (hs : P.ReachableUnder init steps s) (i : ι) :
    D.Agrees i s.shared (s.thread i) := by
  refine hs.induction (I := fun s => ∀ i, D.Agrees i s.shared (s.thread i)) ?_ ?_ i
  · exact fun s h i => D.agrees_start (hlocks s h) (hheld s h i)
  · intro s i o memory _ h _ hop hexec
    exact D.agrees_advance h trivial hop hexec

section Reachable

variable {D : LockDiscipline P Λ} (hlocks : ∀ s, init s → ∀ l, D.locks s.shared l = .unlocked)
  (hheld : ∀ s, init s → ∀ i, D.held (s.thread i) = [])

include hlocks hheld

/-- The holder of a lock can be read off the control states. -/
theorem heldBy_iff {s : State ι σ τ} (hs : P.ReachableUnder init steps s) (i : ι) (l : Λ)
    (m : Mode) : (D.locks s.shared l).HeldBy i m ↔ (l, m) ∈ D.held (s.thread i) :=
  (agrees hlocks hheld hs i).heldBy_iff l m

/-- Mutual exclusion: two threads whose control states hold a lock for writing
are the same thread. -/
theorem writer_unique {s : State ι σ τ} (hs : P.ReachableUnder init steps s) {i j : ι} {l : Λ}
    (hi : (l, Mode.write) ∈ D.held (s.thread i)) (hj : (l, Mode.write) ∈ D.held (s.thread j)) :
    i = j := by
  have hwi : (D.locks s.shared l).writer = some i := (heldBy_iff hlocks hheld hs i l .write).mpr hi
  have hwj : (D.locks s.shared l).writer = some j := (heldBy_iff hlocks hheld hs j l .write).mpr hj
  exact Option.some.inj (hwi.symm.trans hwj)

end Reachable

/-- The lock a thread in local state `t` is about to take. -/
def waitsFor (t : τ) : Option (Λ × Mode) :=
  match P.op t with
  | none => none
  | some o =>
      match D.effect o with
      | .acquire l m => some (l, m)
      | _ => none

/-- A deadlocked set of threads: each of them waits for a lock which a thread
of the set holds. -/
def Deadlocked (s : State ι σ τ) (S : Set ι) : Prop :=
  S.Nonempty ∧ ∀ i ∈ S, ∃ l m, D.waitsFor (s.thread i) = some (l, m) ∧
    ∃ j ∈ S, ∃ m', (D.locks s.shared l).HeldBy j m'

/-- Lock ranking excludes deadlock. -/
theorem not_deadlocked {s : State ι σ τ} (hagrees : ∀ i, D.Agrees i s.shared (s.thread i))
    (rank : Λ → Nat) (bound : Nat) (hbound : ∀ l, rank l ≤ bound)
    (hrank : ∀ i l m l' m', (l, m) ∈ D.held (s.thread i) →
      D.waitsFor (s.thread i) = some (l', m') → rank l < rank l')
    (S : Set ι) : ¬ D.Deadlocked s S := by
  rintro ⟨⟨i, hi⟩, hwait⟩
  -- Following the holders inside `S` climbs the ranks, which are bounded.
  have climb : ∀ n, ∃ j ∈ S, ∃ l m, D.waitsFor (s.thread j) = some (l, m) ∧ n ≤ rank l := by
    intro n
    induction n with
    | zero =>
        obtain ⟨l, m, hl, -⟩ := hwait i hi
        exact ⟨i, hi, l, m, hl, Nat.zero_le _⟩
    | succ n ih =>
        obtain ⟨j, hj, l, m, hl, hn⟩ := ih
        obtain ⟨k, n', hk, j', hj', m', hheld⟩ := hwait j hj
        obtain ⟨rfl, rfl⟩ := Prod.mk.inj (Option.some.inj (hl.symm.trans hk))
        obtain ⟨l', m'', hl', -⟩ := hwait j' hj'
        have hlt := hrank j' l m' l' m'' (((hagrees j').heldBy_iff l m').mp hheld) hl'
        exact ⟨j', hj', l', m'', hl', by omega⟩
  obtain ⟨j, -, l, m, -, hn⟩ := climb (bound + 1)
  have := hbound l
  omega

end LockDiscipline
end Threads
end OperatingSystems
