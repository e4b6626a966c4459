import OperatingSystems.SharedList.Order

/-!
# Passes and locks of the shared list

* `scansAll` — a pass of a scan locks every node once, whatever is swapped meanwhile.
* `rank` — the locks in the order of the nodes, then the locks of the counters; every
  thread waits for a lock above those that it holds.
* `deadlockFree` — no deadlock, and no node stays locked between the rounds of a thread.
-/

namespace OperatingSystems
namespace SharedList

open Threads Succession

/-- The scan has finished a pass and counts it. -/
def Thread.passDone (t : Thread) : Prop :=
  t.pc = .scanCountLock ∨ t.pc = .scanCount ∨ t.pc = .scanCountUnlock

instance (t : Thread) : Decidable t.passDone :=
  inferInstanceAs (Decidable (_ ∨ _ ∨ _))

section Reachable

variable {ι : Type*} [DecidableEq ι] {v : Version} {n : Nat}

/-- A completed pass has locked each of the `n` nodes once and made `n - 1` comparisons. -/
theorem scansAll {s : State ι (Memory ι) Thread} (hs : (threads v ι).Reachable (Starts n) s)
    {i : ι} (hdone : (s.thread i).passDone) :
    (s.thread i).visited.Perm (List.range' 1 n) ∧ (s.thread i).comparisons = n - 1 := by
  obtain ⟨l, h⟩ := ordered hs
  have hcomplete : Complete l (s.thread i).visited (s.thread i).comparisons := by
    have hknows := h.knows i
    obtain hpc | hpc | hpc := hdone <;> simpa only [Knows, hpc] using hknows
  have hperm : (s.thread i).visited.Perm (List.range' 1 n) := by
    have := hcomplete.nodes.trans h.perm
    rw [List.range_eq_range', List.range'_succ] at this
    exact this.cons_inv
  refine ⟨hperm, ?_⟩
  rw [hcomplete.count, hperm.length_eq, List.length_range']

/-- The locks in the order `l` of the nodes, then the locks of the counters. -/
def rank (l : List Nat) : Lock → Nat
  | .node a => l.idxOf a
  | .counter _ => l.length + 1

theorem rank_le (l : List Nat) (lock : Lock) : rank l lock ≤ l.length + 1 := by
  cases lock with
  | node a => exact Nat.le_succ_of_le List.idxOf_le_length
  | counter c => exact Nat.le_refl _

theorem rank_succ {l : List Nat} {a b : Nat} (hnodup : l.Nodup) (h : succ l a = some b) :
    rank l (.node a) < rank l (.node b) := by
  simp only [rank, idxOf_succ h hnodup]
  exact Nat.lt_succ_self _

theorem rank_counter (l : List Nat) (a : Nat) (c : Counter) :
    rank l (.node a) < rank l (.counter c) :=
  Nat.lt_succ_of_le List.idxOf_le_length

/-- A thread waits only for locks above those that it holds. -/
theorem rank_lt {l : List Nat} {t : Thread} {lock lock' : Lock} {m m' : Mode} (h : Knows l t)
    (hnodup : l.Nodup) (hheld : (lock, m) ∈ t.held v)
    (hwait : (discipline v ι).waitsFor t = some (lock', m')) : rank l lock < rank l lock' := by
  simp only [LockDiscipline.waitsFor, discipline, threads] at hwait
  unfold Knows at h
  unfold Thread.op at hwait
  unfold Thread.held at hheld
  cases hpc : t.pc <;> simp only [hpc, Op.effect, Option.some.injEq, Prod.mk.injEq, reduceCtorEq,
    List.not_mem_nil, List.mem_cons, or_false] at h hheld hwait
  case scanLockFirst =>
    obtain ⟨rfl, -⟩ := hheld
    obtain ⟨rfl, -⟩ := hwait
    exact rank_succ hnodup h.1
  case scanLockNext =>
    obtain ⟨rfl, -⟩ := hheld
    obtain ⟨rfl, -⟩ := hwait
    exact rank_succ hnodup h.1
  case swapLockCurrent =>
    obtain ⟨rfl, -⟩ := hheld
    obtain ⟨rfl, -⟩ := hwait
    exact rank_succ hnodup h
  case swapLockNext =>
    obtain ⟨rfl, -⟩ := hwait
    have hnext := rank_succ hnodup h.2
    obtain ⟨rfl, -⟩ | ⟨rfl, -⟩ := hheld
    · exact hnext
    · exact (rank_succ hnodup h.1).trans hnext
  case swapCountLock =>
    obtain ⟨rfl, -⟩ := hwait
    obtain ⟨rfl, -⟩ | ⟨rfl, -⟩ | ⟨rfl, -⟩ := hheld <;> exact rank_counter l _ _

/-- The thread is about to test `stop_flag` in its outer loop. -/
def Thread.atOuterLoop (t : Thread) : Prop :=
  t.pc = .scanStop ∨ t.pc = .swapOuter

instance (t : Thread) : Decidable t.atOuterLoop :=
  inferInstanceAs (Decidable (_ ∨ _))

theorem Thread.held_of_op_none {t : Thread} (h : t.op v = none) : t.held v = [] := by
  unfold op at h
  unfold held
  cases hpc : t.pc <;> simp only [hpc, reduceCtorEq] at h ⊢

/-- No set of threads is deadlocked; a thread at the start of its outer loop has locked no
node, and when all threads have returned every node is unlocked. -/
theorem deadlockFree {s : State ι (Memory ι) Thread}
    (hs : (threads v ι).Reachable (Starts n) s) :
    (∀ S : Set ι, ¬ (discipline v ι).Deadlocked s S) ∧
      (∀ i, (s.thread i).atOuterLoop → ∀ a m, ¬ (s.shared.locks (.node a)).HeldBy i m) ∧
      ((∀ i, (s.thread i).op v = none) → ∀ a, s.shared.locks (.node a) = .unlocked) := by
  obtain ⟨l, h⟩ := ordered hs
  have hfree : ∀ i, (s.thread i).held v = [] → ∀ a m,
      ¬ (s.shared.locks (.node a)).HeldBy i m := by
    intro i hheld a m hholds
    have := ((h.agrees i).heldBy_iff (.node a) m).mp hholds
    change _ ∈ (s.thread i).held v at this
    simp [hheld] at this
  refine ⟨fun S => ?_, fun i houter => hfree i ?_, fun hreturned a => ?_⟩
  · refine (discipline v ι).not_deadlocked h.agrees (rank l) _ (rank_le l) ?_ S
    intro i lock m lock' m' hheld hwait
    exact rank_lt (h.knows i) h.nodup hheld hwait
  · obtain hpc | hpc := houter <;> simp only [Thread.held, hpc]
  · exact RwLock.eq_unlocked fun i => hfree i (Thread.held_of_op_none (hreturned i)) a

end Reachable

/-- A scan has finished a pass over two nodes that had changed places. -/
theorem scansAll_swapped :
    ∃ s ∈ (threads .mutex (Fin 2)).runIf (fun _ _ => true) (swapping 2)
        (List.replicate 20 0 ++ List.replicate 15 1),
      (s.thread 1).passDone ∧ (s.thread 1).visited = [2, 1] ∧
        (s.thread 1).visited.Perm (List.range' 1 2) ∧ (s.thread 1).comparisons = 2 - 1 := by
  obtain ⟨s, hrun, hs, hdone, hvisited⟩ :=
    (Program.ReachableUnder.start (starts_swapping 2)).exists_runIf (fun _ _ _ => trivial)
      (fun s => (s.thread 1).passDone ∧ (s.thread 1).visited = [2, 1])
      (by decide +kernel : ((threads .mutex (Fin 2)).runIf (fun _ _ => true) (swapping 2)
        (List.replicate 20 0 ++ List.replicate 15 1)).any _ = true)
  exact ⟨s, hrun, hdone, hvisited, scansAll hs hdone⟩

/-- The scan waits for a node that the other thread has locked. -/
theorem deadlockFree_waiting :
    ∃ s ∈ (threads .spinloc (Fin 2)).runIf (fun _ _ => true) (swapping 2)
        (List.replicate 3 0 ++ List.replicate 1 1),
      (threads .spinloc (Fin 2)).step s 1 = none ∧
        ∀ S : Set (Fin 2), ¬ (discipline .spinloc (Fin 2)).Deadlocked s S := by
  obtain ⟨s, hrun, hs, hwaits⟩ :=
    (Program.ReachableUnder.start (starts_swapping 2)).exists_runIf (fun _ _ _ => trivial)
      (fun s => ((threads .spinloc (Fin 2)).step s 1).isNone = true)
      (by decide +kernel : ((threads .spinloc (Fin 2)).runIf (fun _ _ => true) (swapping 2)
        (List.replicate 3 0 ++ List.replicate 1 1)).any _ = true)
  exact ⟨s, hrun, Option.isNone_iff_eq_none.mp hwaits, (deadlockFree hs).1⟩

end SharedList
end OperatingSystems
