import OperatingSystems.Library.Quiescence
import OperatingSystems.SharedList.Passes

/-!
# The end of the shared list

`main` sets `stop_flag`, joins the threads and calls `list_destroy`.

* `Thread.remaining` — how many statements a thread has still to execute once
  `stop_flag` is set; every step of the thread lowers it, whatever the others do.
* `Memory.destroyFrom` — the loop of `list_destroy`.
* `stops` — the threads all return, and `list_destroy` frees every node once.
-/

namespace OperatingSystems
namespace SharedList

open Threads Succession

/-! ### What is left to do -/

/-- The nodes that the current pass of a scan has still to lock. -/
def Thread.ahead (n : Nat) (t : Thread) : Nat :=
  n - t.visited.length

/-- The statements that a thread has still to execute when `stop_flag` is set. -/
def Thread.remaining (n : Nat) (t : Thread) : Nat :=
  match t.pc with
  | .scanStop => 1
  | .scanLockStart => 6 * t.ahead n + 7
  | .scanFirst => 6 * t.ahead n + 6
  | .scanUnlockEmpty => 5
  | .scanLockFirst => 6 * t.ahead n + 5
  -- A node of the pass takes six statements.
  | .scanTest => 6 * t.ahead n + 7
  | .scanUnlockPrev => 6 * t.ahead n + 6
  | .scanNext => 6 * t.ahead n + 5
  | .scanLockNext => 6 * t.ahead n + 4
  | .scanCompare => 6 * t.ahead n + 9
  | .scanAdvance => 6 * t.ahead n + 8
  | .scanUnlockCurrent => 6
  | .scanUnlockLast => 5
  | .scanCountLock => 4
  | .scanCount => 3
  | .scanCountUnlock => 2
  | .swapOuter => 1
  | .swapInner => 2
  | .swapLockPrev => 19
  | .swapCurrent => 18
  | .swapUnlockEmpty => 2
  | .swapLockCurrent => 17
  | .swapNext => 16
  | .swapUnlockEnd => 3
  | .swapUnlockEndPrev => 2
  | .swapLockNext => 15
  | .swapCheckPrev => 14
  | .swapCheckCurrent => 13
  | .swapNextNext => 12
  | .swapWritePrev => 11
  | .swapWriteCurrent => 10
  | .swapWriteNext => 9
  | .swapCountLock => 8
  | .swapCount => 7
  | .swapCountUnlock => 6
  | .swapUnlockNext => 5
  | .swapUnlockCurrent => 4
  | .swapUnlockPrev => 3
  | .skipUnlockCurrent => 5
  | .skipUnlockPrev => 4
  | .skipPrev => 3
  | .setStop => 1
  | .returned | .crashed => 0

theorem Thread.remaining_le (n : Nat) (t : Thread) : t.remaining n ≤ 6 * n + 19 := by
  have hahead : t.ahead n ≤ n := Nat.sub_le ..
  unfold remaining
  split <;> omega

/-- A pass has not locked more nodes than there are. -/
theorem Passed.length_le {l visited : List Nat} {comparisons a n : Nat}
    (h : Passed l visited comparisons a) (hperm : l.Perm (List.range (n + 1))) :
    visited.length ≤ n := by
  have hnodes : visited.length + 1 = (upto l a).length := h.nodes.length_eq
  have hupto : (upto l a).length ≤ l.length := List.length_take_le' ..
  have hlength : l.length = n + 1 := by rw [hperm.length_eq, List.length_range]
  omega

/-- Every statement brings a thread nearer to its end. -/
theorem Knows.remaining_lt {ι : Type*} {v : Version} {l : List Nat} {t : Thread} {n : Nat}
    {memory : Memory ι} {o : Op} (h : Knows l t) (hhead : l.head? = some 0)
    (hperm : l.Perm (List.range (n + 1))) (hstop : memory.stopFlag = true)
    (hop : t.op v = some o) : (t.resume v memory).remaining n < t.remaining n := by
  have hnodup : l.Nodup := hperm.nodup_iff.mpr List.nodup_range
  unfold Knows at h
  unfold Thread.op at hop
  unfold Thread.resume
  cases hpc : t.pc <;> simp only [hpc, reduceCtorEq] at h hop ⊢
  case scanFirst => cases memory.next t.prev <;> simp [Thread.remaining, Thread.ahead, hpc]
  case scanLockFirst =>
    obtain ⟨hsucc, hstart, hvisited, -⟩ := h
    have hone := (Passed.first hhead hnodup (hstart ▸ hsucc)).length_le hperm
    simp only [List.length_singleton] at hone
    simp only [Thread.remaining, Thread.ahead, hpc, hvisited, List.nil_append, List.length_nil,
      List.length_singleton]
    omega
  case scanTest => split <;> simp [Thread.remaining, Thread.ahead, hpc]
  case scanNext => cases memory.next t.current <;> simp [Thread.remaining, Thread.ahead, hpc]
  case scanLockNext =>
    -- The node that is locked now was still ahead.
    have hmore := (h.2.next hnodup h.1).length_le hperm
    simp only [List.length_append, List.length_singleton] at hmore
    simp only [Thread.remaining, Thread.ahead, hpc, List.length_append, List.length_singleton]
    omega
  case scanAdvance => cases t.advance v memory.next <;> simp [Thread.remaining, Thread.ahead, hpc]
  case swapCurrent => cases memory.next t.prev <;> simp [Thread.remaining, hpc]
  case swapNext =>
    cases memory.next t.current with
    | none => simp [Thread.remaining, hpc]
    | some a => cases hcoin : t.coins 0 <;> simp [Thread.remaining, hpc]
  case swapCheckPrev => split <;> simp [Thread.remaining, hpc]
  case swapCheckCurrent => split <;> simp [Thread.remaining, hpc]
  case skipPrev => cases memory.next t.prev <;> simp [Thread.remaining, hpc]
  all_goals simp [Thread.remaining, Thread.ahead, hpc, hstop]

/-! ### `list_destroy` -/

section Destroy

variable {ι : Type*} [DecidableEq ι]

/-- The loop of `list_destroy` from `cur`, with the nodes that it has freed; `none` when it
would destroy a lock that is held or use a node that is freed, and after `tests` tests of
`cur`. -/
def Memory.destroyFrom (memory : Memory ι) : Nat → List Nat → Option Nat → Option (List Nat)
  | 0, _, _ => none
  | _ + 1, freed, none => some freed
  | tests + 1, freed, some cur =>
      if (memory.locks (.node cur)).writer = none ∧ (memory.locks (.node cur)).readers = ∅ ∧
          cur ∉ freed then
        memory.destroyFrom tests (cur :: freed) (memory.next cur)
      else none

theorem destroyFrom_chain {memory : Memory ι} {l freed : List Nat} {start : Option Nat}
    (hlocks : ∀ a, memory.locks (.node a) = .unlocked) (hchain : Chain memory.next start l)
    (hfresh : ∀ a ∈ l, a ∉ freed) :
    memory.destroyFrom (l.length + 1) freed start = some (l.reverse ++ freed) := by
  induction l generalizing start freed with
  | nil =>
      obtain rfl := Chain.nil_iff.mp hchain
      rfl
  | cons a l ih =>
      have hnodup := hchain.nodup
      obtain ⟨rfl, hrest⟩ := hchain
      have hfresh' : ∀ b ∈ l, b ∉ a :: freed := by
        intro b hb hmem
        rcases List.mem_cons.mp hmem with rfl | hmem
        · exact (List.nodup_cons.mp hnodup).1 hb
        · exact hfresh b (List.mem_cons_of_mem a hb) hmem
      have hrun := ih hrest hfresh'
      rw [List.length_cons, Memory.destroyFrom, if_pos, hrun]
      · simp
      · exact ⟨by rw [hlocks]; rfl, by rw [hlocks]; rfl, hfresh a List.mem_cons_self⟩

end Destroy

/-! ### The end of the program -/

section End

variable {ι : Type*} [DecidableEq ι] {v : Version} {n : Nat}

theorem Thread.held_of_op_eq_none (t : Thread) (h : (threads v ι).op t = none) :
    (discipline v ι).held t = [] := by
  have hop : t.op v = none := h
  change t.held v = []
  unfold op at hop
  unfold held
  cases hpc : t.pc <;> simp only [hpc, reduceCtorEq] at hop ⊢

/-- Only the acquisition of a lock blocks. -/
theorem exec_eq_none {i : ι} {o : Op} {memory : Memory ι}
    (h : (threads v ι).exec i o memory = none) :
    ∃ l m, (discipline v ι).effect o = .acquire l m ∧
      ((discipline v ι).locks memory l).acquire i m = none := by
  cases o with
  | acquire l m => exact ⟨l, m, rfl, Option.map_eq_none_iff.mp h⟩
  | _ => cases h

theorem stopFlag_exec {i : ι} {o : Op} {memory memory' : Memory ι}
    (h : o.exec i memory = some memory') (hstop : memory.stopFlag = true) :
    memory'.stopFlag = true := by
  cases o with
  | acquire l m =>
      obtain ⟨l', -, rfl⟩ := Option.map_eq_some_iff.mp h
      exact hstop
  | setStop =>
      obtain rfl := Option.some.inj h
      rfl
  | _ =>
      obtain rfl := Option.some.inj h
      exact hstop

/-- Nobody clears `stop_flag`. -/
theorem stopFlag_of_reachable {s t : State ι (Memory ι) Thread}
    (hstop : s.shared.stopFlag = true) (ht : (threads v ι).Reachable (· = s) t) :
    t.shared.stopFlag = true := by
  refine ht.induction (I := fun t => t.shared.stopFlag = true) ?_ ?_
  · rintro t rfl
    exact hstop
  · intro t i o memory _ hset _ _ hexec
    exact stopFlag_exec hexec hset

/-- Once `stop_flag` is set, every thread executes at most `6 n + 19` statements, whatever
their order.  When none of them can go on they have all returned, all locks are free, and
`list_destroy` frees `l->start` and the `n` nodes, each of them once. -/
theorem stops {s s' : State ι (Memory ι) Thread} {schedule : List ι}
    (hs : (threads v ι).Reachable (Starts n) s) (hstop : s.shared.stopFlag = true)
    (hrun : (threads v ι).runIf (fun _ _ => true) s schedule = some s') :
    (∀ i, schedule.count i ≤ 6 * n + 19) ∧
      ((∀ i, (threads v ι).step s' i = none) → (∀ i, (s'.thread i).pc = .returned) ∧
        (∀ l, s'.shared.locks l = .unlocked) ∧
        ∃ tests freed, s'.shared.destroyFrom tests [] (some 0) = some freed ∧
          freed.Perm (List.range (n + 1))) := by
  have hstart : (threads v ι).Reachable (· = s) s := .start rfl
  refine ⟨fun i => ?_, fun hstuck => ?_⟩
  · have hlower : ∀ t o memory, (threads v ι).Reachable (· = s) t → (t.thread i).op v = some o →
        o.exec i t.shared = some memory →
        (((t.thread i).resume v t.shared).remaining n) < (t.thread i).remaining n := by
      intro t o memory ht hop _
      obtain ⟨l, h⟩ := ordered (hs.trans ht)
      exact (h.knows i).remaining_lt h.head h.perm (stopFlag_of_reachable hstop ht) hop
    have hcount : schedule.count i + (s'.thread i).remaining n ≤ (s.thread i).remaining n :=
      Program.count_runIf_le (fun _ _ _ => trivial) hlower hstart hrun
    have hle := Thread.remaining_le n (s.thread i)
    omega
  · have hs' := hs.trans (hstart.runIf (fun _ _ _ => trivial) hrun)
    obtain ⟨l, h⟩ := ordered hs'
    have hfree : ∀ S, ¬ (discipline v ι).Deadlocked s' S :=
      (discipline v ι).not_deadlocked h.agrees (rank l) _ (rank_le l)
        fun i lock m lock' m' hheld hwait => rank_lt (h.knows i) h.nodup hheld hwait
    have hreturned (i : ι) : (s'.thread i).op v = none :=
      LockDiscipline.returned_of_stuck h.agrees (fun _ _ _ => exec_eq_none)
        Thread.held_of_op_eq_none (fun i hi => absurd (Set.mem_univ i) hi) hfree
        (fun i _ => hstuck i) (Set.mem_univ i)
    have hunlocked := LockDiscipline.unlocked_of_held h.agrees
      fun i => Thread.held_of_op_eq_none _ (hreturned i)
    have hbroken (i : ι) : (s'.thread i).broken = [] :=
      Thread.broken_of_op (v := v) fun a next hop => by simp [hreturned i] at hop
    have hchain : Chain s'.shared.next l.head? l :=
      chain_of_succ h.nodup fun a _ => h.next a fun i => by simp [hbroken i]
    rw [h.head] at hchain
    refine ⟨fun i => ?_, hunlocked, _, _, destroyFrom_chain (fun a => hunlocked (.node a)) hchain
      fun _ _ => List.not_mem_nil, ?_⟩
    · have hop := hreturned i
      have hknows := h.knows i
      unfold Thread.op at hop
      unfold Knows at hknows
      cases hpc : (s'.thread i).pc <;> simp only [hpc, reduceCtorEq] at hop hknows ⊢
    · rw [List.append_nil]
      exact (List.reverse_perm l).trans h.perm

end End

/-- `main`, a thread that swaps whenever it can and a scan. -/
def stopping (n : Nat) : State (Fin 3) (Memory (Fin 3)) Thread :=
  ⟨.init n fun a => a, fun i =>
    if i = 0 then .mainThread else if i = 1 then .swapThread 0 fun _ => true
    else .increasingThread⟩

theorem starts_stopping (n : Nat) : Starts n (stopping n) := by
  refine ⟨⟨_, rfl⟩, fun i => ?_⟩
  by_cases hmain : i = 0
  · exact Or.inr (Or.inr (Or.inr (Or.inr (if_pos hmain))))
  · by_cases hswap : i = 1
    · refine Or.inr (Or.inr (Or.inr (Or.inl ⟨0, fun _ => true, ?_⟩)))
      exact (if_neg hmain).trans (if_pos hswap)
    · exact Or.inl ((if_neg hmain).trans (if_neg hswap))

/-- The swap and the pass that are under way when `stop_flag` is set are finished. -/
def finishing : List (Fin 3) :=
  List.replicate 14 1 ++ List.replicate 16 2

theorem stops_finishing :
    ∃ s ∈ (threads .mutex (Fin 3)).runIf (fun _ _ => true) (stopping 2)
        (2 :: List.replicate 7 1 ++ [0]),
      ∃ s' ∈ (threads .mutex (Fin 3)).runIf (fun _ _ => true) s finishing,
        (∀ i, finishing.count i ≤ 6 * 2 + 19) ∧ (∀ i, (s'.thread i).pc = .returned) ∧
          (∀ l, s'.shared.locks l = .unlocked) ∧
          ∃ tests freed, s'.shared.destroyFrom tests [] (some 0) = some freed ∧
            freed.Perm (List.range 3) := by
  obtain ⟨s, hrun, hs, hstop, hrest⟩ :=
    (Program.ReachableUnder.start (starts_stopping 2)).exists_runIf (fun _ _ _ => trivial)
      (fun s => s.shared.stopFlag = true ∧
        ((threads .mutex (Fin 3)).runIf (fun _ _ => true) s finishing).any (fun s' =>
          ∀ i, ((threads .mutex (Fin 3)).step s' i).isNone = true) = true)
      (by decide +kernel : ((threads .mutex (Fin 3)).runIf (fun _ _ => true) (stopping 2)
        (2 :: List.replicate 7 1 ++ [0])).any _ = true)
  obtain ⟨s', hrun', hstuck⟩ := (Option.any_eq_true _ _).mp hrest
  have hstuck : ∀ i, ((threads .mutex (Fin 3)).step s' i).isNone = true :=
    of_decide_eq_true hstuck
  obtain ⟨hlength, hend⟩ := stops hs hstop hrun'
  exact ⟨s, hrun, s', hrun', hlength,
    hend fun i => Option.isNone_iff_eq_none.mp (hstuck i)⟩

end SharedList
end OperatingSystems
