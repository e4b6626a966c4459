import OperatingSystems.Library.Succession
import OperatingSystems.SharedList.Holding

/-!
# The order of the shared list

The nodes always stand in one order, which a swap changes with the first of its three
writes.  A `next` pointer is the successor in this order unless the node belongs to a
swap that is between its writes, and such a node is locked for writing.

* `Knows` — what a thread knows about the order around the nodes that it has locked.
* `Ordered` — the invariant; `Ordered.advance` — it is kept by every step.
* `keepsNodes` — between the swaps, the chain from `l->start` has all the nodes.
-/

namespace OperatingSystems
namespace SharedList

open Threads Succession

/-- The thread has locked the node. -/
def Thread.Holds (v : Version) (t : Thread) (a : Nat) : Prop :=
  Lock.node a ∈ (t.held v).map Prod.fst

/-- The nodes that wait for the rest of a swap. -/
def Thread.broken (t : Thread) : List Nat :=
  match t.pc with
  | .swapWriteCurrent => [t.current, t.next]
  | .swapWriteNext => [t.next]
  | _ => []

/-- The current pass has locked the nodes up to `a` and compared them. -/
structure Passed (l : List Nat) (visited : List Nat) (comparisons a : Nat) : Prop where
  mem : a ∈ l
  nodes : (0 :: visited).Perm (upto l a)
  count : comparisons + 1 = visited.length

/-- The current pass has locked all nodes and compared them. -/
structure Complete (l : List Nat) (visited : List Nat) (comparisons : Nat) : Prop where
  nodes : (0 :: visited).Perm l
  count : comparisons = visited.length - 1

/-- What a thread knows about the order `l` of the nodes. -/
def Knows (l : List Nat) (t : Thread) : Prop :=
  match t.pc with
  | .scanLockStart | .scanFirst => t.prev = 0 ∧ t.visited = [] ∧ t.comparisons = 0
  | .scanLockFirst =>
      succ l t.prev = some t.current ∧ t.prev = 0 ∧ t.visited = [] ∧ t.comparisons = 0
  | .scanTest =>
      succ l t.prev = some t.current ∧ Passed l t.visited t.comparisons t.current
  | .scanUnlockPrev | .scanNext =>
      succ l t.current ≠ none ∧ Passed l t.visited t.comparisons t.current
  | .scanLockNext =>
      succ l t.current = some t.next ∧ Passed l t.visited t.comparisons t.current
  | .scanCompare =>
      succ l t.current = some t.next ∧ Passed l t.visited (t.comparisons + 1) t.next
  | .scanAdvance => succ l t.current = some t.next ∧ Passed l t.visited t.comparisons t.next
  | .scanUnlockEmpty | .scanUnlockCurrent | .scanUnlockLast =>
      Complete l t.visited t.comparisons
  | .scanCountLock | .scanCount | .scanCountUnlock => Complete l t.visited t.comparisons
  | .swapLockCurrent | .swapNext => succ l t.prev = some t.current
  | .swapLockNext | .swapCheckPrev | .swapCheckCurrent | .swapNextNext =>
      succ l t.prev = some t.current ∧ succ l t.current = some t.next
  | .swapWritePrev =>
      succ l t.prev = some t.current ∧ succ l t.current = some t.next ∧ t.nextNext = succ l t.next
  | .swapWriteCurrent => succ l t.current = t.nextNext ∧ succ l t.next = some t.current
  | .swapWriteNext => succ l t.next = some t.current
  | .crashed => False
  | _ => True

theorem upto_head {l : List Nat} (hhead : l.head? = some 0) : upto l 0 = [0] := by
  obtain ⟨l, rfl⟩ := List.head?_eq_some_iff.mp hhead
  exact upto_append_cons (u := []) (by simp)

/-- The pass has locked the node after `l->start`. -/
theorem Passed.first {l : List Nat} {a : Nat} (hhead : l.head? = some 0) (hnodup : l.Nodup)
    (ha : succ l 0 = some a) : Passed l [a] 0 a := by
  refine ⟨mem_of_succ_right ha hnodup, ?_, rfl⟩
  rw [upto_succ ha hnodup, upto_head hhead]
  exact List.Perm.refl _

/-- The pass has locked one more node. -/
theorem Passed.next {l visited : List Nat} {comparisons a b : Nat}
    (h : Passed l visited comparisons a) (hnodup : l.Nodup) (hb : succ l a = some b) :
    Passed l (visited ++ [b]) (comparisons + 1) b := by
  refine ⟨mem_of_succ_right hb hnodup, ?_, by simp [h.count]⟩
  rw [upto_succ hb hnodup, ← List.cons_append]
  exact h.nodes.append_right [b]

/-- The pass is at the last node. -/
theorem Passed.complete {l visited : List Nat} {comparisons a : Nat}
    (h : Passed l visited comparisons a) (hnodup : l.Nodup) (ha : succ l a = none) :
    Complete l visited comparisons := by
  refine ⟨?_, by have := h.count; omega⟩
  rw [← upto_of_succ_none h.mem hnodup ha]
  exact h.nodes

/-- A thread keeps what it knows, apart from the write that changes the order. -/
theorem Knows.own {ι : Type*} {v : Version} {l : List Nat} {t : Thread} {memory : Memory ι}
    (h : Knows l t) (hhead : l.head? = some 0) (hnodup : l.Nodup)
    (hread : ∀ a, t.Holds v a → t.broken = [] → memory.next a = succ l a)
    (hpc : t.pc ≠ .swapWritePrev) : Knows l (t.resume v memory) := by
  -- Every pointer that is read under a lock is a successor.
  have hprev : t.Holds v t.prev → t.broken = [] → memory.next t.prev = succ l t.prev := hread _
  have hcurrent : t.Holds v t.current → t.broken = [] → memory.next t.current = succ l t.current :=
    hread _
  have hnext : t.Holds v t.next → t.broken = [] → memory.next t.next = succ l t.next := hread _
  simp only [Thread.Holds, Thread.held, Thread.broken] at hprev hcurrent hnext
  unfold Knows at h
  unfold Thread.resume
  cases ht : t.pc <;> simp only [ht] at h hprev hcurrent hnext ⊢
  case scanFirst =>
    replace hprev := hprev (by simp) trivial
    obtain ⟨hstart, hvisited, hcomparisons⟩ := h
    cases ha : memory.next t.prev with
    | none =>
        dsimp only
        rw [ha, hstart] at hprev
        have hmem : 0 ∈ l := List.mem_of_head? hhead
        refine ⟨?_, by simp [hvisited, hcomparisons]⟩
        rw [← upto_of_succ_none hmem hnodup hprev.symm, upto_head hhead, hvisited]
    | some a =>
        dsimp only
        exact ⟨by rw [← hprev, ha], hstart, hvisited, hcomparisons⟩
  case scanLockFirst =>
    obtain ⟨hsucc, hstart, hvisited, hcomparisons⟩ := h
    refine ⟨hsucc, ?_⟩
    rw [hvisited, hcomparisons]
    exact .first hhead hnodup (hstart ▸ hsucc)
  case scanTest =>
    replace hcurrent := hcurrent (by simp) trivial
    by_cases hend : memory.next t.current = none
    · simp only [hend, if_true]
      exact h.2.complete hnodup (hcurrent.symm.trans hend)
    · simp only [hend, if_false]
      exact ⟨hcurrent ▸ hend, h.2⟩
  case scanNext =>
    replace hcurrent := hcurrent (by simp) trivial
    cases ha : memory.next t.current with
    | none => exact absurd (hcurrent.symm.trans ha) h.1
    | some a =>
        dsimp only
        exact ⟨by rw [← hcurrent, ha], h.2⟩
  case scanLockNext => exact ⟨h.1, h.2.next hnodup h.1⟩
  case scanAdvance =>
    replace hcurrent := hcurrent (by simp) trivial
    have hadvance : t.advance v memory.next = some t.next := by
      cases v <;> simp [Thread.advance, hcurrent, h.1]
    rw [hadvance]
    exact h
  case swapCurrent =>
    replace hprev := hprev (by simp) trivial
    cases ha : memory.next t.prev with
    | none => trivial
    | some a => exact hprev.symm.trans ha
  case swapNext =>
    replace hcurrent := hcurrent (by simp) trivial
    cases ha : memory.next t.current with
    | none => trivial
    | some a =>
        cases t.coins 0 with
        | false => trivial
        | true => exact ⟨h, hcurrent.symm.trans ha⟩
  case swapCheckPrev => split <;> [exact h; trivial]
  case swapCheckCurrent => split <;> [exact h; trivial]
  case swapNextNext =>
    replace hnext := hnext (by simp) trivial
    exact ⟨h.1, h.2, hnext⟩
  case swapWritePrev => exact absurd ht hpc
  case swapWriteCurrent => exact h.2
  case scanStop =>
    cases memory.stopFlag with
    | true => trivial
    | false => exact ⟨rfl, rfl, rfl⟩
  case swapOuter => split <;> trivial
  case swapInner => split <;> trivial
  case skipPrev => cases memory.next t.prev <;> trivial
  case returned => simp [Knows, ht]
  all_goals first | exact h | trivial

/-- A thread keeps what it knows when the order changes away from its locks. -/
theorem Knows.frame {v : Version} {l l' : List Nat} {t : Thread} (h : Knows l t)
    (hperm : l'.Perm l) (hsucc : ∀ a, t.Holds v a → succ l' a = succ l a)
    (hupto : ∀ a ∈ l, t.Holds v a → (upto l' a).Perm (upto l a)) : Knows l' t := by
  have hprev : t.Holds v t.prev → succ l' t.prev = succ l t.prev := hsucc _
  have hcurrent : t.Holds v t.current → succ l' t.current = succ l t.current := hsucc _
  have hnext : t.Holds v t.next → succ l' t.next = succ l t.next := hsucc _
  have hpassed : ∀ {visited comparisons a}, t.Holds v a → Passed l visited comparisons a →
      Passed l' visited comparisons a := fun ha h =>
    ⟨hperm.mem_iff.mpr h.mem, h.nodes.trans (hupto _ h.mem ha).symm, h.count⟩
  have hcomplete : ∀ {visited comparisons}, Complete l visited comparisons →
      Complete l' visited comparisons := fun h => ⟨h.nodes.trans hperm.symm, h.count⟩
  simp only [Thread.Holds, Thread.held] at hprev hcurrent hnext hpassed
  unfold Knows at h ⊢
  cases ht : t.pc <;> simp only [ht] at h hprev hcurrent hnext hpassed ⊢
  case scanLockFirst => exact ⟨(hprev (by simp)).trans h.1, h.2⟩
  case scanTest => exact ⟨(hprev (by simp)).trans h.1, hpassed (by simp) h.2⟩
  case scanUnlockPrev => exact ⟨hcurrent (by simp) ▸ h.1, hpassed (by simp) h.2⟩
  case scanNext => exact ⟨hcurrent (by simp) ▸ h.1, hpassed (by simp) h.2⟩
  case scanLockNext => exact ⟨(hcurrent (by simp)).trans h.1, hpassed (by simp) h.2⟩
  case scanCompare => exact ⟨(hcurrent (by simp)).trans h.1, hpassed (by simp) h.2⟩
  case scanAdvance => exact ⟨(hcurrent (by simp)).trans h.1, hpassed (by simp) h.2⟩
  case swapLockCurrent => exact (hprev (by simp)).trans h
  case swapNext => exact (hprev (by simp)).trans h
  case swapWritePrev =>
    exact ⟨(hprev (by simp)).trans h.1, (hcurrent (by simp)).trans h.2.1,
      h.2.2.trans (hnext (by simp)).symm⟩
  case swapWriteCurrent => exact ⟨(hcurrent (by simp)).trans h.1, (hnext (by simp)).trans h.2⟩
  case swapWriteNext => exact (hnext (by simp)).trans h
  case swapLockNext => exact ⟨(hprev (by simp)).trans h.1, (hcurrent (by simp)).trans h.2⟩
  case swapCheckPrev => exact ⟨(hprev (by simp)).trans h.1, (hcurrent (by simp)).trans h.2⟩
  case swapCheckCurrent => exact ⟨(hprev (by simp)).trans h.1, (hcurrent (by simp)).trans h.2⟩
  case swapNextNext => exact ⟨(hprev (by simp)).trans h.1, (hcurrent (by simp)).trans h.2⟩
  all_goals first | exact h | exact hcomplete h

theorem Thread.held_of_broken {v : Version} {t : Thread} {a : Nat} (h : a ∈ t.broken) :
    (Lock.node a, Mode.write) ∈ t.held v := by
  unfold broken at h
  split at h <;> simp_all [held]
  omega

section Reachable

variable {ι : Type*} [DecidableEq ι] {v : Version} {n : Nat}

/-- A step that stores no pointer. -/
theorem Op.exec_next {i : ι} {o : Op} {memory memory' : Memory ι}
    (hexec : o.exec i memory = some memory') (ho : ∀ a next, o ≠ .store a next) :
    memory'.next = memory.next := by
  cases o with
  | store a next => exact absurd rfl (ho a next)
  | acquire l m =>
      obtain ⟨l', -, rfl⟩ := Option.map_eq_some_iff.mp hexec
      rfl
  | _ =>
      obtain rfl := Option.some.inj hexec
      rfl

/-- The statements of a swap that write, and the write. -/
theorem Thread.op_store {t : Thread} {a : Nat} {next : Option Nat}
    (hop : t.op v = some (.store a next)) :
    (t.pc = .swapWritePrev ∧ a = t.prev ∧ next = some t.next) ∨
      (t.pc = .swapWriteCurrent ∧ a = t.current ∧ next = t.nextNext) ∨
      (t.pc = .swapWriteNext ∧ a = t.next ∧ next = some t.current) := by
  unfold op at hop
  split at hop <;> simp_all

/-- A swap is between its writes only while it stores. -/
theorem Thread.broken_of_op {t : Thread} (h : ∀ a next, t.op v ≠ some (.store a next)) :
    t.broken = [] := by
  unfold op at h
  unfold broken
  split
  · next hpc =>
    simp only [hpc] at h
    exact absurd rfl (h _ _)
  · next hpc =>
    simp only [hpc] at h
    exact absurd rfl (h _ _)
  · rfl

/-- The nodes stand in the order `l`. -/
structure Ordered (v : Version) (n : Nat) (s : State ι (Memory ι) Thread) (l : List Nat) :
    Prop where
  agrees : ∀ i, (discipline v ι).Agrees i s.shared (s.thread i)
  exclusive : ∀ lock, (s.shared.locks lock).Exclusive
  perm : l.Perm (List.range (n + 1))
  head : l.head? = some 0
  next : ∀ a, (∀ i, a ∉ (s.thread i).broken) → s.shared.next a = succ l a
  knows : ∀ i, Knows l (s.thread i)

namespace Ordered

variable {s : State ι (Memory ι) Thread} {l : List Nat} {i j : ι} {a : Nat}

theorem nodup (h : Ordered v n s l) : l.Nodup :=
  h.perm.nodup_iff.mpr List.nodup_range

/-- Nobody else has locked a node that is locked for writing. -/
theorem holder_unique (h : Ordered v n s l)
    (hi : (Lock.node a, Mode.write) ∈ (s.thread i).held v) (hj : (s.thread j).Holds v a) : j = i := by
  obtain ⟨⟨_, m⟩, hm, rfl⟩ := List.mem_map.mp hj
  exact (h.exclusive (.node a)).holder_unique (((h.agrees i).heldBy_iff _ _).mpr hi)
    (((h.agrees j).heldBy_iff _ _).mpr hm)

/-- A thread reads the successor of a node that it has locked. -/
theorem read (h : Ordered v n s l) (ha : (s.thread i).Holds v a)
    (hbroken : (s.thread i).broken = []) : s.shared.next a = succ l a := by
  refine h.next a fun j hj => ?_
  obtain rfl := h.holder_unique (Thread.held_of_broken hj) ha
  simp [hbroken] at hj

theorem ready (h : Ordered v n s l) (i : ι) : Ready v s.shared (s.thread i) := by
  have hknows := h.knows i
  have hread := fun a => h.read (i := i) (a := a)
  have hcurrent := hread (s.thread i).current
  simp only [Thread.Holds, Thread.held, Thread.broken] at hcurrent
  unfold Knows at hknows
  refine ⟨fun hpc => ?_, fun hpc => ?_, fun hpc => ?_, fun hpc => ?_⟩ <;>
    simp only [hpc] at hknows hcurrent
  · exact succ_ne hknows.1 h.nodup
  · rw [hcurrent (by simp) trivial]
    exact hknows.1
  · exact succ_ne hknows.1 h.nodup
  · replace hcurrent := hcurrent (by simp) trivial
    cases v <;> simp [Thread.advance, hcurrent, hknows.1]

/-- A step that gives the threads the order `l'`. -/
theorem of_step {o : Op} {memory : Memory ι} {l' : List Nat} (h : Ordered v n s l)
    (hop : (s.thread i).op v = some o) (hexec : o.exec i s.shared = some memory)
    (hperm : l'.Perm l) (hhead : l'.head? = l.head?)
    (hnext : ∀ a, a ∉ ((s.thread i).resume v s.shared).broken →
      (∀ j ≠ i, a ∉ (s.thread j).broken) → memory.next a = succ l' a)
    (hown : Knows l' ((s.thread i).resume v s.shared))
    (hother : ∀ j ≠ i, Knows l' (s.thread j)) :
    Ordered v n (s.advance i memory ((s.thread i).resume v s.shared)) l' := by
  refine ⟨(discipline v ι).agrees_advance h.agrees (h.ready i) hop hexec,
    (discipline v ι).exclusive h.exclusive hexec, hperm.trans h.perm, hhead.trans h.head,
    fun a ha => hnext a ?_ fun j hji => ?_, fun j => ?_⟩
  · simpa using ha i
  · simpa [State.advance_thread_of_ne _ _ _ hji] using ha j
  · by_cases hji : j = i
    · subst j
      rwa [State.advance_thread_self]
    · rw [State.advance_thread_of_ne _ _ _ hji]
      exact hother j hji

/-- A step that stores no pointer keeps the order. -/
theorem quiet {o : Op} {memory : Memory ι} (h : Ordered v n s l)
    (hop : (s.thread i).op v = some o) (hexec : o.exec i s.shared = some memory)
    (ho : ∀ a next, o ≠ .store a next) :
    Ordered v n (s.advance i memory ((s.thread i).resume v s.shared)) l := by
  have hstore : ∀ a next, (s.thread i).op v ≠ some (.store a next) := fun a next hstore =>
    ho a next (Option.some.inj (hop.symm.trans hstore))
  have hbroken := Thread.broken_of_op hstore
  refine h.of_step hop hexec (.refl l) rfl (fun a _ hothers => ?_) ?_ fun j _ => h.knows j
  · rw [Op.exec_next hexec ho]
    refine h.next a fun j => ?_
    by_cases hji : j = i
    · simp [hji, hbroken]
    · exact hothers j hji
  · refine (h.knows i).own h.head h.nodup (fun a ha _ => h.read ha hbroken) fun hpc => ?_
    exact hstore _ _ (by rw [Thread.op, hpc])

/-- The first write of a swap: two nodes change places. -/
theorem writePrev {memory : Memory ι} (h : Ordered v n s l) (hpc : (s.thread i).pc = .swapWritePrev)
    (hexec : (Op.store (s.thread i).prev (some (s.thread i).next)).exec i s.shared = some memory) :
    ∃ l', Ordered v n (s.advance i memory ((s.thread i).resume v s.shared)) l' := by
  have hknows := h.knows i
  simp only [Knows, hpc] at hknows
  obtain ⟨hprev, hcurrent, hnextNext⟩ := hknows
  obtain ⟨l', hl'⟩ := exists_exchanged h.nodup hprev hcurrent
  have hresume : (s.thread i).resume v s.shared = { s.thread i with pc := .swapWriteCurrent } := by
    simp only [Thread.resume, hpc]
  -- Nobody else has locked one of the three nodes.
  have haway : ∀ j ≠ i, ∀ a, (s.thread j).Holds v a →
      a ≠ (s.thread i).prev ∧ a ≠ (s.thread i).current ∧ a ≠ (s.thread i).next := by
    intro j hji a ha
    refine ⟨?_, ?_, ?_⟩ <;> rintro rfl <;>
      exact hji (h.holder_unique (by simp [Thread.held, hpc]) ha)
  refine ⟨l', h.of_step (by rw [Thread.op, hpc]) hexec hl'.perm hl'.head? (fun a ha hothers => ?_) ?_
    fun j hji => ?_⟩
  · obtain rfl := Option.some.inj hexec
    rw [hresume] at ha
    simp only [Thread.broken, List.mem_cons, List.not_mem_nil, or_false, not_or] at ha
    change Function.update s.shared.next (s.thread i).prev _ a = _
    by_cases hap : a = (s.thread i).prev
    · rw [hap, Function.update_self, hl'.succ_first h.nodup]
    · rw [Function.update_of_ne hap, hl'.succ_of_ne h.nodup hap ha.1 ha.2]
      refine h.next a fun j => ?_
      by_cases hji : j = i
      · simp [hji, Thread.broken, hpc]
      · exact hothers j hji
  · rw [hresume]
    exact ⟨(hl'.succ_third h.nodup).trans hnextNext.symm, hl'.succ_second h.nodup⟩
  · refine (h.knows j).frame (v := v) hl'.perm (fun a ha => ?_) fun a hmem ha => ?_
    · obtain ⟨hap, hac, hax⟩ := haway j hji a ha
      exact hl'.succ_of_ne h.nodup hap hac hax
    · obtain ⟨-, hac, hax⟩ := haway j hji a ha
      exact hl'.upto_perm h.nodup hmem hac hax

/-- The two other writes bring one more pointer in line with the order. -/
theorem writeRest {a : Nat} {next : Option Nat} {memory : Memory ι} (h : Ordered v n s l)
    (hop : (s.thread i).op v = some (.store a next)) (hpc : (s.thread i).pc ≠ .swapWritePrev)
    (hexec : (Op.store a next).exec i s.shared = some memory) (hnext : next = succ l a)
    (hbroken : ∀ b, b ∉ ((s.thread i).resume v s.shared).broken → b ≠ a →
      b ∉ (s.thread i).broken) :
    Ordered v n (s.advance i memory ((s.thread i).resume v s.shared)) l := by
  refine h.of_step hop hexec (.refl l) rfl (fun b hb hothers => ?_) ?_ fun j _ => h.knows j
  · obtain rfl := Option.some.inj hexec
    change Function.update s.shared.next a next b = _
    by_cases hba : b = a
    · rw [hba, Function.update_self, hnext]
    · rw [Function.update_of_ne hba]
      refine h.next b fun j => ?_
      by_cases hji : j = i
      · rw [hji]
        exact hbroken b hb hba
      · exact hothers j hji
  · exact (h.knows i).own h.head h.nodup (fun a ha hbroken => h.read ha hbroken) hpc

/-- Every step keeps the nodes in an order. -/
theorem advance {o : Op} {memory : Memory ι} (h : Ordered v n s l)
    (hop : (s.thread i).op v = some o) (hexec : o.exec i s.shared = some memory) :
    ∃ l', Ordered v n (s.advance i memory ((s.thread i).resume v s.shared)) l' := by
  by_cases ho : ∀ a next, o ≠ .store a next
  · exact ⟨l, h.quiet hop hexec ho⟩
  · obtain ⟨a, next, rfl⟩ : ∃ a next, o = .store a next := by simpa using ho
    have hknows := h.knows i
    obtain ⟨hpc, rfl, rfl⟩ | ⟨hpc, rfl, rfl⟩ | ⟨hpc, rfl, rfl⟩ := Thread.op_store hop
    · exact h.writePrev hpc hexec
    · simp only [Knows, hpc] at hknows
      refine ⟨l, h.writeRest hop (by simp [hpc]) hexec hknows.1.symm fun b hb hne => ?_⟩
      simp only [Thread.resume, hpc, Thread.broken, List.mem_singleton] at hb
      simp [Thread.broken, hpc, hb, hne]
    · simp only [Knows, hpc] at hknows
      refine ⟨l, h.writeRest hop (by simp [hpc]) hexec hknows.symm fun b _ hne => ?_⟩
      simp [Thread.broken, hpc, hne]

end Ordered

theorem listInit_eq (n a : Nat) : listInit n a = if a < n then some (a + 1) else none := by
  induction n with
  | zero => rfl
  | succ n ih =>
      rw [listInit]
      by_cases ha : a = n
      · simp [ha]
      · rw [Function.update_of_ne ha, ih]
        have : a < n ↔ a < n + 1 := by omega
        simp only [this]

/-- `list_init` leaves the nodes in the order of their allocation. -/
theorem listInit_succ (n a : Nat) : listInit n a = succ (List.range (n + 1)) a := by
  rw [listInit_eq]
  by_cases ha : a < n + 1
  · have hidx : (List.range (n + 1)).idxOf a = a := by
      have hrange : (List.range (n + 1)).Nodup := List.nodup_range
      have hidx := hrange.idxOf_getElem a (by simpa using ha)
      rwa [List.getElem_range] at hidx
    rw [succ, hidx]
    by_cases han : a < n <;> simp [han]
  · rw [if_neg (by omega), succ_of_not_mem (by simpa using ha)]

theorem Ordered.start {s : State ι (Memory ι) Thread} (hs : Starts n s) :
    Ordered v n s (List.range (n + 1)) := by
  obtain ⟨⟨strlen, hshared⟩, hthread⟩ := hs
  have hthread' : ∀ i, (s.thread i).held v = [] ∧ (s.thread i).broken = [] ∧
      Knows (List.range (n + 1)) (s.thread i) := by
    intro i
    obtain hi | hi | hi | ⟨threadId, coins, hi⟩ | hi := hthread i <;> rw [hi] <;>
      exact ⟨rfl, rfl, trivial⟩
  refine ⟨fun i => (discipline v ι).agrees_start (fun lock => ?_) (hthread' i).1, fun lock => ?_,
    .refl _, by simp [List.range_succ_eq_map], fun a _ => ?_, fun i => (hthread' i).2.2⟩
  · rw [hshared]
    rfl
  · rw [hshared]
    exact RwLock.exclusive_unlocked
  · rw [hshared]
    exact listInit_succ n a

/-- In every reachable state the nodes stand in an order. -/
theorem ordered {s : State ι (Memory ι) Thread} (hs : (threads v ι).Reachable (Starts n) s) :
    ∃ l, Ordered v n s l := by
  refine hs.induction (I := fun s => ∃ l, Ordered v n s l) (fun s hs => ⟨_, .start hs⟩) ?_
  rintro s i o memory - ⟨l, h⟩ - hop hexec
  exact h.advance hop hexec

/-- A thread between the first and the last of the three writes of a swap. -/
def Thread.midSwap (t : Thread) : Prop :=
  t.pc = .swapWriteCurrent ∨ t.pc = .swapWriteNext

instance (t : Thread) : Decidable t.midSwap :=
  inferInstanceAs (Decidable (_ ∨ _))

/-- While no swap is between its writes, the chain from `l->start` is acyclic and visits
the `n` nodes of `list_init`, each of them once. -/
theorem keepsNodes {s : State ι (Memory ι) Thread}
    (hs : (threads v ι).Reachable (Starts n) s) (hquiet : ∀ i, ¬ (s.thread i).midSwap) :
    ∃ l, Chain s.shared.next (some 0) (0 :: l) ∧ l.Perm (List.range' 1 n) := by
  obtain ⟨l, h⟩ := ordered hs
  have hbroken : ∀ i, (s.thread i).broken = [] := by
    intro i
    obtain ⟨hcurrent, hnext⟩ := not_or.mp (hquiet i)
    unfold Thread.broken
    split
    · next hpc => exact absurd hpc hcurrent
    · next hpc => exact absurd hpc hnext
    · rfl
  have hchain : Chain s.shared.next l.head? l :=
    chain_of_succ h.nodup fun a _ => h.next a fun i => by simp [hbroken i]
  obtain ⟨l, rfl⟩ := List.head?_eq_some_iff.mp h.head
  refine ⟨l, hchain, ?_⟩
  have hperm := h.perm
  rw [List.range_eq_range', List.range'_succ] at hperm
  exact hperm.cons_inv

end Reachable

/-- Two threads, one of which swaps whenever it can. -/
def swapping (n : Nat) : State (Fin 2) (Memory (Fin 2)) Thread :=
  ⟨.init n fun a => a, fun i =>
    if i = 0 then .swapThread 0 fun _ => true else .increasingThread⟩

theorem starts_swapping (n : Nat) : Starts n (swapping n) := by
  refine ⟨⟨_, rfl⟩, fun i => ?_⟩
  by_cases hi : i = 0
  · exact Or.inr (Or.inr (Or.inr (Or.inl ⟨0, _, if_pos hi⟩)))
  · exact Or.inl (if_neg hi)

/-- The two nodes of a list have just changed places. -/
theorem keepsNodes_swapped :
    ∃ s ∈ (threads .rwlock (Fin 2)).runIf (fun _ _ => true) (swapping 2) (List.replicate 13 0),
      s.shared.next 0 = some 2 ∧
        ∃ l, Chain s.shared.next (some 0) (0 :: l) ∧ l.Perm (List.range' 1 2) := by
  obtain ⟨s, hrun, hs, hswapped, hquiet⟩ :=
    (Program.ReachableUnder.start (starts_swapping 2)).exists_runIf (fun _ _ _ => trivial)
      (fun s => s.shared.next 0 = some 2 ∧ ∀ i, ¬ (s.thread i).midSwap)
      (by decide +kernel : ((threads .rwlock (Fin 2)).runIf (fun _ _ => true) (swapping 2)
        (List.replicate 13 0)).any _ = true)
  exact ⟨s, hrun, hswapped, keepsNodes hs hquiet⟩

end SharedList
end OperatingSystems
