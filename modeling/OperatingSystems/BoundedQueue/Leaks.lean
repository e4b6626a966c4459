import OperatingSystems.BoundedQueue.Delivery
import OperatingSystems.Library.Ledger

/-!
# The nodes that `queue_add` allocates

Only `spinloc` frees the node when the queue is full.

* `Leaks` — which nodes are lost: allocated, no part of the queue and used by no thread;
  `Leaks.advance` — every step keeps this.
* `Leaks.mallocs_eq` — the balance between the calls.
* `Refusing` — a queue whose `max_count` is negative accepts no call of `queue_add`.
* `nodeBalance` — when every node is in the queue or has been freed.
-/

namespace OperatingSystems
namespace BoundedQueue

open Threads Fifo

/-- A queue with any `max_count`, which any number of threads are about to use. -/
def StartsWith {ι κ : Type*} (maxCount : Int) (s : State ι (Memory ι) (Thread κ)) : Prop :=
  s.shared = .init maxCount ∧ ∀ i, ∃ client addresses, s.thread i = .start client addresses

/-- No `queue_add` and no `queue_get` is in progress. -/
def Quiet {ι κ : Type*} (s : State ι (Memory ι) (Thread κ)) : Prop :=
  ∀ i, (s.thread i).pc.kind = .idle ∨ (s.thread i).pc.kind = .stats

/-- Thread `i` is about to find the queue full. -/
def FindsFull {ι κ : Type*} (s : State ι (Memory ι) (Thread κ)) (i : ι) : Prop :=
  (s.thread i).pc = .addFull ∧ s.shared.queue.count = s.shared.queue.maxCount

instance {ι κ : Type*} (s : State ι (Memory ι) (Thread κ)) (i : ι) : Decidable (FindsFull s i) :=
  inferInstanceAs (Decidable (_ ∧ _))

/-- A `queue_add` that has found the queue full. -/
def failedAdd {ι : Type*} (e : ι × Event Int) : Bool :=
  match e.2 with
  | .add _ false => true
  | _ => false

namespace Thread

variable {ι κ : Type*} {v : Version} {C : Client κ} {memory : Memory ι} {t : Thread κ} {o : Op}
  {a : Nat} {val : Int}

/-- What becomes of the node of a thread. -/
theorem owned_resume (hop : t.op C = some o) (ha : t.owned = some a) :
    (t.resume v C memory).owned = some a ∨ o = .free (some a) ∨
      (∃ val, o = .setFirst a val ∨ o = .link a val) ∨
      (v ≠ .spinloc ∧ o = .unlock (some (.add t.val false))) ∨
      (t.resume v C memory).pc = .aborted := by
  unfold op at hop
  unfold owned at ha
  unfold resume
  cases hpc : t.pc <;> simp only [hpc, Option.some.injEq, reduceCtorEq] at hop <;>
    simp [hpc, Pc.carriesNew, Pc.carriesTmp] at ha <;> try subst hop
  case load u => cases u <;> simp_all [owned, Pc.carriesNew, Pc.carriesTmp]
  case store u => cases u <;> cases v <;> simp_all [owned, Pc.carriesNew, Pc.carriesTmp, Update.next]
  all_goals
    dsimp only
    repeat' split
    all_goals simp_all [owned, ret, Pc.carriesNew, Pc.carriesTmp]

theorem op_malloc {p : Option Nat} (hop : t.op C = some (.malloc p)) :
    t.pc = .addMalloc ∧ t.addresses 0 = p := by
  unfold op at hop
  split at hop <;> simp_all

theorem owned_malloc (hop : t.op C = some (.malloc (some a))) :
    (t.resume v C memory).owned = some a := by
  obtain ⟨hpc, haddress⟩ := op_malloc hop
  simp [resume, hpc, haddress, owned, Pc.carriesNew]

theorem owned_unlink (hop : t.op C = some (.unlink val)) :
    (t.resume v C memory).owned = t.tmp := by
  have hpc := (op_unlink hop).1
  simp [resume, hpc, owned, Pc.carriesNew, Pc.carriesTmp]

/-- A thread outside `queue_add` and `queue_get` has no node. -/
theorem owned_of_kind (h : t.pc.kind = .idle ∨ t.pc.kind = .stats) : t.owned = none := by
  unfold owned
  cases hpc : t.pc <;> simp [hpc, Pc.kind] at h <;> simp [Pc.carriesNew, Pc.carriesTmp]
  case load u => cases u <;> simp [Update.kind] at h
  case store u => cases u <;> simp [Update.kind] at h

/-- A thread goes on to report that the queue is full only after it has found it full. -/
theorem findsFull_of_resume (hop : t.op C = some o)
    (hpc : (t.resume v C memory).pc = .addUnlockFull) :
    v ≠ .conditionalVarible ∧ t.pc = .addFull ∧ memory.queue.count = memory.queue.maxCount := by
  unfold op at hop
  unfold resume at hpc
  cases hat : t.pc <;> simp only [hat, reduceCtorEq] at hop hpc
  case call =>
    obtain ⟨call, hcall, -⟩ := Option.map_eq_some_iff.mp hop
    rw [hcall] at hpc
    cases call <;> cases v <;> simp at hpc
  case addMalloc => cases h : t.addresses 0 <;> simp [h] at hpc
  case addAssert => split at hpc <;> cases v <;> simp at hpc
  case store u => cases u <;> cases v <;> simp [Update.next] at hpc
  all_goals
    repeat' split at hpc
    all_goals simp_all [ret, retStats]

end Thread

section Leaks

variable {ι κ : Type*} {v : Version} {C : Client κ} {maxCount : Nat} {l : List Nat} {o : Op}

/-- What an access does to the allocated nodes. -/
theorem Op.exec_ledger [DecidableEq ι] {i : ι} {memory memory' : Memory ι}
    (hexec : o.exec i memory = some memory') :
    (∃ a, o = .malloc (some a) ∧ memory.live a = false ∧
        memory'.live = Function.update memory.live a true ∧
        memory'.mallocs = memory.mallocs + 1 ∧ memory'.frees = memory.frees) ∨
      (∃ a, o = .free (some a) ∧ memory'.live = Function.update memory.live a false ∧
        memory'.mallocs = memory.mallocs ∧ memory'.frees = memory.frees + 1) ∨
      ((∀ a, o ≠ .free (some a)) ∧ memory'.live = memory.live ∧
        memory'.mallocs = memory.mallocs ∧ memory'.frees = memory.frees) := by
  cases o
  case malloc p =>
    cases p with
    | none => exact Option.some.inj hexec ▸ .inr (.inr ⟨by simp, rfl, rfl, rfl⟩)
    | some a =>
        obtain ⟨ha, hexec⟩ := Option.ite_none_left_eq_some.mp hexec
        have hdead := Bool.eq_false_iff.mpr ha
        exact Option.some.inj hexec ▸ .inl ⟨a, rfl, hdead, rfl, rfl, rfl⟩
  case free p =>
    cases p with
    | none => exact Option.some.inj hexec ▸ .inr (.inr ⟨by simp, rfl, rfl, rfl⟩)
    | some a => exact Option.some.inj hexec ▸ .inr (.inl ⟨a, rfl, rfl, rfl, rfl⟩)
  case lock =>
    have hexec := (Option.ite_none_left_eq_some.mp hexec).2
    exact Option.some.inj hexec ▸ .inr (.inr ⟨by simp, rfl, rfl, rfl⟩)
  case unlock failed =>
    cases failed <;> exact Option.some.inj hexec ▸ .inr (.inr ⟨by simp, rfl, rfl, rfl⟩)
  all_goals
    simp only [exec] at hexec
    repeat' split at hexec
    all_goals exact Option.some.inj hexec ▸ .inr (.inr ⟨by simp, rfl, rfl, rfl⟩)

/-- A node that is allocated after an access was allocated before or is new. -/
theorem Op.live_of_exec [DecidableEq ι] {i : ι} {memory memory' : Memory ι} {a : Nat}
    (hexec : o.exec i memory = some memory') (ha : memory'.live a = true) :
    (memory.live a = true ∧ o ≠ .free (some a)) ∨ o = .malloc (some a) := by
  rcases exec_ledger hexec with ⟨b, rfl, -, hlive, -⟩ | ⟨b, rfl, hlive, -⟩ | ⟨hne, hlive, -⟩
  · by_cases hab : a = b
    · exact .inr (by rw [hab])
    · exact .inl ⟨by simpa [hlive, hab] using ha, nofun⟩
  · by_cases hab : a = b
    · simp [hlive, hab] at ha
    · exact .inl ⟨by simpa [hlive, hab] using ha, by simp [Ne.symm hab]⟩
  · exact .inl ⟨hlive ▸ ha, hne a⟩

/-- An access makes at most one entry in the ledger. -/
theorem Op.ledger_exec [DecidableEq ι] {i : ι} {memory memory' : Memory ι} {cells : Finset Nat}
    (h : Ledger memory.live memory.mallocs memory.frees cells)
    (hfree : ∀ a, o = .free (some a) → memory.live a = true)
    (hexec : o.exec i memory = some memory') :
    ∃ cells', Ledger memory'.live memory'.mallocs memory'.frees cells' := by
  rcases Op.exec_ledger hexec with ⟨a, -, hdead, hlive, hmallocs, hfrees⟩ |
    ⟨a, ho, hlive, hmallocs, hfrees⟩ | ⟨-, hlive, hmallocs, hfrees⟩
  · rw [hlive, hmallocs, hfrees]
    exact ⟨_, h.malloc hdead⟩
  · rw [hlive, hmallocs, hfrees]
    exact ⟨_, h.free (hfree a ho)⟩
  · rw [hlive, hmallocs, hfrees]
    exact ⟨cells, h⟩

/-- The failed calls of `queue_add` that have lost a node each. -/
def losses (v : Version) (events : List (ι × Event Int)) : Nat :=
  if v = .spinloc then 0 else events.countP failedAdd

/-- `cells` are the allocated nodes and `lost` are those that can be freed by nobody. -/
structure Leaks (v : Version) (s : State ι (Memory ι) (Thread κ)) (l : List Nat)
    (cells lost : Finset Nat) : Prop where
  ledger : Ledger s.shared.live s.shared.mallocs s.shared.frees cells
  mem_iff : ∀ a, a ∈ lost ↔
    s.shared.live a = true ∧ a ∉ l ∧ ∀ i, (s.thread i).owned ≠ some a
  card : lost.card = losses v s.shared.events

/-- Node `a` is allocated, no part of the queue `l` and used by no thread. -/
def Lost (s : State ι (Memory ι) (Thread κ)) (l : List Nat) (a : Nat) : Prop :=
  s.shared.live a = true ∧ a ∉ l ∧ ∀ i, (s.thread i).owned ≠ some a

section Steps

variable [DecidableEq ι] {s : State ι (Memory ι) (Thread κ)} {i : ι} {memory : Memory ι} {a : Nat}

/-- A lost node stays lost. -/
theorem Lost.advance (h : Lost s l a) (hinv : Invariant v maxCount s l)
    (hop : (s.thread i).op C = some o) (hexec : o.exec i s.shared = some memory) :
    Lost (s.advance i memory ((s.thread i).resume v C s.shared)) (o.relink l) a := by
  obtain ⟨hlive, hmem, howned⟩ := h
  refine ⟨?_, fun hrelink => ?_, fun j hj => ?_⟩
  · -- Only the thread that has the node could free it.
    rw [State.advance_shared, ← hlive]
    apply (Op.exec_frame hexec fun htouch => ?_).1
    rcases touched (hinv.knows i) hop hexec htouch with hfree | hi | ⟨-, hi⟩
    · simp [hlive] at hfree
    · exact howned i hi
    · exact hmem hi
  · rcases mem_relink hop hrelink with hl | hi
    · exact hmem hl
    · exact howned i hi
  · by_cases hji : j = i
    · -- A thread gets a node from `malloc`, which returns no allocated one, or from the queue.
      rw [hji, State.advance_thread_self] at hj
      rcases (Thread.moves_resume hop).owned a hj with rfl | ⟨val, rfl, htmp⟩ | ⟨hi, -⟩
      · simp [Op.exec, hlive] at hexec
      · obtain ⟨b, rest, rfl, hb, -⟩ := unlink_spec (hinv.knows i) hop
        obtain rfl : a = b := Option.some.inj (htmp.symm.trans hb)
        exact hmem List.mem_cons_self
      · exact howned i hi
    · rw [State.advance_thread_of_ne _ _ _ hji] at hj
      exact howned j hj

/-- A node is lost only by a `queue_add` that finds the queue full. -/
theorem Lost.of_advance (hinv : Invariant v maxCount s l) (hop : (s.thread i).op C = some o)
    (hexec : o.exec i s.shared = some memory)
    (h : Lost (s.advance i memory ((s.thread i).resume v C s.shared)) (o.relink l) a) :
    Lost s l a ∨
      (v ≠ .spinloc ∧ o = .unlock (some (.add (s.thread i).val false)) ∧
        (s.thread i).owned = some a) := by
  obtain ⟨hlive, hrelink, howned⟩ := h
  rw [State.advance_shared] at hlive
  have hself : ((s.thread i).resume v C s.shared).owned ≠ some a := by
    simpa using howned i
  have hbefore : s.shared.live a = true ∧ o ≠ .free (some a) := by
    rcases Op.live_of_exec hexec hlive with hbefore | rfl
    · exact hbefore
    · exact absurd (Thread.owned_malloc hop) hself
  by_cases hi : (s.thread i).owned = some a
  · -- The thread gives its node away: it frees it, links it or forgets it.
    rcases Thread.owned_resume hop hi with hi | hfree | hgive | ⟨hv, hunlock⟩ | habort
    · exact absurd hi hself
    · exact absurd hfree hbefore.2
    · obtain ⟨val, rfl | rfl⟩ := hgive <;> simp [Op.relink] at hrelink
    · exact .inr ⟨hv, hunlock, hi⟩
    · have hasserts := (hinv.advance hop hexec).correct.asserts i
      rw [State.advance_thread_self] at hasserts
      exact absurd habort hasserts
  · refine .inl ⟨hbefore.1, fun hmem => ?_, fun j hj => ?_⟩
    · cases o <;> simp only [Op.relink] at hrelink
      case unlink val =>
        obtain ⟨b, rest, rfl, hb, -⟩ := unlink_spec (hinv.knows i) hop
        rw [Thread.owned_unlink hop, hb] at hself
        simp_all
      all_goals simp_all
    · by_cases hji : j = i
      · exact hi (hji ▸ hj)
      · apply howned j
        rw [State.advance_thread_of_ne _ _ _ hji]
        exact hj

/-- A `queue_add` that gives up on a full queue loses its node. -/
theorem Lost.of_full (hinv : Invariant v maxCount s l) (hv : v ≠ .spinloc)
    (hpc : (s.thread i).pc = .addUnlockFull)
    (hexec : (Op.unlock (some (.add (s.thread i).val false))).exec i s.shared = some memory)
    (howned : (s.thread i).owned = some a) :
    Lost (s.advance i memory ((s.thread i).resume v C s.shared)) l a := by
  have hlive := (Op.exec_frame (b := a) hexec (by simp [Op.touches])).1
  refine ⟨hlive.trans ((hinv.owns i).live a howned), (hinv.owns i).apart a howned,
    fun j hj => ?_⟩
  by_cases hji : j = i
  · subst j
    simp [Thread.resume, hpc, hv, Thread.ret, Thread.owned, Pc.carriesNew, Pc.carriesTmp] at hj
  · rw [State.advance_thread_of_ne _ _ _ hji] at hj
    exact hji (hinv.apart j i a hj howned)

/-- Between the calls `count` is the number of nodes in the queue. -/
theorem count_of_quiet (hinv : Invariant v maxCount s l) (hquiet : Quiet s) :
    s.shared.queue.count = l.length := by
  by_cases hnone : ∀ i, (s.thread i).inside = false
  · exact (hinv.quiet hnone).count
  · -- The thread that has the lock is at the statistics, which change nothing.
    obtain ⟨i, hi⟩ := not_forall.mp hnone
    have hknows := hinv.knows i ((Bool.not_eq_false _).mp hi)
    have hkind := hquiet i
    unfold Knows at hknows
    cases hpc : (s.thread i).pc <;> simp [hpc, Pc.kind] at hkind <;> simp only [hpc] at hknows
    case load u => cases u <;> simp [Update.kind] at hkind
    case store u => cases u <;> simp [Update.kind] at hkind
    all_goals exact hknows.count

end Steps

namespace Leaks

variable [DecidableEq ι] {s : State ι (Memory ι) (Thread κ)} {cells lost : Finset Nat} {i : ι}
  {memory : Memory ι}

/-- Only a failed `queue_add` counts as a loss. -/
theorem losses_advance (hinv : Invariant v maxCount s l) (hop : (s.thread i).op C = some o)
    (hexec : o.exec i s.shared = some memory) :
    (v ≠ .spinloc ∧ o = .unlock (some (.add (s.thread i).val false)) ∧
        losses v memory.events = losses v s.shared.events + 1) ∨
      (¬(v ≠ .spinloc ∧ o = .unlock (some (.add (s.thread i).val false))) ∧
        losses v memory.events = losses v s.shared.events) := by
  rw [hinv.events_advance hop hexec]
  unfold losses
  by_cases hv : v = .spinloc
  · simp [hv]
  · rw [if_neg hv, if_neg hv, List.countP_append]
    cases o
    case unlock failed =>
      cases failed with
      | none => simp [Op.event]
      | some e =>
          rcases Thread.op_unlock hop with ⟨-, rfl⟩ | ⟨-, rfl⟩ <;>
            simp [Op.event, failedAdd, hv]
    all_goals simp [Op.event, failedAdd]

/-- Every step keeps the account of the nodes. -/
theorem advance (h : Leaks v s l cells lost) (hinv : Invariant v maxCount s l)
    (hop : (s.thread i).op C = some o) (hexec : o.exec i s.shared = some memory) :
    ∃ cells' lost', Leaks v (s.advance i memory ((s.thread i).resume v C s.shared)) (o.relink l)
      cells' lost' := by
  have hfree : ∀ a, o = .free (some a) → s.shared.live a = true := by
    rintro a rfl
    exact (hinv.owns i).live a (Thread.op_free hop).symm
  obtain ⟨cells', hcells⟩ := Op.ledger_exec h.ledger hfree hexec
  rcases losses_advance hinv hop hexec with ⟨hv, rfl, hlosses⟩ | ⟨hfail, hlosses⟩
  · have hpc : (s.thread i).pc = .addUnlockFull := by
      rcases Thread.op_unlock hop with ⟨hpc, -⟩ | ⟨-, he⟩
      · exact hpc
      · cases he
    have howned : (s.thread i).owned = some (s.thread i).new := by
      simp [Thread.owned, hpc, Pc.carriesNew]
    have hnew : (s.thread i).new ∉ lost := fun hmem =>
      ((h.mem_iff _).mp hmem).2.2 i howned
    refine ⟨cells', insert (s.thread i).new lost, hcells, fun a => ?_, ?_⟩
    · rw [Finset.mem_insert]
      constructor
      · rintro (rfl | ha)
        · exact Lost.of_full hinv hv hpc hexec howned
        · exact Lost.advance ((h.mem_iff a).mp ha) hinv hop hexec
      · intro ha
        rcases Lost.of_advance hinv hop hexec ha with hold | ⟨-, -, hi⟩
        · exact .inr ((h.mem_iff a).mpr hold)
        · exact .inl (Option.some.inj (hi.symm.trans howned))
    · rw [Finset.card_insert_of_notMem hnew, h.card]
      exact hlosses.symm
  · refine ⟨cells', lost, hcells, fun a => ?_, h.card.trans hlosses.symm⟩
    constructor
    · intro ha
      exact Lost.advance ((h.mem_iff a).mp ha) hinv hop hexec
    · intro ha
      rcases Lost.of_advance hinv hop hexec ha with hold | ⟨hv, ho, -⟩
      · exact (h.mem_iff a).mpr hold
      · exact absurd ⟨hv, ho⟩ hfail

omit [DecidableEq ι] in
/-- Nothing has been called yet. -/
theorem start (hs : Starts maxCount s) : Leaks v s [] ∅ ∅ := by
  obtain ⟨hshared, -⟩ := hs
  refine ⟨?_, fun a => ?_, ?_⟩
  · rw [hshared]
    exact .empty
  · simp [hshared, Memory.init]
  · simp [hshared, Memory.init, losses]

theorem of_reachable (hs : (threads v C ι).Reachable (Starts maxCount) s) :
    ∃ l cells lost, Invariant v maxCount s l ∧ Leaks v s l cells lost := by
  apply hs.induction (I := fun s => ∃ l cells lost, Invariant v maxCount s l ∧
    Leaks v s l cells lost)
  · intro s h
    exact ⟨[], ∅, ∅, .start h, start h⟩
  · rintro s i o memory - ⟨l, cells, lost, hinv, h⟩ - hop hexec
    obtain ⟨cells', lost', h'⟩ := h.advance hinv hop hexec
    exact ⟨_, cells', lost', hinv.advance hop hexec, h'⟩

/-- Between the calls an allocated node is in the queue, or a failed `queue_add` has lost it. -/
theorem mallocs_eq (h : Leaks v s l cells lost) (hinv : Invariant v maxCount s l)
    (hquiet : Quiet s) :
    (s.shared.mallocs : Int) =
      s.shared.frees + s.shared.queue.count + losses v s.shared.events := by
  have howned : ∀ i, (s.thread i).owned = none := fun i => Thread.owned_of_kind (hquiet i)
  have hcount := count_of_quiet hinv hquiet
  have hmallocs := h.ledger.mallocs_eq lost hinv.sound.chain.nodup hinv.sound.live
    fun a => by simp [h.mem_iff, howned]
  rw [h.card] at hmallocs
  rw [hcount]
  omega

end Leaks

/-- A failed `queue_add` is recorded when the lock is released. -/
theorem Thread.pc_of_failedAdd {t : Thread κ} {e : ι × Event Int} (hop : t.op C = some o)
    (he : o.event = some e.2) (hfailed : failedAdd e = true) : t.pc = .addUnlockFull := by
  obtain ⟨j, e⟩ := e
  cases o <;> simp only [Op.event, Option.some.injEq, reduceCtorEq] at he
  case unlock failed =>
    subst he
    rcases Thread.op_unlock hop with ⟨hpc, -⟩ | ⟨-, rfl⟩
    · exact hpc
    · simp [failedAdd] at hfailed
  all_goals
    subst he
    simp [failedAdd] at hfailed

section Runs

variable [DecidableEq ι] {s : State ι (Memory ι) (Thread κ)}

/-- While no thread finds the queue full, no `queue_add` fails. -/
theorem not_failedAdd_of_reachable {maxCount : Int}
    (hs : (threads v C ι).ReachableUnder (StartsWith maxCount) (fun s i => ¬FindsFull s i) s) :
    (∀ i, (s.thread i).pc ≠ .addUnlockFull) ∧ ∀ e ∈ s.shared.events, failedAdd e = false := by
  apply hs.induction (I := fun s => (∀ i, (s.thread i).pc ≠ .addUnlockFull) ∧
    ∀ e ∈ s.shared.events, failedAdd e = false)
  · rintro s ⟨hshared, hthread⟩
    refine ⟨fun i => ?_, by simp [hshared, Memory.init]⟩
    obtain ⟨client, addresses, hi⟩ := hthread i
    simp [hi, Thread.start]
  · rintro s i o memory - ⟨hpc, hevents⟩ hok hop hexec
    constructor
    · intro j
      by_cases hji : j = i
      · rw [hji, State.advance_thread_self]
        intro hfull
        exact hok (Thread.findsFull_of_resume hop hfull).2
      · rw [State.advance_thread_of_ne _ _ _ hji]
        exact hpc j
    · intro e he
      rcases Op.event_of_exec hexec he with hold | hnew
      · exact hevents e hold
      · rw [← Bool.not_eq_true]
        intro hfailed
        exact hpc i (Thread.pc_of_failedAdd hop hnew hfailed)

end Runs

end Leaks

/-! ### A negative `max_count` -/

/-- The statements that are reached while the assertion of `queue_add` fails. -/
def Pc.refusing : Pc → Bool
  | .call | .addMalloc | .addInit | .addLock => true
  | .load .addAttempts | .store .addAttempts | .addAssert => true
  | .getLock | .load .getAttempts | .store .getAttempts | .getAssert | .getEmpty => true
  | .getWait | .getAsleep | .getRelock | .getUnlockEmpty => true
  | .statsPrint | .statsLock | .statsLockedPrint | .statsUnlock => true
  | .aborted | .outOfMemory => true
  | _ => false

/-- The accesses of these statements. -/
def Op.refusing : Op → Bool
  | .load | .malloc _ | .init _ _ | .lock | .unlock none | .unlock (some (.get none)) => true
  | .wait _ | .wake _ | .store .addAttempts _ | .store .getAttempts _ => true
  | _ => false

section Refusing

variable {ι κ : Type*} {v : Version} {C : Client κ} {maxCount : Int} {memory memory' : Memory ι}
  {t : Thread κ} {o : Op}

theorem Thread.op_refusing (hpc : t.pc.refusing = true) (hop : t.op C = some o) :
    o.refusing = true := by
  unfold op at hop
  unfold Pc.refusing at hpc
  cases hat : t.pc <;> simp only [hat, Option.some.injEq, reduceCtorEq] at hop hpc
  case call =>
    obtain ⟨call, -, rfl⟩ := Option.map_eq_some_iff.mp hop
    rfl
  case load u => exact hop ▸ rfl
  case store u => cases u <;> simp at hpc <;> exact hop ▸ rfl
  all_goals exact hop ▸ rfl

/-- These accesses leave the queue empty and free nothing. -/
theorem Op.exec_refusing [DecidableEq ι] {i : ι} (ho : o.refusing = true)
    (hexec : o.exec i memory = some memory') :
    memory'.queue.maxCount = memory.queue.maxCount ∧
      memory'.queue.count = memory.queue.count ∧ memory'.frees = memory.frees ∧
      (memory'.mallocs = memory.mallocs ∨ ∃ p, o = .malloc p) := by
  unfold refusing at ho
  cases o <;> simp only [reduceCtorEq] at ho
  case malloc p =>
    cases p with
    | none => exact Option.some.inj hexec ▸ ⟨rfl, rfl, rfl, .inl rfl⟩
    | some a =>
        have hexec := (Option.ite_none_left_eq_some.mp hexec).2
        exact Option.some.inj hexec ▸ ⟨rfl, rfl, rfl, .inr ⟨_, rfl⟩⟩
  case lock =>
    have hexec := (Option.ite_none_left_eq_some.mp hexec).2
    exact Option.some.inj hexec ▸ ⟨rfl, rfl, rfl, .inl rfl⟩
  case unlock failed => cases failed <;> exact Option.some.inj hexec ▸ ⟨rfl, rfl, rfl, .inl rfl⟩
  case store u value =>
    cases u <;> simp only [reduceCtorEq] at ho <;>
      exact Option.some.inj hexec ▸ ⟨rfl, rfl, rfl, .inl rfl⟩
  all_goals exact Option.some.inj hexec ▸ ⟨rfl, rfl, rfl, .inl rfl⟩

/-- A thread stays within these statements, and out of a `queue_add` that has allocated it
never comes back. -/
theorem Thread.refusing_resume (hpc : t.pc.refusing = true)
    (hcount : memory.queue.count = 0) (hneg : memory.queue.maxCount < 0)
    (hop : t.op C = some o) :
    (t.resume v C memory).pc.refusing = true ∧
      (t.pc.kind = .add ∨ t.pc.kind = .stopped →
        (t.resume v C memory).pc.kind = .add ∨ (t.resume v C memory).pc.kind = .stopped) := by
  have hassert : ¬(memory.queue.count ≤ memory.queue.maxCount) := by omega
  unfold op at hop
  unfold resume
  cases hat : t.pc <;> simp only [hat, reduceCtorEq] at hop <;> simp [hat, Pc.refusing] at hpc
  case call =>
    obtain ⟨call, hcall, -⟩ := Option.map_eq_some_iff.mp hop
    rw [hcall]
    cases call <;> cases v <;> simp [Pc.refusing, Pc.kind]
  case addMalloc => cases t.addresses 0 <;> simp [Pc.refusing, Pc.kind]
  case load u => cases u <;> simp [Pc.refusing, Pc.kind, Update.kind] at hpc ⊢
  case store u => cases u <;> simp [Pc.refusing, Pc.kind, Update.kind, Update.next] at hpc ⊢
  case addAssert =>
    dsimp only
    rw [if_neg hassert]
    simp [Pc.refusing, Pc.kind]
  case getEmpty => cases v <;> simp [hcount, Pc.refusing, Pc.kind]
  all_goals simp [hcount, Pc.refusing, Pc.kind, Update.kind, ret, retStats]

/-- The queue stays empty, and a thread that has allocated a node does not come back. -/
structure Refusing (s : State ι (Memory ι) (Thread κ)) : Prop where
  maxCount : s.shared.queue.maxCount < 0
  count : s.shared.queue.count = 0
  pc : ∀ i, (s.thread i).pc.refusing = true
  frees : s.shared.frees = 0
  events : ∀ e ∈ s.shared.events, failedAdd e = false
  mallocs : s.shared.mallocs = 0 ∨
    ∃ i, (s.thread i).pc.kind = .add ∨ (s.thread i).pc.kind = .stopped

namespace Refusing

variable [DecidableEq ι] {s : State ι (Memory ι) (Thread κ)}

theorem advance {i : ι} {memory : Memory ι} (h : Refusing s)
    (hop : (s.thread i).op C = some o) (hexec : o.exec i s.shared = some memory) :
    Refusing (s.advance i memory ((s.thread i).resume v C s.shared)) := by
  have ho := Thread.op_refusing (h.pc i) hop
  obtain ⟨hmax, hcount, hfrees, hmallocs⟩ := Op.exec_refusing ho hexec
  have hresume : _ := Thread.refusing_resume (v := v) (h.pc i) h.count h.maxCount hop
  have hother : ∀ {j}, j ≠ i →
      (s.advance i memory ((s.thread i).resume v C s.shared)).thread j = s.thread j :=
    fun hj => State.advance_thread_of_ne s memory _ hj
  refine ⟨hmax ▸ h.maxCount, hcount.trans h.count, fun j => ?_, hfrees.trans h.frees,
    fun e he => ?_, ?_⟩
  · by_cases hji : j = i
    · rw [hji, State.advance_thread_self]
      exact hresume.1
    · rw [hother hji]
      exact h.pc j
  · rcases Op.event_of_exec hexec he with hold | hnew
    · exact h.events e hold
    · rw [← Bool.not_eq_true]
      intro hfailed
      have hfull := Thread.pc_of_failedAdd hop hnew hfailed
      have hrefusing := h.pc i
      simp [hfull, Pc.refusing] at hrefusing
  · rcases hmallocs with hsame | ⟨p, rfl⟩
    · rw [State.advance_shared, hsame]
      rcases h.mallocs with hzero | ⟨j, hj⟩
      · exact .inl hzero
      · refine .inr ⟨j, ?_⟩
        by_cases hji : j = i
        · subst j
          rw [State.advance_thread_self]
          exact hresume.2 hj
        · rw [hother hji]
          exact hj
    · refine .inr ⟨i, ?_⟩
      rw [State.advance_thread_self]
      have hkind : (s.thread i).pc.kind = .add := by
        rw [(Thread.op_malloc hop).1]
        rfl
      exact hresume.2 (.inl hkind)

theorem of_reachable (hneg : maxCount < 0)
    (hs : (threads v C ι).Reachable (StartsWith maxCount) s) : Refusing s := by
  apply hs.induction (I := Refusing)
  · rintro s ⟨hshared, hthread⟩
    refine ⟨by rw [hshared]; exact hneg, by rw [hshared]; rfl, fun i => ?_, by rw [hshared]; rfl,
      by simp [hshared, Memory.init], .inl (by rw [hshared]; rfl)⟩
    obtain ⟨client, addresses, hi⟩ := hthread i
    rw [hi]
    rfl
  · intro s i o memory _ h _ hop hexec
    exact h.advance hop hexec

omit [DecidableEq ι] in
theorem mallocs_eq (h : Refusing s) (hquiet : Quiet s) : s.shared.mallocs = 0 := by
  rcases h.mallocs with hzero | ⟨i, hi⟩
  · exact hzero
  · rcases hquiet i with hkind | hkind <;> simp [hkind] at hi

end Refusing
end Refusing

section Balance

variable {ι κ : Type*} [DecidableEq ι] {v : Version} {C : Client κ} {maxCount : Int}
  {s : State ι (Memory ι) (Thread κ)}

/-- The failed calls of `queue_add` that count: those of `mutex` and `semafors`. -/
theorem losses_eq_zero_iff (hs : (threads v C ι).Reachable (StartsWith maxCount) s) :
    losses v s.shared.events = 0 ↔
      (v = .mutex ∨ v = .semafors → ∀ e ∈ s.shared.events, failedAdd e = false) := by
  have hblocking : v = .conditionalVarible → ∀ e ∈ s.shared.events, failedAdd e = false := by
    intro hv e he
    rcases Int.lt_or_le maxCount 0 with hneg | hpos
    · exact (Refusing.of_reachable hneg hs).events e he
    · lift maxCount to Nat using hpos
      obtain ⟨l, hinv⟩ := Invariant.of_reachable (fun _ => id) hs
      have hok := hinv.blocking hv e he
      obtain ⟨i, e⟩ := e
      cases e with
      | add val ok => cases ok <;> simp_all [Event.ok, failedAdd]
      | get r => rfl
  cases v <;> simp_all [losses, List.countP_eq_zero]

/-- Between the calls a node is in the queue, freed or lost. -/
theorem mallocs_eq_of_reachable (hs : (threads v C ι).Reachable (StartsWith maxCount) s)
    (hquiet : Quiet s) :
    (s.shared.mallocs : Int) =
      s.shared.frees + s.shared.queue.count + losses v s.shared.events := by
  rcases Int.lt_or_le maxCount 0 with hneg | hpos
  · have h := Refusing.of_reachable hneg hs
    have hlosses := (losses_eq_zero_iff hs).mpr fun _ => h.events
    have hmallocs := h.mallocs_eq hquiet
    have hfrees := h.frees
    have hcount := h.count
    omega
  · lift maxCount to Nat using hpos
    obtain ⟨l, cells, lost, hinv, h⟩ := Leaks.of_reachable hs
    exact h.mallocs_eq hinv hquiet

/-- While no `queue_add` of `mutex` or `semafors` finds the queue full, every allocated node is
in the queue between the calls; after a failed `queue_add` of these versions never again. -/
theorem nodeBalance (v : Version) (C : Client κ) (maxCount : Int) (hquiet : Quiet s) :
    ((threads v C ι).ReachableUnder (StartsWith maxCount)
        (fun s i => v = .mutex ∨ v = .semafors → ¬FindsFull s i) s →
      (s.shared.mallocs : Int) - s.shared.frees = s.shared.queue.count) ∧
    ((threads v C ι).Reachable (StartsWith maxCount) s →
      ((s.shared.mallocs : Int) - s.shared.frees = s.shared.queue.count ↔
        (v = .mutex ∨ v = .semafors → ∀ e ∈ s.shared.events, failedAdd e = false))) := by
  have hiff : (threads v C ι).Reachable (StartsWith maxCount) s →
      ((s.shared.mallocs : Int) - s.shared.frees = s.shared.queue.count ↔
        (v = .mutex ∨ v = .semafors → ∀ e ∈ s.shared.events, failedAdd e = false)) := by
    intro hs
    rw [← losses_eq_zero_iff hs]
    have hmallocs := mallocs_eq_of_reachable hs hquiet
    omega
  refine ⟨fun hs => (hiff hs.reachable).mpr fun hv => ?_, hiff⟩
  have hnever := hs.mono (fun _ => id) fun s i hok => hok hv
  exact (not_failedAdd_of_reachable hnever).2

end Balance

/-- A client that adds one value. -/
def addOnce : Client Bool where
  call done := if done then none else some (.add 5)
  answer _ _ := true

/-- One thread and a queue for `maxCount` values. -/
def oneClient (maxCount : Int) : State Unit (Memory Unit) (Thread Bool) :=
  ⟨.init maxCount, fun _ => .start false some⟩

theorem nodeBalance_added :
    ∃ s ∈ (threads .mutex addOnce Unit).runIf (fun s i => !decide (FindsFull s i))
        (oneClient 1) (List.replicate 17 ()),
      s.shared.queue.count = 1 ∧ (s.shared.mallocs : Int) - s.shared.frees = 1 := by
  have hstart : StartsWith 1 (oneClient 1) := ⟨rfl, fun _ => ⟨false, some, rfl⟩⟩
  have htest : ∀ (s : State Unit (Memory Unit) (Thread Bool)) (i : Unit),
      (!decide (FindsFull s i)) = true →
        (Version.mutex = .mutex ∨ Version.mutex = .semafors → ¬FindsFull s i) :=
    fun s i hpass _ => by simpa using hpass
  obtain ⟨s, hrun, hs, hcount, hpc⟩ :=
    (Program.ReachableUnder.start hstart).exists_runIf htest
      (fun s => s.shared.queue.count = 1 ∧ (s.thread ()).pc = .call)
      (by decide +kernel : ((threads .mutex addOnce Unit).runIf
        (fun s i => !decide (FindsFull s i)) (oneClient 1) (List.replicate 17 ())).any _ = true)
  have hquiet : Quiet s := fun _ => .inl (by rw [hpc]; rfl)
  refine ⟨s, hrun, hcount, ?_⟩
  rw [(nodeBalance .mutex addOnce 1 hquiet).1 hs, hcount]

/-- `queue_add` on a queue for no value allocates a node and never frees it. -/
theorem nodeBalance_full_false :
    ¬∀ s, (threads .mutex addOnce Unit).Reachable (StartsWith 0) s → Quiet s →
      (s.shared.mallocs : Int) - s.shared.frees = s.shared.queue.count := by
  intro h
  have hstart : StartsWith 0 (oneClient 0) := ⟨rfl, fun _ => ⟨false, some, rfl⟩⟩
  obtain ⟨s, -, hs, hne, hpc⟩ :=
    (Program.ReachableUnder.start hstart).exists_runIf (fun _ _ _ => trivial)
      (fun s => (s.shared.mallocs : Int) - s.shared.frees ≠ s.shared.queue.count ∧
        (s.thread ()).pc = .call)
      (by decide +kernel : ((threads .mutex addOnce Unit).runIf (fun _ _ => true)
        (oneClient 0) (List.replicate 10 ())).any _ = true)
  exact hne (h s hs fun _ => .inl (by rw [hpc]; rfl))

end BoundedQueue
end OperatingSystems
