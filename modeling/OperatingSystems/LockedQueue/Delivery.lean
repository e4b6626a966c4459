import OperatingSystems.BoundedQueue.Delivery
import OperatingSystems.LockedQueue.Content
import OperatingSystems.LockedQueue.Locks

/-!
# The queue under a home-made lock

* `Writes`, `Reads` — the loops of `writer` and `reader` between two steps.
* `Sections` — what holds when the sections are run one after the other.
* `lockedQueue` — under `my_mutex` and under `my_spinlock` the reader gets what the writer
  counts, no assertion fails, and the queue is whole whenever the lock is free.
-/

namespace OperatingSystems
namespace LockedQueue

open Threads Fifo CriticalSections
open BoundedQueue (Memory Op Update Sound Balanced values values_succ eq_values_of_prefix
  toInt32_succ)

namespace Thread

/-- The answer of a call that is as good as done. -/
def pending (t : Thread) : List (Event Int) :=
  match t.pc with
  | .addMoveLast | .load .addLength | .store .addLength => [.add t.val true]
  | .load .addCount | .store .addCount => [.add t.val true]
  | .getFree | .load .getLength | .store .getLength => [.get (some t.val)]
  | .load .getCount | .store .getCount => [.get (some t.val)]
  | .returned e => [e]
  | _ => []

/-- The thread is in `queue_add(q, val)`, or outside. -/
def Adds (t : Thread) (val : Int) : Prop :=
  match t.pc with
  | .call | .outOfMemory => True
  | .addAssert | .addFull | .addMalloc | .addInit | .addFirst | .addSetLast => t.val = val
  | .addSetFirst | .addLink | .addMoveLast => t.val = val
  | .load .addAttempts | .store .addAttempts | .load .addLength | .store .addLength => t.val = val
  | .load .addCount | .store .addCount => t.val = val
  | .returned e => ∃ ok, e = .add val ok
  | _ => False

/-- The thread is in `queue_get`, or outside. -/
def Gets (t : Thread) : Prop :=
  match t.pc with
  | .call | .getAssert | .getEmpty | .getTmp | .getVal | .getNext | .getFree => True
  | .load .getAttempts | .store .getAttempts | .load .getLength | .store .getLength => True
  | .load .getCount | .store .getCount => True
  | .returned e => ∃ r, e = .get r
  | _ => False

end Thread

/-- The writer has been told that `n` values are in the queue. -/
structure Writes (t : Thread) (n : Nat) : Prop where
  party : t.party = .writer (toInt32 n)
  log : t.log.filterMap Event.added = values n
  adds : t.Adds (toInt32 n)

/-- The reader has been given `n` values, and has found no error. -/
structure Reads (t : Thread) (n : Nat) : Prop where
  party : t.party = .reader (toInt32 n) false
  log : t.log.filterMap Event.got = values n
  gets : t.Gets

section Loops

variable {ι : Type*} {memory : Memory ι} {t : Thread} {o : Op} {n : Nat} {val : Int}

/-- A step inside leaves the loop where it is. -/
theorem loop_resume : (t.resume memory).party = t.party ∧ (t.resume memory).log = t.log := by
  unfold Thread.resume
  cases hpc : t.pc <;> simp only [and_self]
  case call => cases t.party <;> exact ⟨rfl, rfl⟩
  case addMalloc => cases t.addresses 0 <;> exact ⟨rfl, rfl⟩

/-- A step inside `queue_add`, and what it does to the history. -/
theorem adds_resume (h : t.Adds val) (hparty : t.party = .writer val) (hop : t.op = some o)
    (hassert : (t.resume memory).pc ≠ .aborted) :
    (t.resume memory).Adds val ∧
      (t.resume memory).pending.filterMap Event.added =
        t.pending.filterMap Event.added ++ o.event.toList.filterMap Event.added ∧
      o.event.toList.filterMap Event.got = [] := by
  unfold Thread.Adds at h
  unfold Thread.op at hop
  unfold Thread.resume at hassert ⊢
  cases hpc : t.pc <;> simp only [hpc, Option.some.injEq, reduceCtorEq] at h hop hassert ⊢ <;>
    subst hop
  case call => simp [hparty, Thread.Adds, Thread.pending, hpc, BoundedQueue.Op.event]
  case addAssert =>
    by_cases hcount : memory.queue.count ≤ memory.queue.maxCount
    · simp [hcount, Thread.Adds, Thread.pending, hpc, h, BoundedQueue.Op.event]
    · simp [hcount] at hassert
  case addFull =>
    by_cases hfull : memory.queue.count = memory.queue.maxCount <;>
      simp [hfull, Thread.Adds, Thread.pending, hpc, h, BoundedQueue.Op.event, Event.added]
  case addMalloc =>
    cases t.addresses 0 <;> simp [Thread.Adds, Thread.pending, hpc, h, BoundedQueue.Op.event]
  case addFirst =>
    by_cases hfirst : memory.queue.first = none <;>
      simp [hfirst, Thread.Adds, Thread.pending, hpc, h, BoundedQueue.Op.event]
  case load u =>
    cases u <;> simp_all [Thread.Adds, Thread.pending, BoundedQueue.Op.event]
  case store u =>
    cases u <;> simp_all [Thread.Adds, Thread.pending, Thread.behind, BoundedQueue.Op.event]
  all_goals
    simp [Thread.Adds, Thread.pending, hpc, h, BoundedQueue.Op.event, Event.added, Event.got]

/-- A step inside `queue_get`, and what it does to the history. -/
theorem gets_resume {expected : Int} {error : Bool} (h : t.Gets)
    (hparty : t.party = .reader expected error) (hop : t.op = some o)
    (hassert : (t.resume memory).pc ≠ .aborted) :
    (t.resume memory).Gets ∧
      (t.resume memory).pending.filterMap Event.got =
        t.pending.filterMap Event.got ++ o.event.toList.filterMap Event.got ∧
      o.event.toList.filterMap Event.added = [] := by
  unfold Thread.Gets at h
  unfold Thread.op at hop
  unfold Thread.resume at hassert ⊢
  cases hpc : t.pc <;> simp only [hpc, Option.some.injEq, reduceCtorEq] at h hop hassert ⊢ <;>
    subst hop
  case call => simp [hparty, Thread.Gets, Thread.pending, hpc, BoundedQueue.Op.event]
  case getAssert =>
    by_cases hcount : 0 ≤ memory.queue.count
    · simp [hcount, Thread.Gets, Thread.pending, hpc, BoundedQueue.Op.event]
    · simp [hcount] at hassert
  case getEmpty =>
    by_cases hempty : memory.queue.count = 0 <;>
      simp [hempty, Thread.Gets, Thread.pending, hpc, BoundedQueue.Op.event, Event.got]
  case load u =>
    cases u <;> simp_all [Thread.Gets, Thread.pending, BoundedQueue.Op.event]
  case store u =>
    cases u <;> simp_all [Thread.Gets, Thread.pending, Thread.behind, BoundedQueue.Op.event]
  all_goals
    simp [Thread.Gets, Thread.pending, hpc, BoundedQueue.Op.event, Event.added, Event.got]

/-- What a thread in `queue_add` has added and not been told about. -/
theorem pending_adds (h : t.Adds val) :
    t.pending.filterMap Event.added = [] ∨ t.pending.filterMap Event.added = [val] := by
  unfold Thread.Adds at h
  unfold Thread.pending
  cases hpc : t.pc <;> simp only [hpc] at h ⊢
  case load u => cases u <;> simp_all [Event.added]
  case store u => cases u <;> simp_all [Event.added]
  case returned e =>
    obtain ⟨ok, rfl⟩ := h
    cases ok <;> simp [Event.added]
  all_goals simp [Event.added, h]

/-- Behind a successful `queue_add`. -/
theorem Writes.next_true (h : Writes t n) (hpc : t.pc = .returned (.add (toInt32 n) true)) :
    Writes t.next (n + 1) := by
  obtain ⟨hparty, hlog, -⟩ := h
  refine ⟨?_, ?_, ?_⟩
  · simp [Thread.next, hpc, hparty, Party.answer, toInt32_succ]
  · simp [Thread.next, hpc, hlog, Event.added, values_succ]
  · simp [Thread.next, hpc, Thread.Adds]

/-- Behind a failed `queue_add`: the value is tried again. -/
theorem Writes.next_false (h : Writes t n) (hpc : t.pc = .returned (.add (toInt32 n) false)) :
    Writes t.next n := by
  obtain ⟨hparty, hlog, -⟩ := h
  refine ⟨?_, ?_, ?_⟩
  · simp [Thread.next, hpc, hparty, Party.answer]
  · simp [Thread.next, hpc, hlog, Event.added]
  · simp [Thread.next, hpc, Thread.Adds]

/-- Behind a successful `queue_get` of the value that is due. -/
theorem Reads.next_some (h : Reads t n) (hpc : t.pc = .returned (.get (some (toInt32 n)))) :
    Reads t.next (n + 1) := by
  obtain ⟨hparty, hlog, -⟩ := h
  refine ⟨?_, ?_, ?_⟩
  · simp [Thread.next, hpc, hparty, Party.answer, toInt32_succ]
  · simp [Thread.next, hpc, hlog, Event.got, values_succ]
  · simp [Thread.next, hpc, Thread.Gets]

/-- Behind a `queue_get` that has found the queue empty. -/
theorem Reads.next_none (h : Reads t n) (hpc : t.pc = .returned (.get none)) :
    Reads t.next n := by
  obtain ⟨hparty, hlog, -⟩ := h
  refine ⟨?_, ?_, ?_⟩
  · simp [Thread.next, hpc, hparty, Party.answer]
  · simp [Thread.next, hpc, hlog, Event.got]
  · simp [Thread.next, hpc, Thread.Gets]

end Loops

/-! ### The sections one after the other -/

/-- The operations, in the order in which they have changed the queue. -/
def history (memory : Memory Role) : List (Event Int) :=
  memory.events.map Prod.snd

/-- What holds when the section of `h` is under way: `l` are the nodes of the queue, and the
writer and the reader have been told of `n` and `m` values. -/
structure Sections (maxCount : Nat) (h : Option Role) (d : State Role (Memory Role) Thread)
    (l : List Nat) (n m : Nat) : Prop where
  sound : Sound maxCount d.shared l
  knows : ∀ i, h = some i → Knows maxCount d.shared l (d.thread i)
  balanced : h = none → Balanced d.shared.queue l l.length l.length
  rests : ∀ i, h ≠ some i → (d.thread i).pc = .call ∨ (d.thread i).isReturned = true
  writes : Writes (d.thread .writer) n
  reads : Reads (d.thread .reader) m
  added : (history d.shared).filterMap Event.added =
    values n ++ (d.thread .writer).pending.filterMap Event.added
  got : (history d.shared).filterMap Event.got =
    values m ++ (d.thread .reader).pending.filterMap Event.got

namespace Sections

variable {maxCount n m : Nat} {h : Option Role} {d : State Role (Memory Role) Thread}
  {l : List Nat} {i : Role}

/-- Everything that has been taken out of the queue is what the writer counts. -/
theorem got_eq_values (hd : Sections maxCount h d l n m) :
    ∃ k, values m ++ (d.thread .reader).pending.filterMap Event.got = values k := by
  have hadded : ∃ k, (history d.shared).filterMap Event.added = values k := by
    rw [hd.added]
    obtain hnone | hsome := pending_adds hd.writes.adds
    · exact ⟨n, by rw [hnone, List.append_nil]⟩
    · exact ⟨n + 1, by rw [hsome, values_succ]⟩
  obtain ⟨k, hk⟩ := hadded
  have hprefix := Fifo.got_prefix hd.sound.run
  rw [← history, hk, hd.got] at hprefix
  exact ⟨_, eq_values_of_prefix hprefix⟩

/-- The value that the reader is given is the next one. -/
theorem value_eq (hd : Sections maxCount h d l n m) {val : Int}
    (hpending : (d.thread .reader).pending.filterMap Event.got = [val]) : val = toInt32 m := by
  obtain ⟨k, hk⟩ := hd.got_eq_values
  rw [hpending] at hk
  have hlength := congrArg List.length hk
  have hkm : k = m + 1 := by simpa [values] using hlength.symm
  rw [hkm, values_succ] at hk
  exact List.singleton_inj.mp (List.append_cancel_left hk)

theorem start (hd : StartsQueue maxCount d) : Sections maxCount none d [] 0 0 := by
  obtain ⟨hshared, ⟨addresses, hwriter⟩, addresses', hreader⟩ := hd
  refine ⟨?_, fun i hi => absurd hi (by simp), fun _ => ?_, fun i _ => .inl ?_, ?_, ?_, ?_, ?_⟩
  · rw [hshared]
    exact ⟨rfl, fun a ha => absurd ha List.not_mem_nil, rfl, rfl, rfl⟩
  · rw [hshared]
    exact ⟨fun hne => absurd rfl hne, rfl, rfl⟩
  · cases i
    · rw [hwriter]
      rfl
    · rw [hreader]
      rfl
  · rw [hwriter]
    exact ⟨rfl, rfl, trivial⟩
  · rw [hreader]
    exact ⟨rfl, rfl, trivial⟩
  · rw [hshared, hwriter]
    rfl
  · rw [hshared, hreader]
    rfl

theorem enter (hd : Sections maxCount none d l n m) (i : Role) :
    Sections maxCount (some i) d l n m := by
  refine ⟨hd.sound, fun j hj => ?_, fun hnone => absurd hnone (by simp), fun j _ => ?_, hd.writes,
    hd.reads, hd.added, hd.got⟩
  · exact (knows_of_rests (hd.rests j (by simp))).mpr (hd.balanced rfl)
  · exact hd.rests j (by simp)

theorem leave (hd : Sections maxCount (some i) d l n m)
    (hreturned : (d.thread i).isReturned = true) : Sections maxCount none d l n m := by
  refine ⟨hd.sound, fun j hj => absurd hj (by simp), fun _ => ?_, fun j _ => ?_, hd.writes,
    hd.reads, hd.added, hd.got⟩
  · exact (knows_of_rests (.inr hreturned)).mp (hd.knows i rfl)
  · by_cases hji : j = i
    · exact .inr (hji ▸ hreturned)
    · exact hd.rests j fun heq => hji (Option.some.inj heq).symm

theorem exists_answer {t : Thread} (hreturned : t.isReturned = true) :
    ∃ e, t.pc = .returned e := by
  unfold Thread.isReturned at hreturned
  split at hreturned
  · next e hpc => exact ⟨e, hpc⟩
  · cases hreturned

/-- A thread goes on behind its unlock, while another one may be inside. -/
theorem next (hd : Sections maxCount h d l n m) (hi : h ≠ some i)
    (hreturned : (d.thread i).isReturned = true) :
    ∃ n' m', Sections maxCount h (d.advance i d.shared (d.thread i).next) l n' m' := by
  obtain ⟨e, hpc⟩ := exists_answer hreturned
  have hcall : (d.thread i).next.pc = .call := by simp [Thread.next, hpc]
  have hpending : (d.thread i).next.pending = [] := by simp [Thread.pending, hcall]
  have hother : ∀ {j}, j ≠ i → (d.advance i d.shared (d.thread i).next).thread j = d.thread j :=
    fun hji => State.advance_thread_of_ne _ _ _ hji
  have hself : (d.advance i d.shared (d.thread i).next).thread i = (d.thread i).next :=
    State.advance_thread_self ..
  -- what does not depend on the answer
  have hknows : ∀ j, h = some j → Knows maxCount d.shared l
      ((d.advance i d.shared (d.thread i).next).thread j) := by
    intro j hj
    have hji : j ≠ i := by
      rintro rfl
      exact hi hj
    rw [hother hji]
    exact hd.knows j hj
  have hrests : ∀ j, h ≠ some j →
      ((d.advance i d.shared (d.thread i).next).thread j).pc = .call ∨
        ((d.advance i d.shared (d.thread i).next).thread j).isReturned = true := by
    intro j hj
    by_cases hji : j = i
    · subst hji
      rw [hself]
      exact .inl hcall
    · rw [hother hji]
      exact hd.rests j hj
  cases i with
  | writer =>
      have hadds := hd.writes.adds
      simp only [Thread.Adds, hpc] at hadds
      obtain ⟨ok, rfl⟩ := hadds
      have hadded := hd.added
      simp only [Thread.pending, hpc] at hadded
      cases ok with
      | true =>
          refine ⟨n + 1, m, hd.sound, hknows, hd.balanced, hrests, ?_, ?_, ?_, ?_⟩
          · rw [hself]
            exact hd.writes.next_true hpc
          · rw [hother (by simp)]
            exact hd.reads
          · rw [hself, hpending]
            simpa [Event.added, values_succ] using hadded
          · rw [hother (by simp)]
            exact hd.got
      | false =>
          refine ⟨n, m, hd.sound, hknows, hd.balanced, hrests, ?_, ?_, ?_, ?_⟩
          · rw [hself]
            exact hd.writes.next_false hpc
          · rw [hother (by simp)]
            exact hd.reads
          · rw [hself, hpending]
            exact hadded
          · rw [hother (by simp)]
            exact hd.got
  | reader =>
      have hgets := hd.reads.gets
      simp only [Thread.Gets, hpc] at hgets
      obtain ⟨r, rfl⟩ := hgets
      have hgot := hd.got
      simp only [Thread.pending, hpc] at hgot
      cases r with
      | some val =>
          have hval : val = toInt32 m := by
            apply hd.value_eq
            rw [Thread.pending, hpc]
            rfl
          rw [hval] at hpc hgot
          refine ⟨n, m + 1, hd.sound, hknows, hd.balanced, hrests, ?_, ?_, ?_, ?_⟩
          · rw [hother (by simp)]
            exact hd.writes
          · rw [hself]
            exact hd.reads.next_some hpc
          · rw [hother (by simp)]
            exact hd.added
          · rw [hself, hpending]
            simpa [Event.got, values_succ] using hgot
      | none =>
          refine ⟨n, m, hd.sound, hknows, hd.balanced, hrests, ?_, ?_, ?_, ?_⟩
          · rw [hother (by simp)]
            exact hd.writes
          · rw [hself]
            exact hd.reads.next_none hpc
          · rw [hother (by simp)]
            exact hd.added
          · rw [hself, hpending]
            exact hgot

/-- What an access of the thread inside adds to the history. -/
theorem history_after {o : Op} {memory : Memory Role} (hd : Sections maxCount (some i) d l n m)
    (hop : (d.thread i).op = some o) (hexec : o.exec i d.shared = some memory) :
    history memory = history d.shared ++ o.event.toList := by
  have hknows := hd.knows i rfl
  unfold Knows at hknows
  unfold Thread.op at hop
  have hevents := Op.exec_events hexec ?_ ?_
  · rw [history, hevents, List.map_append, List.map_map]
    congr 1
    exact List.map_id _
  · -- a node is linked behind the last one
    rintro a val rfl
    split at hop <;> simp only [Option.some.injEq, reduceCtorEq] at hop
    next hpc =>
      simp only [hpc] at hknows
      obtain ⟨hbalanced, -, -, hne⟩ := hknows
      rw [hbalanced.last hne]
      simpa using hne
  · -- the first node is taken out
    rintro val rfl
    split at hop <;> simp only [Option.some.injEq, reduceCtorEq] at hop
    next hpc =>
      simp only [hpc] at hknows
      obtain ⟨-, a, rest, rfl, -⟩ := hknows
      rw [hd.sound.chain.1]
      simp

/-- A step inside. -/
theorem run {o : Op} {memory : Memory Role} (hd : Sections maxCount (some i) d l n m)
    (hop : (d.thread i).op = some o) (hexec : o.exec i d.shared = some memory) :
    Sections maxCount (some i) (d.advance i memory ((d.thread i).resume d.shared)) (o.relink l)
      n m := by
  have hinside : Inside maxCount memory (o.relink l) ((d.thread i).resume d.shared) :=
    Inside.own ⟨hd.sound, hd.knows i rfl⟩ hop hexec
  have hassert : ((d.thread i).resume d.shared).pc ≠ .aborted := by
    intro hpc
    have hknows := hinside.knows
    simp only [Knows, hpc] at hknows
  have hhistory := hd.history_after hop hexec
  obtain ⟨hparty, hlog⟩ : ((d.thread i).resume d.shared).party = (d.thread i).party ∧
      ((d.thread i).resume d.shared).log = (d.thread i).log := loop_resume
  have hself := State.advance_thread_self d i memory ((d.thread i).resume d.shared)
  have hother : ∀ {j}, j ≠ i →
      (d.advance i memory ((d.thread i).resume d.shared)).thread j = d.thread j :=
    fun hji => State.advance_thread_of_ne _ _ _ hji
  have hknows : ∀ j, some i = some j → Knows maxCount memory (o.relink l)
      ((d.advance i memory ((d.thread i).resume d.shared)).thread j) := by
    intro j hj
    obtain rfl := Option.some.inj hj
    rw [hself]
    exact hinside.knows
  have hrests : ∀ j, some i ≠ some j →
      ((d.advance i memory ((d.thread i).resume d.shared)).thread j).pc = .call ∨
        ((d.advance i memory ((d.thread i).resume d.shared)).thread j).isReturned = true := by
    intro j hj
    rw [hother fun hji => hj (hji ▸ rfl)]
    exact hd.rests j hj
  have hbalanced : some i = none → Balanced memory.queue (o.relink l) (o.relink l).length
      (o.relink l).length := fun hnone => absurd hnone (by simp)
  -- The other party stands still, and so does its half of the history.
  cases i with
  | writer =>
      obtain ⟨hadds, hadded, hgot⟩ := adds_resume hd.writes.adds hd.writes.party hop hassert
      refine ⟨hinside.sound, hknows, hbalanced, hrests, ?_, ?_, ?_, ?_⟩
      · rw [hself]
        exact ⟨hparty.trans hd.writes.party, by rw [hlog, hd.writes.log], hadds⟩
      · rw [hother (by simp)]
        exact hd.reads
      · rw [State.advance_shared, hhistory, List.filterMap_append, hd.added, hself, hadded,
          List.append_assoc]
      · rw [State.advance_shared, hhistory, List.filterMap_append, hgot, List.append_nil,
          hother (by simp)]
        exact hd.got
  | reader =>
      obtain ⟨hgets, hgot, hadded⟩ := gets_resume hd.reads.gets hd.reads.party hop hassert
      refine ⟨hinside.sound, hknows, hbalanced, hrests, ?_, ?_, ?_, ?_⟩
      · rw [hother (by simp)]
        exact hd.writes
      · rw [hself]
        exact ⟨hparty.trans hd.reads.party, by rw [hlog, hd.reads.log], hgets⟩
      · rw [State.advance_shared, hhistory, List.filterMap_append, hadded, List.append_nil,
          hother (by simp)]
        exact hd.added
      · rw [State.advance_shared, hhistory, List.filterMap_append, hd.got, hself, hgot,
          List.append_assoc]

end Sections

/-- Every state of a serial run. -/
theorem sections {maxCount : Nat} {h : Option Role} {d : State Role (Memory Role) Thread}
    (hd : queueBody.Serial (StartsQueue maxCount) h d) :
    ∃ l n m, Sections maxCount h d l n m := by
  refine hd.induction (J := fun h d => ∃ l n m, Sections maxCount h d l n m) ?_ ?_ ?_ ?_ ?_
  · exact fun d hstart => ⟨[], 0, 0, .start hstart⟩
  · rintro d i ⟨l, n, m, hd⟩
    exact ⟨l, n, m, hd.enter i⟩
  · rintro d i o memory ⟨l, n, m, hd⟩ - hop hexec
    exact ⟨_, n, m, hd.run hop hexec⟩
  · rintro d i ⟨l, n, m, hd⟩ hreturned
    exact ⟨l, n, m, hd.leave hreturned⟩
  · rintro d h i ⟨l, n, m, hd⟩ hi hreturned
    obtain ⟨n', m', hd'⟩ := hd.next hi hreturned
    exact ⟨l, n', m', hd'⟩

/-! ### Under a lock -/

/-- `count` is the length of the chain from `first`, `last` is its final node, and there is no
more in the queue than it may hold. -/
def Whole (maxCount : Nat) (memory : Memory Role) : Prop :=
  ∃ l, Chain memory.next memory.queue.first l ∧ memory.queue.count = l.length ∧
    (l ≠ [] → memory.queue.last = l.getLast?) ∧ memory.queue.count ≤ maxCount

/-- The answers of the calls that have returned. -/
def Thread.answers (t : Thread) : List (Event Int) :=
  t.log ++ if t.isReturned then t.pending else []

/-- No assertion has failed, no freed node was used, and the reader has been given `0`, `1`, … in
order and has reported no error. -/
structure Delivered (d : State Role (Memory Role) Thread) : Prop where
  asserts : ∀ i, (d.thread i).pc ≠ .aborted
  fault : d.shared.fault = false
  inOrder : ∃ k, (d.thread .reader).answers.filterMap Event.got = values k
  error : ∃ expected, (d.thread .reader).party = .reader expected false

theorem Sections.delivered {maxCount : Nat} {h : Option Role}
    {d : State Role (Memory Role) Thread} {l : List Nat} {n m : Nat}
    (hd : Sections maxCount h d l n m) : Delivered d := by
  refine ⟨fun i hpc => ?_, hd.sound.fault, ?_, _, hd.reads.party⟩
  · by_cases hi : h = some i
    · have hknows := hd.knows i hi
      simp only [Knows, hpc] at hknows
    · obtain hcall | hreturned := hd.rests i hi
      · simp [hpc] at hcall
      · simp [Thread.isReturned, hpc] at hreturned
  · rw [Thread.answers]
    split
    · rw [List.filterMap_append, hd.reads.log]
      exact hd.got_eq_values
    · rw [List.append_nil]
      exact ⟨m, hd.reads.log⟩

theorem Sections.whole {maxCount : Nat} {d : State Role (Memory Role) Thread} {l : List Nat}
    {n m : Nat} (hd : Sections maxCount none d l n m) : Whole maxCount d.shared := by
  have hbalanced := hd.balanced rfl
  refine ⟨l, hd.sound.chain, hbalanced.count, hbalanced.last, ?_⟩
  rw [hbalanced.count]
  exact Int.ofNat_le.mpr hd.sound.length_le

/-- The queue under any lock that excludes. -/
theorem delivered_of_excludes {σ τ ο : Type*} {L : LockCode Role σ τ ο}
    {init : State Role σ (Use τ) → Prop} {free : σ → Prop} (hL : L.Excludes init free)
    {maxCount : Nat} {s : State Role (σ × Memory Role) (Guarded τ Thread)}
    (hs : (guarded L queueBody).Reachable (Starts init (StartsQueue maxCount)) s) :
    Delivered (dataOf s) ∧ (free s.shared.1 → Whole maxCount s.shared.2) := by
  obtain ⟨h, hserial⟩ := serial hL hs
  obtain ⟨l, n, m, hd⟩ := sections hserial.serial
  refine ⟨hd.delivered, fun hfree => ?_⟩
  obtain rfl := hserial.of_free hL hfree
  exact hd.whole

/-- In every interleaving of the writer and the reader, under `my_mutex` of the type
`MY_MUTEX_NORMAL` and under `my_spinlock`: the reader gets `0`, `1`, … in order, no assertion
fails, and the queue is whole whenever the lock is free. -/
theorem lockedQueue (maxCount : Nat) :
    (∀ tid : Role → Int, MyMutex.Tids tid → ∀ s,
      (guarded (myMutex Role) queueBody).Reachable
          (Starts (StartsMutex tid) (StartsQueue maxCount)) s →
        Delivered (dataOf s) ∧ (s.shared.1.mutex.lock = 1 → Whole maxCount s.shared.2)) ∧
      ∀ s, (guarded (mySpinlock Role) queueBody).Reachable
          (Starts StartsSpinlock (StartsQueue maxCount)) s →
        Delivered (dataOf s) ∧ (s.shared.1 = 1 → Whole maxCount s.shared.2) :=
  ⟨fun _ htids _ hs => delivered_of_excludes (myMutex_excludes htids) hs,
    fun _ hs => delivered_of_excludes mySpinlock_excludes hs⟩

/-! ### A value is handed over -/

/-- The two threads before their loops; `malloc` returns `0`, `1`, …. -/
def beginning {σ τ : Type*} (lock : σ) (t : τ) (t' : τ) (maxCount : Nat) :
    State Role (σ × Memory Role) (Guarded τ Thread) where
  shared := (lock, .init maxCount)
  thread
    | .writer => ⟨⟨.outside, t⟩, .start (.writer 0) some⟩
    | .reader => ⟨⟨.outside, t'⟩, .start (.reader 0 false) some⟩

/-- The reader and the writer with `my_mutex`. -/
def mutexBeginning : State Role (MyMutex.Memory × Memory Role) (Guarded MyMutex.Thread Thread) :=
  beginning ⟨.init .normal, [], false⟩ (.start 1 [] (fun _ => .woken) fun _ => 0)
    (.start 2 [] (fun _ => .woken) fun _ => 0) 1

/-- The reader and the writer with `my_spinlock`; every first exchange fails. -/
def spinlockBeginning : State Role (Int × Memory Role) (Guarded Spinner Thread) :=
  beginning 1 ⟨.returned, fun n => n % 2 = 0⟩ ⟨.returned, fun n => n % 2 = 0⟩ 1

/-- The writer adds a value and finds the queue full, and the reader gets the value. -/
theorem lockedQueue_handedOver :
    (∃ s ∈ (guarded (myMutex Role) queueBody).runIf (fun _ _ => true) mutexBeginning
        (List.replicate 49 .writer ++ List.replicate 28 .reader),
      (s.thread .reader).body.answers = [.get (some 0)] ∧
        (s.thread .writer).body.answers = [.add 0 true, .add 1 false] ∧
        Whole 1 s.shared.2) ∧
    ∃ s ∈ (guarded (mySpinlock Role) queueBody).runIf (fun _ _ => true) spinlockBeginning
        (List.replicate 33 .writer ++ List.replicate 20 .reader),
      (s.thread .reader).body.answers = [.get (some 0)] ∧
        (s.thread .writer).body.answers = [.add 0 true, .add 1 false] ∧
        Whole 1 s.shared.2 := by
  have htids : MyMutex.Tids fun i : Role => if i = .writer then 1 else 2 := by
    refine ⟨fun i j h => ?_, fun i => ?_⟩
    · cases i <;> cases j <;> simp at h ⊢
    · cases i <;> simp
  have hqueue : ∀ {σ τ : Type} (lock : σ) (t t' : τ),
      StartsQueue 1 (dataOf (beginning lock t t' 1)) :=
    fun _ _ _ => ⟨rfl, ⟨some, rfl⟩, ⟨some, rfl⟩⟩
  constructor
  · have hstart : Starts (StartsMutex fun i : Role => if i = .writer then 1 else 2) (StartsQueue 1)
        mutexBeginning := by
      refine ⟨⟨rfl, fun i => ?_⟩, hqueue _ _ _, fun i => ?_⟩
      · cases i <;> exact ⟨_, _, rfl⟩
      · cases i <;> rfl
    obtain ⟨s, hrun, hs, hfree, hreader, hwriter⟩ :=
      (Program.ReachableUnder.start hstart).exists_runIf (P := guarded (myMutex Role) queueBody)
        (fun _ _ _ => trivial)
        (fun s => s.shared.1.mutex.lock = 1 ∧
          (s.thread .reader).body.answers = [.get (some 0)] ∧
          (s.thread .writer).body.answers = [.add 0 true, .add 1 false])
        (by decide +kernel : ((guarded (myMutex Role) queueBody).runIf (fun _ _ => true)
          mutexBeginning (List.replicate 49 .writer ++ List.replicate 28 .reader)).any _ = true)
    exact ⟨s, hrun, hreader, hwriter, ((lockedQueue 1).1 _ htids s hs).2 hfree⟩
  · have hstart : Starts StartsSpinlock (StartsQueue 1) spinlockBeginning := by
      refine ⟨⟨rfl, fun i => ?_⟩, hqueue _ _ _, fun i => ?_⟩
      · cases i <;> exact ⟨_, rfl⟩
      · cases i <;> rfl
    obtain ⟨s, hrun, hs, hfree, hreader, hwriter⟩ :=
      (Program.ReachableUnder.start hstart).exists_runIf (P := guarded (mySpinlock Role) queueBody)
        (fun _ _ _ => trivial)
        (fun s => s.shared.1 = 1 ∧ (s.thread .reader).body.answers = [.get (some 0)] ∧
          (s.thread .writer).body.answers = [.add 0 true, .add 1 false])
        (by decide +kernel : ((guarded (mySpinlock Role) queueBody).runIf (fun _ _ => true)
          spinlockBeginning (List.replicate 33 .writer ++ List.replicate 20 .reader)).any _ = true)
    exact ⟨s, hrun, hreader, hwriter, ((lockedQueue 1).2 s hs).2 hfree⟩

end LockedQueue
end OperatingSystems
