import OperatingSystems.BoundedQueue.Refinement

/-!
# One writer and one reader

* `Thread.Progress` — what a step means for the client of a thread.
* `Writes`, `Reads`, `Monitors` — the loops of `queue-threads.c` between two steps.
* `boundedQueue` — the queue refines an atomic queue, and the reader gets what the writer
  counts.
-/

namespace OperatingSystems
namespace BoundedQueue

open Threads Fifo

/-- What a thread is doing. -/
inductive Kind
  | idle
  | add
  | get
  | stats
  | stopped
  deriving DecidableEq

def Update.kind : Update → Kind
  | .addAttempts | .addLength | .addCount => .add
  | .getAttempts | .getLength | .getCount => .get

def Pc.kind : Pc → Kind
  | .call => .idle
  | .getLock | .getAssert | .getEmpty | .getWait | .getAsleep | .getRelock => .get
  | .getUnlockEmpty | .getTmp | .getVal | .getNext | .getBroadcast | .getUnlock | .getFree => .get
  | .load u | .store u => u.kind
  | .statsPrint | .statsLock | .statsLockedPrint | .statsUnlock => .stats
  | .aborted | .outOfMemory => .stopped
  | _ => .add

def Call.kind : Call → Kind
  | .add _ => .add
  | .get => .get
  | .printStats => .stats

namespace Thread

variable {ι κ : Type*} {v : Version} {C : Client κ} {memory : Memory ι} {t : Thread κ} {o : Op}

/-- A step goes on with a call, begins one or returns from one. -/
inductive Progress (C : Client κ) (t t' : Thread κ) : Prop
  | stay (client : t'.client = t.client) (log : t'.log = t.log)
      (kind : t'.pc.kind = t.pc.kind ∨ t'.pc.kind = .stopped)
      (val : t.pc.kind = .add → t'.val = t.val)
  | call (c : Call) (hc : C.call t.client = some c) (client : t'.client = t.client)
      (log : t'.log = t.log) (kind : t'.pc.kind = c.kind) (val : ∀ x, c = .add x → t'.val = x)
  | ret (e : Event Int) (client : t'.client = C.answer t.client (some e))
      (log : t'.log = t.log ++ [e]) (kind : t'.pc.kind = .idle)
      (event : (t.pc.kind = .add ∧ ∃ ok, e = .add t.val ok) ∨
        (t.pc.kind = .get ∧ ∃ r, e = .get r ∧ (r ≠ none → t.pending = [e])))
  | printed (client : t'.client = C.answer t.client none) (log : t'.log = t.log)
      (kind : t'.pc.kind = .idle) (stats : t.pc.kind = .stats)

theorem progress_resume (hop : t.op C = some o) : Progress C t (t.resume v C memory) := by
  unfold op at hop
  unfold resume
  cases hpc : t.pc <;> simp only [hpc, Option.some.injEq, reduceCtorEq] at hop
  case call =>
    obtain ⟨c, hc, -⟩ := Option.map_eq_some_iff.mp hop
    rw [hc]
    cases c <;> cases v <;> exact .call _ hc rfl rfl rfl (by simp)
  case addUnlockFull =>
    by_cases hv : v = .spinloc <;> simp only [hv, if_true, if_false]
    · exact .stay rfl rfl (.inl (by rw [hpc]; rfl)) fun _ => rfl
    · exact .ret _ rfl rfl rfl (.inl ⟨by rw [hpc]; rfl, false, rfl⟩)
  case addFreeFull => exact .ret _ rfl rfl rfl (.inl ⟨by rw [hpc]; rfl, false, rfl⟩)
  case addUnlock => exact .ret _ rfl rfl rfl (.inl ⟨by rw [hpc]; rfl, true, rfl⟩)
  case getUnlockEmpty =>
    exact .ret _ rfl rfl rfl (.inr ⟨by rw [hpc]; rfl, none, rfl, fun h => absurd rfl h⟩)
  case getFree =>
    exact .ret _ rfl rfl rfl (.inr ⟨by rw [hpc]; rfl, some _, rfl, fun _ => by simp [pending, hpc]⟩)
  case statsPrint => exact .printed rfl rfl rfl (by rw [hpc]; rfl)
  case statsUnlock => exact .printed rfl rfl rfl (by rw [hpc]; rfl)
  case getVal => exact .stay rfl rfl (.inl (by rw [hpc]; rfl)) fun h => by simp [hpc, Pc.kind] at h
  case store u => cases u <;> cases v <;> exact .stay rfl rfl (.inl (by rw [hpc]; rfl)) fun _ => rfl
  -- The tests do not leave the call.
  all_goals
    dsimp only
    repeat' split
    all_goals
      exact .stay rfl rfl (by rw [hpc]; first | exact .inl rfl | exact .inr rfl) fun _ => rfl

theorem pending_add (h : t.pc.kind = .add) :
    t.pending = [] ∨ ∃ ok, t.pending = [.add t.val ok] := by
  unfold Pc.kind at h
  unfold pending
  cases hpc : t.pc <;> simp only [hpc, reduceCtorEq] at h ⊢
  case load u => cases u <;> simp_all [Update.kind]
  case store u => cases u <;> simp_all [Update.kind]
  all_goals simp

theorem pending_get (h : t.pc.kind = .get) : t.pending = [] ∨ ∃ r, t.pending = [.get r] := by
  unfold Pc.kind at h
  unfold pending
  cases hpc : t.pc <;> simp only [hpc, reduceCtorEq] at h ⊢
  case load u => cases u <;> simp_all [Update.kind]
  case store u => cases u <;> simp_all [Update.kind]
  all_goals simp

theorem pending_other (hadd : t.pc.kind ≠ .add) (hget : t.pc.kind ≠ .get) : t.pending = [] := by
  unfold Pc.kind at hadd hget
  unfold pending
  cases hpc : t.pc <;> simp only [hpc, ne_eq, not_true_eq_false] at hadd hget ⊢
  case load u => cases u <;> simp_all [Update.kind]
  case store u => cases u <;> simp_all [Update.kind]

end Thread

/-- The values that the writer counts. -/
def values (n : Nat) : List Int :=
  (List.range n).map fun k : Nat => toInt32 k

theorem values_succ (n : Nat) : values (n + 1) = values n ++ [toInt32 n] := by
  simp [values, List.range_succ]

theorem eq_values_of_prefix {l : List Int} {m : Nat} (h : l <+: values m) :
    l = values l.length := by
  have htake := List.prefix_iff_eq_take.mp h
  have hle : l.length ≤ m := by simpa [values] using h.length_le
  calc l = (values m).take l.length := htake
    _ = values l.length := by
        rw [values, ← List.map_take, List.take_range, Nat.min_eq_left hle, values]

theorem toInt32_succ (n : Nat) : toInt32 (toInt32 n + 1) = toInt32 (n + 1 : Nat) := by
  simp [toInt32]

/-- The writer has added `n` values. -/
structure Writes (t : Thread Party) (n : Nat) : Prop where
  client : t.client = .writer (toInt32 n)
  added : t.log.filterMap Event.added = values n
  got : t.log.filterMap Event.got = []
  kind : t.pc.kind = .idle ∨ (t.pc.kind = .add ∧ t.val = toInt32 n) ∨ t.pc.kind = .stopped

/-- The reader has got `n` values, all of them as expected. -/
structure Reads (t : Thread Party) (n : Nat) : Prop where
  client : t.client = .reader (toInt32 n) false
  added : t.log.filterMap Event.added = []
  got : t.log.filterMap Event.got = values n
  kind : t.pc.kind = .idle ∨ t.pc.kind = .get ∨ t.pc.kind = .stopped

/-- The monitor only prints. -/
structure Monitors (t : Thread Party) : Prop where
  client : t.client = .qmonitor
  log : t.log = []
  kind : t.pc.kind = .idle ∨ t.pc.kind = .stats ∨ t.pc.kind = .stopped

section Roles

variable {t t' : Thread Party} {n : Nat}

theorem Writes.progress (h : Writes t n) (hstep : Thread.Progress queueThreads t t') :
    ∃ m, Writes t' m := by
  cases hstep with
  | stay client log kind val =>
      refine ⟨n, client ▸ h.client, log ▸ h.added, log ▸ h.got, ?_⟩
      rcases kind with kind | kind
      · rw [kind]
        exact h.kind.imp_right fun hk => hk.imp_left fun hadd => ⟨hadd.1, (val hadd.1).trans hadd.2⟩
      · exact .inr (.inr kind)
  | call c hc client log kind val =>
      rw [h.client] at hc
      obtain rfl := Option.some.inj hc
      exact ⟨n, client ▸ h.client, log ▸ h.added, log ▸ h.got, .inr (.inl ⟨kind, val _ rfl⟩)⟩
  | ret e client log kind event =>
      obtain ⟨hadd, ok, rfl⟩ : t.pc.kind = .add ∧ ∃ ok, e = .add t.val ok := by
        refine event.resolve_right fun hget => ?_
        rcases h.kind with hk | ⟨hk, -⟩ | hk <;> simp [hk] at hget
      have hval : t.val = toInt32 n := by
        rcases h.kind with hk | ⟨-, hval⟩ | hk
        · simp [hk] at hadd
        · exact hval
        · simp [hk] at hadd
      have hgot : t'.log.filterMap Event.got = [] := by
        rw [log, List.filterMap_append, h.got]
        rfl
      cases ok with
      | false =>
          refine ⟨n, ?_, ?_, hgot, .inl kind⟩
          · rw [client, h.client]
            rfl
          · rw [log, List.filterMap_append, h.added]
            simp [Event.added]
      | true =>
          refine ⟨n + 1, ?_, ?_, hgot, .inl kind⟩
          · rw [client, h.client, hval, ← toInt32_succ]
            rfl
          · rw [log, List.filterMap_append, h.added, values_succ, hval]
            rfl
  | printed client log kind stats => rcases h.kind with hk | ⟨hk, -⟩ | hk <;> simp [hk] at stats

/-- The values that the writer has put into the queue. -/
theorem Writes.operations (h : Writes t n) :
    ∃ m, (t.log ++ t.pending).filterMap Event.added = values m := by
  rw [List.filterMap_append, h.added]
  rcases h.kind with hk | ⟨hk, hval⟩ | hk
  · exact ⟨n, by simp [Thread.pending_other, hk]⟩
  · rcases t.pending_add hk with hpending | ⟨ok, hpending⟩ <;> rw [hpending]
    · exact ⟨n, by simp⟩
    · cases ok with
      | false => exact ⟨n, by simp [Event.added]⟩
      | true => exact ⟨n + 1, by rw [values_succ, hval]; rfl⟩
  · exact ⟨n, by simp [Thread.pending_other, hk]⟩

theorem Writes.got_nil (h : Writes t n) : (t.log ++ t.pending).filterMap Event.got = [] := by
  rw [List.filterMap_append, h.got]
  rcases h.kind with hk | ⟨hk, -⟩ | hk
  · simp [Thread.pending_other, hk]
  · rcases t.pending_add hk with hpending | ⟨ok, hpending⟩ <;> rw [hpending] <;> rfl
  · simp [Thread.pending_other, hk]

theorem Reads.added_nil (h : Reads t n) : (t.log ++ t.pending).filterMap Event.added = [] := by
  rw [List.filterMap_append, h.added]
  rcases h.kind with hk | hk | hk
  · simp [Thread.pending_other, hk]
  · rcases t.pending_get hk with hpending | ⟨r, hpending⟩ <;> rw [hpending] <;> rfl
  · simp [Thread.pending_other, hk]

/-- The reader expects the value that it gets, if the values come in order. -/
theorem Reads.progress (h : Reads t n) (hstep : Thread.Progress queueThreads t t')
    (horder : ∃ m, (t.log ++ t.pending).filterMap Event.got <+: values m) : ∃ m, Reads t' m := by
  cases hstep with
  | stay client log kind val =>
      refine ⟨n, client ▸ h.client, log ▸ h.added, log ▸ h.got, ?_⟩
      rcases kind with kind | kind
      · rw [kind]
        exact h.kind
      · exact .inr (.inr kind)
  | call c hc client log kind val =>
      rw [h.client] at hc
      obtain rfl := Option.some.inj hc
      exact ⟨n, client ▸ h.client, log ▸ h.added, log ▸ h.got, .inr (.inl kind)⟩
  | ret e client log kind event =>
      obtain ⟨-, r, rfl, hpending⟩ := event.resolve_left fun hadd => by
        rcases h.kind with hk | hk | hk <;> simp [hk] at hadd
      have hadded : t'.log.filterMap Event.added = [] := by
        rw [log, List.filterMap_append, h.added]
        rfl
      have hgot : t'.log.filterMap Event.got = values n ++ r.toList := by
        rw [log, List.filterMap_append, h.got]
        cases r <;> rfl
      cases r with
      | none =>
          refine ⟨n, ?_, hadded, by simpa using hgot, .inl kind⟩
          rw [client, h.client]
          rfl
      | some val =>
          obtain ⟨m, hm⟩ := horder
          have hval : val = toInt32 n := by
            rw [hpending nofun, ← log] at hm
            have heq := eq_values_of_prefix (hgot ▸ hm)
            have hlength : (values n ++ [val]).length = n + 1 := by simp [values]
            rw [Option.toList_some, hlength, values_succ] at heq
            simpa using heq
          refine ⟨n + 1, ?_, hadded, ?_, .inl kind⟩
          · rw [client, h.client, hval, ← toInt32_succ]
            simp [queueThreads]
          · rw [hgot, hval, values_succ]
            rfl
  | printed client log kind stats => rcases h.kind with hk | hk | hk <;> simp [hk] at stats

theorem Monitors.progress (h : Monitors t) (hstep : Thread.Progress queueThreads t t') :
    Monitors t' := by
  cases hstep with
  | stay client log kind val =>
      refine ⟨client ▸ h.client, log ▸ h.log, ?_⟩
      rcases kind with kind | kind
      · rw [kind]
        exact h.kind
      · exact .inr (.inr kind)
  | call c hc client log kind val =>
      rw [h.client] at hc
      obtain rfl := Option.some.inj hc
      exact ⟨client ▸ h.client, log ▸ h.log, .inr (.inl kind)⟩
  | ret e client log kind event =>
      rcases h.kind with hk | hk | hk <;> simp [hk] at event
  | printed client log kind stats =>
      refine ⟨?_, log ▸ h.log, .inl kind⟩
      rw [client, h.client]
      rfl

theorem Monitors.operations_nil (h : Monitors t) : t.log ++ t.pending = [] := by
  rw [h.log, List.nil_append]
  rcases h.kind with hk | hk | hk <;> exact t.pending_other (by simp [hk]) (by simp [hk])

end Roles

theorem filterMap_operations {ι : Type*} [DecidableEq ι] {i : ι} (f : Event Int → Option Int)
    {events : List (ι × Event Int)} (h : ∀ j, j ≠ i → (operations j events).filterMap f = []) :
    events.filterMap (fun e => f e.2) = (operations i events).filterMap f := by
  unfold operations
  rw [List.filterMap_filterMap]
  refine List.filterMap_congr fun e he => ?_
  by_cases hi : e.1 = i
  · simp [hi]
  · have hmem : e.2 ∈ operations e.1 events := List.mem_filterMap.mpr ⟨e, he, by simp⟩
    simp [hi, List.filterMap_eq_nil_iff.mp (h e.1 hi) e.2 hmem]

/-- The three threads are at their places in `queue-threads.c`. -/
structure InLoops (s : State Role (Memory Role) (Thread Party)) : Prop where
  writer : ∃ n, Writes (s.thread .writer) n
  reader : ∃ n, Reads (s.thread .reader) n
  qmonitor : Monitors (s.thread .qmonitor)

namespace InLoops

variable {v : Version} {maxCount : Nat} {s : State Role (Memory Role) (Thread Party)} {l : List Nat}

/-- What has come out of the queue went to the reader. -/
theorem got_eq (h : InLoops s) (hinv : Invariant v maxCount s l) :
    s.shared.events.filterMap (fun e => e.2.got) =
      ((s.thread .reader).log ++ (s.thread .reader).pending).filterMap Event.got := by
  rw [filterMap_operations (i := Role.reader), hinv.logged]
  intro j hj
  rw [hinv.logged j]
  cases j with
  | writer =>
      obtain ⟨n, hwrites⟩ := h.writer
      exact hwrites.got_nil
  | reader => exact absurd rfl hj
  | qmonitor =>
      rw [h.qmonitor.operations_nil]
      rfl

/-- What has gone into the queue came from the writer. -/
theorem added_eq (h : InLoops s) (hinv : Invariant v maxCount s l) :
    ∃ n, s.shared.events.filterMap (fun e => e.2.added) = values n := by
  obtain ⟨n, hwrites⟩ := h.writer
  obtain ⟨m, hm⟩ := hwrites.operations
  refine ⟨m, ?_⟩
  rw [filterMap_operations (i := Role.writer), hinv.logged, hm]
  intro j hj
  rw [hinv.logged j]
  cases j with
  | writer => exact absurd rfl hj
  | reader =>
      obtain ⟨n, hreads⟩ := h.reader
      exact hreads.added_nil
  | qmonitor =>
      rw [h.qmonitor.operations_nil]
      rfl

/-- The reader's values come in the order of the writer. -/
theorem inOrder (h : InLoops s) (hinv : Invariant v maxCount s l) :
    ∃ n, ((s.thread .reader).log ++ (s.thread .reader).pending).filterMap Event.got <+:
      values n := by
  obtain ⟨n, hn⟩ := h.added_eq hinv
  refine ⟨n, ?_⟩
  rw [← hn, ← h.got_eq hinv]
  exact hinv.correct.inOrder

theorem start (hs : StartsMain maxCount s) : InLoops s := by
  obtain ⟨-, ⟨a, hwriter⟩, ⟨b, hreader⟩, ⟨c, hmonitor⟩⟩ := hs
  refine ⟨⟨0, ?_⟩, ⟨0, ?_⟩, ?_⟩
  · rw [hwriter]
    exact ⟨rfl, rfl, rfl, .inl rfl⟩
  · rw [hreader]
    exact ⟨rfl, rfl, rfl, .inl rfl⟩
  · rw [hmonitor]
    exact ⟨rfl, rfl, .inl rfl⟩

theorem advance {i : Role} {o : Op} {memory : Memory Role} (h : InLoops s)
    (hinv : Invariant v maxCount s l) (hop : (s.thread i).op queueThreads = some o) :
    InLoops (s.advance i memory ((s.thread i).resume v queueThreads s.shared)) := by
  have hstep : Thread.Progress queueThreads (s.thread i)
      ((s.thread i).resume v queueThreads s.shared) := Thread.progress_resume hop
  have hself := State.advance_thread_self s i memory ((s.thread i).resume v queueThreads s.shared)
  have hother : ∀ {j}, j ≠ i →
      (s.advance i memory ((s.thread i).resume v queueThreads s.shared)).thread j = s.thread j :=
    fun hj => State.advance_thread_of_ne s memory _ hj
  obtain ⟨n, hwriter⟩ := h.writer
  obtain ⟨m, hreader⟩ := h.reader
  cases i with
  | writer =>
      refine ⟨hself ▸ hwriter.progress hstep, ⟨m, ?_⟩, ?_⟩
      · rw [hother (j := .reader) nofun]
        exact hreader
      · rw [hother (j := .qmonitor) nofun]
        exact h.qmonitor
  | reader =>
      refine ⟨⟨n, ?_⟩, hself ▸ hreader.progress hstep (h.inOrder hinv), ?_⟩
      · rw [hother (j := .writer) nofun]
        exact hwriter
      · rw [hother (j := .qmonitor) nofun]
        exact h.qmonitor
  | qmonitor =>
      refine ⟨⟨n, ?_⟩, ⟨m, ?_⟩, hself ▸ h.qmonitor.progress hstep⟩
      · rw [hother (j := .writer) nofun]
        exact hwriter
      · rw [hother (j := .reader) nofun]
        exact hreader

end InLoops

/-- The writer has counted, and the reader has got the same values in the same order. -/
structure Delivered (s : State Role (Memory Role) (Thread Party)) : Prop where
  added : ∃ n, s.shared.events.filterMap (fun e => e.2.added) = values n
  got : ∃ n, s.shared.events.filterMap (fun e => e.2.got) = values n
  reader : ∃ n, (s.thread .reader).log.filterMap Event.got = values n ∧
    (s.thread .reader).client = .reader (toInt32 n) false

theorem InLoops.delivered {v : Version} {maxCount : Nat}
    {s : State Role (Memory Role) (Thread Party)} {l : List Nat} (h : InLoops s)
    (hinv : Invariant v maxCount s l) : Delivered s := by
  obtain ⟨n, hreader⟩ := h.reader
  refine ⟨h.added_eq hinv, ?_, n, hreader.got, hreader.client⟩
  obtain ⟨m, hm⟩ := h.inOrder hinv
  rw [h.got_eq hinv]
  exact ⟨_, eq_values_of_prefix hm⟩

theorem StartsMain.starts {maxCount : Nat} {s : State Role (Memory Role) (Thread Party)}
    (hs : StartsMain maxCount s) : Starts maxCount s := by
  obtain ⟨hshared, ⟨a, hwriter⟩, ⟨b, hreader⟩, ⟨c, hmonitor⟩⟩ := hs
  refine ⟨hshared, fun i => ?_⟩
  cases i with
  | writer => exact ⟨_, a, hwriter⟩
  | reader => exact ⟨_, b, hreader⟩
  | qmonitor => exact ⟨_, c, hmonitor⟩

/-- In every version the queue is one atomic queue of at most `maxCount` values, for every
client and any number of threads; the reader of `queue-threads.c` gets `0`, `1`, `2`, and
so on. -/
theorem boundedQueue (v : Version) (maxCount : Nat) :
    (∀ (ι κ : Type*) [DecidableEq ι] (C : Client κ) (s : State ι (Memory ι) (Thread κ)),
      (threads v C ι).Reachable (Starts maxCount) s → Correct v maxCount s) ∧
    ∀ s, (threads v queueThreads Role).Reachable (StartsMain maxCount) s → Delivered s := by
  refine ⟨fun ι κ _ C s hs => ?_, fun s hs => ?_⟩
  · obtain ⟨l, h⟩ := Invariant.of_reachable (fun _ => id) hs
    exact h.correct
  · obtain ⟨⟨l, hinv⟩, hloops⟩ := hs.induction
      (I := fun s => (∃ l, Invariant v maxCount s l) ∧ InLoops s)
      (fun s h => ⟨⟨[], .start h.starts⟩, .start h⟩) fun s i o memory _ h _ hop hexec => by
        obtain ⟨⟨l, hinv⟩, hloops⟩ := h
        exact ⟨⟨_, hinv.advance hop hexec⟩, hloops.advance hinv hop⟩
    exact hloops.delivered hinv

/-- `main` with a queue for one value; every address is used once. -/
def mainState : State Role (Memory Role) (Thread Party) where
  shared := .init 1
  thread
    | .writer => .start (.writer 0) some
    | .reader => .start (.reader 0 false) some
    | .qmonitor => .start .qmonitor some

/-- The writer adds a value and waits for the reader before it adds the next one. -/
def fullSchedule : List Role :=
  List.replicate 27 .writer ++ List.replicate 16 .reader ++ List.replicate 13 .writer ++
    List.replicate 16 .reader

theorem boundedQueue_waited :
    ∃ s ∈ (threads .conditionalVarible queueThreads Role).runIf (fun _ _ => true) mainState
        fullSchedule,
      s.shared.events.map Prod.snd = [.add 0 true, .get (some 0), .add 1 true, .get (some 1)] ∧
        (s.thread .reader).client = .reader 2 false ∧
        Correct .conditionalVarible 1 s ∧ Delivered s := by
  have hmain : StartsMain 1 mainState := ⟨rfl, ⟨some, rfl⟩, ⟨some, rfl⟩, ⟨some, rfl⟩⟩
  obtain ⟨s, hrun, hs, hevents, hclient⟩ :=
    (Program.ReachableUnder.start hmain).exists_runIf (fun _ _ _ => trivial)
      (fun s => s.shared.events.map Prod.snd =
        [.add 0 true, .get (some 0), .add 1 true, .get (some 1)] ∧
        (s.thread .reader).client = .reader 2 false)
      (by decide +kernel : ((threads .conditionalVarible queueThreads Role).runIf
        (fun _ _ => true) mainState fullSchedule).any _ = true)
  have hqueue := boundedQueue.{0, 0} .conditionalVarible 1
  exact ⟨s, hrun, hevents, hclient, hqueue.1 Role Party queueThreads s
    (hs.mono (fun _ h => h.starts) fun _ _ _ => trivial), hqueue.2 s hs⟩

end BoundedQueue
end OperatingSystems
