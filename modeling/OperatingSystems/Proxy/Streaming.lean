import OperatingSystems.Proxy.NoStuck

/-!
# Streaming from an entry

A reader goes along the nodes of an entry while the loader appends to them.  Its
position is a number of nodes, and what it has sent are the nodes before its
position.

* `Streams` — what a reader has sent, statement by statement.
* `Streams.resume` — one step of the reader; `Streams.append` — the list grows.
* `streaming_exact` — as long as a reader that looks for the node after the one it
  has sent finds it, or finds the list complete, it sends every node once and in
  order.

Otherwise `current` becomes `NULL`, and `list_wait_for_data` starts again at the
first node.  The run in `streaming_repeats` does so.
-/

namespace OperatingSystems
namespace Proxy

open Threads

/-! ### The position of a reader -/

/-- The handler leaves its streaming loop at one of the two `break` statements. -/
def Pc.breaks : Pc → Bool
  | .waitReturn more => !more
  | .stateUnlock next isComplete => next.isNone && isComplete
  | _ => false

/-- What a handler has sent from its entry. -/
def Streams (c : Cache) (t : Handler) : Prop :=
  match t.pc with
  | .waitLock | .waitCheck | .waitSleep | .waitAsleep | .waitRelock =>
      t.current = none ∧ t.sent = []
  | .waitReturn true => t.current = some 0 ∧ 0 < c.nodes.length ∧ t.sent = []
  | .rdlock node | .send node => node < c.nodes.length ∧ t.sent = c.nodes.take node
  | .rdunlock node _ | .stateLock node | .stateRead node =>
      node < c.nodes.length ∧ t.sent = c.nodes.take (node + 1)
  | .stateUnlock (some node) _ => node < c.nodes.length ∧ t.sent = c.nodes.take node
  | .waitReturn false | .stateUnlock none _ =>
      t.pc.breaks = true ∧ c.complete = true ∧ t.sent = c.nodes
  | .returned => t.sent <+: c.nodes
  | _ => t.sent = []

/-- When handler `i` looks for the node after the one it has sent, there is one, or
the list is complete. -/
def findsNext (s : State Nat Memory Handler) (i : Nat) : Bool :=
  match (s.thread i).pc with
  | .stateRead node =>
      ((s.shared.cache (s.thread i).cacheNode).nextNode node).isSome ||
        (s.shared.cache (s.thread i).cacheNode).complete
  | _ => true

/-- Outside the hit path nothing has been sent yet. -/
theorem Streams.sent_nil {c : Cache} {t : Handler} (h : Streams c t)
    (hhit : t.pc.role ≠ .hit) (hdone : t.pc.role ≠ .done) : t.sent = [] := by
  unfold Streams at h
  revert h hhit hdone
  cases t.pc <;> simp [Pc.role]

/-- During the lookup nothing has been sent yet. -/
theorem Streams.of_lookup {c : Cache} {t : Handler} (h : t.pc.role = .lookup)
    (hsent : t.sent = []) : Streams c t := by
  unfold Streams
  revert h
  cases t.pc <;> simp [Pc.role, hsent]

/-- The hit path is entered with nothing sent. -/
theorem Streams.of_sent_nil {memory : Memory} {c : Cache} {t : Handler}
    (hsent : (t.resume memory).sent = []) (hhit : t.pc.role ≠ .hit) :
    Streams c (t.resume memory) := by
  have hfollows := t.follows_resume memory
  unfold Streams
  rw [hsent]
  generalize (t.resume memory).pc = next at hfollows ⊢
  generalize t.pc = pc at hfollows hhit
  cases hfollows <;> simp_all [Pc.role]

/-! ### One step -/

theorem Cache.first_eq_some {c : Cache} {node : Nat} (h : c.first = some node) :
    node = 0 ∧ 0 < c.nodes.length := by
  unfold first at h
  split at h
  · simp at h
  · next hnodes => exact ⟨(Option.some.inj h).symm, List.length_pos_iff.mpr hnodes⟩

theorem Cache.first_eq_none {c : Cache} (h : c.first = none) : c.nodes = [] := by
  unfold first at h
  split at h
  · assumption
  · simp at h

theorem Cache.nextNode_eq_some {c : Cache} {node next : Nat} (h : c.nextNode node = some next) :
    next = node + 1 ∧ node + 1 < c.nodes.length := by
  unfold nextNode at h
  split at h
  · next hlt => exact ⟨(Option.some.inj h).symm, hlt⟩
  · simp at h

theorem Cache.nextNode_eq_none {c : Cache} {node : Nat} (h : c.nextNode node = none) :
    c.nodes.length ≤ node + 1 := by
  unfold nextNode at h
  split at h
  · simp at h
  · omega

/-- A step on the hit path. -/
theorem Streams.resume {memory : Memory} {t : Handler}
    (h : Streams (memory.cache t.cacheNode) t) (hhit : t.pc.role = .hit)
    (hok : ∀ node, t.pc = .stateRead node →
      (memory.cache t.cacheNode).nextNode node = none →
        (memory.cache t.cacheNode).complete = true) :
    Streams (memory.cache t.cacheNode) (t.resume memory) := by
  -- What was sent is the part of the list in front of the node that the handler holds.
  cases hpc : t.pc <;> simp only [hpc, Pc.role, reduceCtorEq] at hhit <;>
    simp only [Handler.resume, hpc] <;> rw [Streams, hpc] at h
  case readFirst =>
    simp only [Handler.streamFrom]
    cases hfirst : (memory.cache t.cacheNode).first with
    | none => exact ⟨rfl, h⟩
    | some node =>
        obtain ⟨rfl, hpos⟩ := Cache.first_eq_some hfirst
        exact ⟨hpos, h⟩
  case waitCheck =>
    obtain ⟨hcurrent, hsent⟩ := h
    simp only [Handler.waitRound, Cache.successor, hcurrent]
    cases hfirst : (memory.cache t.cacheNode).first with
    | some node =>
        obtain ⟨rfl, hpos⟩ := Cache.first_eq_some hfirst
        exact ⟨rfl, hpos, hsent⟩
    | none =>
        cases hcomplete : (memory.cache t.cacheNode).complete with
        | true => exact ⟨rfl, hcomplete, hsent.trans (Cache.first_eq_none hfirst).symm⟩
        | false => exact ⟨rfl, hsent⟩
  case waitReturn more =>
    cases more with
    | true =>
        obtain ⟨hcurrent, hpos, hsent⟩ := h
        simp only [Handler.streamFrom, hcurrent]
        exact ⟨hpos, hsent⟩
    | false => exact h.2.2 ▸ List.prefix_rfl
  case send node =>
    obtain ⟨hlt, hsent⟩ := h
    refine ⟨hlt, ?_⟩
    simp only [Handler.sendNode, hsent, List.take_add_one]
    rw [List.getD_eq_getElem?_getD, List.getElem?_eq_getElem hlt, Option.getD_some,
      Option.toList_some]
  case rdunlock node ok =>
    cases ok with
    | true => exact h
    | false => exact h.2 ▸ List.take_prefix _ _
  case stateRead node =>
    obtain ⟨hlt, hsent⟩ := h
    cases hnext : (memory.cache t.cacheNode).nextNode node with
    | some next =>
        obtain ⟨rfl, hbound⟩ := Cache.nextNode_eq_some hnext
        exact ⟨hbound, hsent⟩
    | none =>
        -- At the end of the list the handler stops only because the entry is complete.
        have hcomplete := hok node hpc hnext
        refine ⟨by simpa [Pc.breaks] using hcomplete, hcomplete, hsent.trans ?_⟩
        exact List.take_of_length_le (Cache.nextNode_eq_none hnext)
  case stateUnlock next isComplete =>
    cases next with
    | some node => exact h
    | none =>
        obtain ⟨hbreaks, -, hsent⟩ := h
        simp only [Pc.breaks, Option.isNone_none, Bool.true_and] at hbreaks
        simp only [hbreaks]
        exact hsent ▸ List.prefix_rfl
  all_goals exact h

/-- The list grows under a reader, but not while it is leaving. -/
theorem Streams.append {c c' : Cache} {t : Handler} (h : Streams c t)
    (hgrow : c.nodes <+: c'.nodes) (hcomplete : c.complete = true → c'.complete = true)
    (hbreaks : t.pc.breaks = true → c'.nodes = c.nodes) : Streams c' t := by
  have hle := hgrow.length_le
  have htake {k : Nat} (hk : k ≤ c.nodes.length) : c'.nodes.take k = c.nodes.take k := by
    obtain ⟨more, hmore⟩ := hgrow
    rw [← hmore]
    exact List.take_append_of_le_length hk
  obtain ⟨pc, loader, env, stale, cacheNode, added, current, prev, chunk, sent⟩ := t
  cases pc <;> try exact h
  case waitReturn more =>
    cases more with
    | true => exact ⟨h.1, h.2.1.trans_le hle, h.2.2⟩
    | false => exact ⟨h.1, hcomplete h.2.1, h.2.2.trans (hbreaks h.1).symm⟩
  case rdlock node => exact ⟨h.1.trans_le hle, h.2.trans (htake h.1.le).symm⟩
  case send node => exact ⟨h.1.trans_le hle, h.2.trans (htake h.1.le).symm⟩
  case rdunlock node ok => exact ⟨h.1.trans_le hle, h.2.trans (htake h.1).symm⟩
  case stateLock node => exact ⟨h.1.trans_le hle, h.2.trans (htake h.1).symm⟩
  case stateRead node => exact ⟨h.1.trans_le hle, h.2.trans (htake h.1).symm⟩
  case stateUnlock next isComplete =>
    cases next with
    | some node => exact ⟨h.1.trans_le hle, h.2.trans (htake h.1.le).symm⟩
    | none => exact ⟨h.1, hcomplete h.2.1, h.2.2.trans (hbreaks h.1).symm⟩
  case returned => exact List.IsPrefix.trans h hgrow

/-! ### All runs -/

/-- A handler that is leaving its streaming loop holds the mutex of the list. -/
theorem Handler.list_mem_held_of_breaks {t : Handler} (h : t.pc.breaks = true) :
    (Lock.list t.cacheNode, Mode.write) ∈ t.held := by
  unfold held
  revert h
  cases t.pc <;> simp [Pc.breaks]

/-- A reader does not change the nodes of its list. -/
theorem nodes_of_hit {ok : State Nat Memory Handler → Nat → Prop} {s : State Nat Memory Handler}
    (hs : server.ReachableUnder Starts ok s) {i : Nat} {o : Op} {memory : Memory}
    (hhit : (s.thread i).pc.role = .hit) (hop : (s.thread i).op = some o)
    (hexec : o.exec i s.shared = some memory) :
    (memory.cache (s.thread i).cacheNode).nodes =
      (s.shared.cache (s.thread i).cacheNode).nodes := by
  refine Op.nodes_eq hexec (cacheNode_lt hs (by simp [hhit])) fun value ho => ?_
  obtain ⟨⟨site, hpc⟩, -⟩ := Handler.op_listAdd (ho ▸ hop)
  simp [hpc, Pc.role] at hhit

section Reachable

variable {s : State Nat Memory Handler}

/-- In every run, every reader has sent the nodes before its position. -/
theorem streams (hs : server.ReachableUnder Starts (fun s i => findsNext s i) s) (i : Nat) :
    Streams (s.shared.cache (s.thread i).cacheNode) (s.thread i) := by
  refine serverThreads
    (L := fun _ memory t => Streams (memory.cache t.cacheNode) t) ?_ ?_ ?_ hs i
  · exact fun i request env stale => rfl
  · intro s i o memory hreach hok hall hop hexec
    by_cases hhit : (s.thread i).pc.role = .hit
    · have hlookup : (s.thread i).pc.role ≠ .lookup := by simp [hhit]
      have hlt := cacheNode_lt hreach hlookup
      have hnodes := nodes_of_hit hreach hhit hop hexec
      rw [((s.thread i).frame s.shared).cacheNode hlookup]
      refine ((hall i).resume hhit fun node hpc hnext => ?_).append
        (hnodes ▸ List.prefix_rfl) (Op.complete_mono hexec hlt) fun _ => hnodes
      simpa [findsNext, hpc, hnext] using hok
    · refine .of_sent_nil ?_ hhit
      rw [((s.thread i).frame s.shared).sent fun node hpc => hhit (by rw [hpc]; rfl)]
      exact (hall i).sent_nil hhit (Handler.role_ne_done hop)
  · intro s i j o memory hreach _ hji hall hop hexec
    by_cases hlookup : (s.thread j).pc.role = .lookup
    · exact .of_lookup hlookup ((hall j).sent_nil (by simp [hlookup]) (by simp [hlookup]))
    · have hlt := cacheNode_lt hreach hlookup
      refine (hall j).append (Op.nodes_grow hexec hlt) (Op.complete_mono hexec hlt) ?_
      -- Whoever adds to the list holds its mutex, which `j` holds.
      exact fun hbreaks => Op.nodes_eq hexec hlt fun value ho => hji (holder_unique hreach
        (Handler.list_mem_held_of_breaks hbreaks) (Handler.list_mem_held_of_listAdd (ho ▸ hop)))

/-- What a handler has sent is a prefix of its entry. -/
theorem Streams.sent_prefix_nodes {c : Cache} {t : Handler} (h : Streams c t) :
    t.sent <+: c.nodes := by
  have hnil (hsent : t.sent = []) : t.sent <+: c.nodes := hsent ▸ List.nil_prefix
  have htake {k : Nat} (hsent : t.sent = c.nodes.take k) : t.sent <+: c.nodes :=
    hsent ▸ List.take_prefix _ _
  cases hpc : t.pc <;> rw [Streams, hpc] at h
  case waitReturn more =>
    cases more with
    | true => exact hnil h.2.2
    | false => exact h.2.2 ▸ List.prefix_rfl
  case stateUnlock next isComplete =>
    cases next with
    | some node => exact htake h.2
    | none => exact h.2.2 ▸ List.prefix_rfl
  case returned => exact h
  all_goals
    first
      | exact hnil h
      | exact hnil h.2
      | exact htake h.2

/-- At a `break` everything has been sent, and the list is complete. -/
theorem Streams.of_breaks {c : Cache} {t : Handler} (h : Streams c t)
    (hbreaks : t.pc.breaks = true) : c.complete = true ∧ t.sent = c.nodes := by
  cases hpc : t.pc <;> rw [hpc] at hbreaks <;> simp [Pc.breaks] at hbreaks
  case waitReturn more =>
    subst hbreaks
    rw [Streams, hpc] at h
    exact h.2
  case stateUnlock next isComplete =>
    obtain ⟨rfl, rfl⟩ := hbreaks
    rw [Streams, hpc] at h
    exact h.2

/-- A handler that leaves its streaming loop without a send error does so at a `break`. -/
theorem Handler.breaks_of_returned {memory : Memory} {t : Handler} (hhit : t.pc.role = .hit)
    (herror : ∀ node, t.pc ≠ .rdunlock node false) (h : (t.resume memory).pc = .returned) :
    t.pc.breaks = true := by
  have hfollows := t.follows_resume memory
  generalize (t.resume memory).pc = next at h hfollows
  generalize t.pc = pc at hhit herror hfollows ⊢
  cases hfollows <;> simp_all [Pc.role, Pc.breaks]

/-- While every reader that looks for its next node finds it or finds the list
complete: what a handler has sent is at every moment a prefix of its entry, and a
reader that leaves its streaming loop without a send error has sent every node of
a complete list once, in order. -/
theorem streaming_exact (hs : server.ReachableUnder Starts (fun s i => findsNext s i) s) (i : Nat) :
    (s.thread i).sent.flatten <+: (s.shared.cache (s.thread i).cacheNode).nodes.flatten ∧
      ∀ s', server.step s i = some s' → (s.thread i).pc.role = .hit →
        (∀ node, (s.thread i).pc ≠ .rdunlock node false) → (s'.thread i).pc = .returned →
          (s'.shared.cache (s'.thread i).cacheNode).complete = true ∧
            (s'.thread i).sent = (s'.shared.cache (s'.thread i).cacheNode).nodes := by
  have hstreams := streams hs i
  refine ⟨hstreams.sent_prefix_nodes.flatten, fun s' hstep hhit herror hreturned => ?_⟩
  obtain ⟨o, memory, hop, hexec, rfl⟩ := server.step_eq_some_iff.mp hstep
  rw [State.advance_thread_self] at hreturned ⊢
  change ((s.thread i).resume s.shared).pc = .returned at hreturned
  have hbreaks := Handler.breaks_of_returned hhit herror hreturned
  obtain ⟨hcomplete, hsent⟩ := hstreams.of_breaks hbreaks
  have hlookup : (s.thread i).pc.role ≠ .lookup := by simp [hhit]
  have hnode := ((s.thread i).frame s.shared).cacheNode hlookup
  have hsame := ((s.thread i).frame s.shared).sent fun node hpc => by
    simp [hpc, Pc.breaks] at hbreaks
  change (memory.cache ((s.thread i).resume s.shared).cacheNode).complete = true ∧
    ((s.thread i).resume s.shared).sent =
      (memory.cache ((s.thread i).resume s.shared).cacheNode).nodes
  rw [hnode, hsame, nodes_of_hit hs hhit hop hexec]
  exact ⟨Op.complete_mono hexec (cacheNode_lt hs hlookup) hcomplete, hsent⟩

end Reachable

/-- A reader that waits for the lock of the second node while the loader finishes. -/
theorem streaming_exact_growing :
    let start := serving (fun _ => plainRequest) fun _ => answering plainResponse
    let schedule := List.replicate 17 0 ++ List.replicate 10 1 ++ List.replicate 6 0 ++
      List.replicate 5 1
    ∃ s ∈ server.runIf findsNext start schedule, ∃ s' ∈ server.step s 1,
      (s'.thread 1).sent = (s'.shared.cache (s'.thread 1).cacheNode).nodes ∧
        (s'.thread 1).sent.flatten = plainResponse := by
  intro start schedule
  obtain ⟨s, hrun, hs, hpc, hstep⟩ := exists_serving_runIf (fun _ _ => id)
    (fun s => (s.thread 1).pc = .stateUnlock none true ∧
      (server.step s 1).any fun s' =>
        (s'.thread 1).pc = .returned ∧ (s'.thread 1).sent.flatten = plainResponse)
    (by decide +kernel : (server.runIf findsNext start schedule).any _ = true)
  obtain ⟨s', hs', hgoal⟩ := (Option.any_eq_true _ _).mp hstep
  obtain ⟨hreturned, hsent⟩ := of_decide_eq_true hgoal
  refine ⟨s, hrun, s', hs', ?_, hsent⟩
  exact ((streaming_exact hs 1).2 s' hs' (by rw [hpc]; rfl) (by simp [hpc]) hreturned).2

/-- A reader that is faster than the loader, which has published one node and not
yet locked it, sends the header block twice. -/
theorem streaming_repeats :
    let head := bytes "HTTP/1.1 200 OK\r\n\r\n"
    let start := serving (fun _ => plainRequest) fun _ => answering head
    ∃ s ∈ server.runIf (fun _ _ => true) start (List.replicate 10 0 ++ List.replicate 15 1),
      server.Reachable Starts s ∧
      (s.shared.cache (s.thread 1).cacheNode).destroyed = false ∧
      (s.shared.cache (s.thread 1).cacheNode).nodes = [head] ∧
      (s.thread 1).sent = [head, head] ∧
      ¬ (s.thread 1).sent.flatten <+: (s.shared.cache (s.thread 1).cacheNode).nodes.flatten := by
  intro head start
  exact exists_serving_runIf (fun _ _ _ => trivial)
    (fun s => (s.shared.cache (s.thread 1).cacheNode).destroyed = false ∧
      (s.shared.cache (s.thread 1).cacheNode).nodes = [head] ∧
      (s.thread 1).sent = [head, head] ∧
      ¬ (s.thread 1).sent.flatten <+: (s.shared.cache (s.thread 1).cacheNode).nodes.flatten)
    (by decide +kernel)

end Proxy
end OperatingSystems
