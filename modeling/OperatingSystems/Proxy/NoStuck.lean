import OperatingSystems.Proxy.MapChain

/-!
# No handler gets stuck

* `sleepsIdle` — a handler that is parked on the condition variable of a list
  has nothing to read there, and the list is not complete.
* `atTail` — a loader is at the last node of its list, and takes the lock of a new
  node while it holds the one before.
* `noStuckHandler` — with the completion of every entry whose loader has
  returned, and the absence of deadlock: locks are taken in the order map, node,
  next node, list.
-/

namespace OperatingSystems
namespace Proxy

open Threads

/-! ### Parked readers -/

/-- A list has nothing for a reader at `current`, and is not finished. -/
def Cache.Idle (c : Cache) (current : Option Nat) : Prop :=
  c.successor current = none ∧ c.complete = false

/-- A reader goes to sleep, and stays parked, only over an idle list. -/
structure SleepsIdle (i : Nat) (memory : Memory) (t : Handler) : Prop where
  asleep : t.pc = .waitAsleep → i ∈ (memory.cache t.cacheNode).waiters →
    (memory.cache t.cacheNode).Idle t.current
  sleeps : t.pc = .waitSleep → (memory.cache t.cacheNode).Idle t.current

theorem Cache.Idle.congr {c c' : Cache} {current : Option Nat} (h : c.Idle current)
    (hnodes : c'.nodes = c.nodes) (hcomplete : c'.complete = c.complete) : c'.Idle current := by
  refine ⟨?_, hcomplete.trans h.2⟩
  have hsuccessor := h.1
  cases current <;> simpa only [Cache.successor, Cache.first, Cache.nextNode, hnodes] using hsuccessor

namespace Handler

/-- Going to sleep follows a round of `list_wait_for_data` that found nothing. -/
theorem waitSleep_resume {memory : Memory} {t : Handler}
    (h : (t.resume memory).pc = .waitSleep) :
    t.pc = .waitCheck ∧ (t.resume memory).cacheNode = t.cacheNode ∧
      (memory.cache t.cacheNode).Idle (t.resume memory).current := by
  have hcheck : t.pc = .waitCheck := by
    have hfollows := t.follows_resume memory
    rw [h] at hfollows
    generalize t.pc = pc at hfollows ⊢
    cases hfollows
    rfl
  refine ⟨hcheck, ?_⟩
  rw [resume, hcheck] at h ⊢
  simp only [waitRound] at h ⊢
  cases hsuccessor : (memory.cache t.cacheNode).successor t.current with
  | some next => simp [hsuccessor] at h
  | none =>
      cases hcomplete : (memory.cache t.cacheNode).complete with
      | true => simp [hsuccessor, hcomplete] at h
      | false => simp [Cache.Idle, hsuccessor, hcomplete]

/-- Being asleep follows going to sleep. -/
theorem waitAsleep_resume {memory : Memory} {t : Handler}
    (h : (t.resume memory).pc = .waitAsleep) :
    t.pc = .waitSleep ∧ (t.resume memory).cacheNode = t.cacheNode ∧
      (t.resume memory).current = t.current := by
  have hsleep : t.pc = .waitSleep := by
    have hfollows := t.follows_resume memory
    rw [h] at hfollows
    generalize t.pc = pc at hfollows ⊢
    cases hfollows
    rfl
  rw [resume, hsleep]
  exact ⟨rfl, rfl, rfl⟩

end Handler

section Reachable

variable {ok : State Nat Memory Handler → Nat → Prop} {s : State Nat Memory Handler}

/-- A loader works on the entry it added. -/
theorem added_of_load (hs : server.ReachableUnder Starts ok s) {i : Nat}
    (h : (s.thread i).pc.role = .load) :
    (s.thread i).added = some (s.thread i).cacheNode ∧
      (s.thread i).cacheNode < s.shared.fresh := by
  have hplaced := (bounded_placed hs i).2
  rw [Placed, h] at hplaced
  exact hplaced

theorem sleepsIdle (hs : server.ReachableUnder Starts ok s) (i : Nat) :
    SleepsIdle i s.shared (s.thread i) := by
  refine serverThreads (L := SleepsIdle) ?_ ?_ ?_ hs i
  · intro i request env stale
    exact ⟨fun h => by simp [Handler.start] at h, fun h => by simp [Handler.start] at h⟩
  · intro s i o memory hreach _ hall hop hexec
    refine ⟨fun h _ => ?_, fun h => ?_⟩
    · obtain ⟨hpc, hnode, hcurrent⟩ := Handler.waitAsleep_resume h
      have hlt := cacheNode_lt hreach (i := i) (by rw [hpc]; decide)
      rw [Handler.op, hpc] at hop
      obtain rfl := Option.some.inj hop
      rw [hnode, hcurrent]
      cases Op.exec_list hexec hlt with
      | same _ hnodes hcomplete _ => exact ((hall i).sleeps hpc).congr hnodes hcomplete
      | sleep hnodes hcomplete _ => exact ((hall i).sleeps hpc).congr hnodes hcomplete
    · obtain ⟨hpc, hnode, hidle⟩ := Handler.waitSleep_resume h
      have hlt := cacheNode_lt hreach (i := i) (by rw [hpc]; decide)
      rw [Handler.op, hpc] at hop
      obtain rfl := Option.some.inj hop
      rw [hnode]
      cases Op.exec_list hexec hlt with
      | same _ hnodes hcomplete _ => exact hidle.congr hnodes hcomplete
  · intro s i j o memory hreach _ hji hall hop hexec
    refine ⟨fun hpc hmem => ?_, fun hpc => ?_⟩
    · have hlt := cacheNode_lt hreach (i := j) (by rw [hpc]; decide)
      have hidle := (hall j).asleep hpc
      cases Op.exec_list hexec hlt with
      | same _ hnodes hcomplete hwaiters => exact (hidle (hwaiters ▸ hmem)).congr hnodes hcomplete
      | sleep hnodes hcomplete hwaiters =>
          rw [hwaiters, Finset.mem_insert] at hmem
          exact (hidle (hmem.resolve_left hji)).congr hnodes hcomplete
      | wake hnodes hcomplete hwaiters =>
          rw [hwaiters, Finset.mem_erase] at hmem
          exact (hidle hmem.2).congr hnodes hcomplete
      | listAdd _ _ _ hwaiters => simp [hwaiters] at hmem
      | setComplete _ _ hwaiters => simp [hwaiters] at hmem
    · have hlt := cacheNode_lt hreach (i := j) (by rw [hpc]; decide)
      have hidle := (hall j).sleeps hpc
      -- Whoever changes the list holds its mutex, which `j` holds.
      have hheld : (Lock.list (s.thread j).cacheNode, Mode.write) ∈ (s.thread j).held := by
        rw [Handler.held, hpc]
        exact List.mem_singleton_self _
      cases Op.exec_list hexec hlt with
      | same _ hnodes hcomplete _ => exact hidle.congr hnodes hcomplete
      | sleep hnodes hcomplete _ => exact hidle.congr hnodes hcomplete
      | wake hnodes hcomplete _ => exact hidle.congr hnodes hcomplete
      | listAdd value _ _ _ =>
          exact absurd (holder_unique hreach hheld (Handler.list_mem_held_of_listAdd hop)) hji
      | setComplete _ _ _ =>
          exact absurd (holder_unique hreach hheld (Handler.list_mem_held_of_setComplete hop)) hji

/-! ### The end of a list -/

/-- The node that a loader has just published. -/
def Pc.published : Pc → Option Nat
  | .listUnlock _ node | .wrlock _ node => some node
  | _ => none

/-- A loader is at the last node of its list: at a node of it, and below the node
it has just published, which is the last one. -/
structure AtTail (memory : Memory) (t : Handler) : Prop where
  lookup : t.pc.role = .lookup → t.current = none
  load : t.pc.role = .load → ∀ node, t.current = some node →
    node < (memory.cache t.cacheNode).nodes.length
  published : ∀ node, t.pc.published = some node →
    node + 1 = (memory.cache t.cacheNode).nodes.length ∧ ∀ k, t.current = some k → k < node

/-- A step of the loading code moves to another node only when the lock of the
published one is taken. -/
theorem Handler.current_resume (memory : Memory) {t : Handler} (h : t.pc.role = .load) :
    (t.resume memory).current = t.current ∨ (t.resume memory).current = none ∨
      ∃ node, t.pc.published = some node ∧ (t.resume memory).current = some node := by
  obtain ⟨pc, loader, env, stale, cacheNode, added, current, prev, chunk, sent⟩ := t
  cases pc <;> simp only [Pc.role, reduceCtorEq] at h
  case requestSend => simp only [resume, requestRound]; split <;> simp
  case headerLoop => exact Or.inr (Or.inl rfl)
  case wrlock site node => exact Or.inr (Or.inr ⟨node, rfl, rfl⟩)
  case bodyRead => simp only [resume, bodyRound]; split <;> simp
  all_goals exact Or.inl rfl

/-- Nobody goes back to the lookup, and loading starts with the insertion. -/
theorem Handler.role_resume {memory : Memory} {t : Handler} :
    ((t.resume memory).pc.role = .lookup → t.pc.role = .lookup) ∧
      ((t.resume memory).pc.role = .load → t.pc.role = .load ∨ t.pc = .mapAdd) := by
  have hfollows := t.follows_resume memory
  generalize (t.resume memory).pc = next at hfollows ⊢
  generalize t.pc = pc at hfollows ⊢
  cases hfollows <;> simp [Pc.role]

/-- A node is published by `list_add`, and its lock is taken next. -/
theorem Handler.published_resume {memory : Memory} {t : Handler} {node : Nat}
    (h : (t.resume memory).pc.published = some node) :
    ((t.resume memory).cacheNode = t.cacheNode ∧ (t.resume memory).current = t.current) ∧
      ((∃ site, t.pc = .listAppend site ∧ node = (memory.cache t.cacheNode).nodes.length) ∨
        ∃ site, t.pc = .listUnlock site node) := by
  have hpc : (∃ site, t.pc = .listAppend site) ∨ ∃ site node, t.pc = .listUnlock site node := by
    have hfollows := t.follows_resume memory
    generalize (t.resume memory).pc = next at h hfollows
    generalize t.pc = pc at hfollows ⊢
    cases hfollows <;> simp [Pc.published] at h <;> simp
  rcases hpc with ⟨site, hpc⟩ | ⟨site, node', hpc⟩
  · rw [resume, hpc] at h ⊢
    exact ⟨⟨rfl, rfl⟩, Or.inl ⟨site, rfl, (Option.some.inj h).symm⟩⟩
  · rw [resume, hpc] at h ⊢
    obtain rfl := Option.some.inj h
    exact ⟨⟨rfl, rfl⟩, Or.inr ⟨site, rfl⟩⟩

/-- Only `list_add` changes the nodes of a list. -/
theorem Op.nodes_eq {i : Nat} {o : Op} {memory memory' : Memory} {e : Nat}
    (hexec : o.exec i memory = some memory') (he : e < memory.fresh)
    (hne : ∀ value, o ≠ .listAdd e value) :
    (memory'.cache e).nodes = (memory.cache e).nodes := by
  cases Op.exec_list hexec he with
  | same _ hnodes _ _ => exact hnodes
  | sleep hnodes _ _ => exact hnodes
  | wake hnodes _ _ => exact hnodes
  | setComplete hnodes _ _ => exact hnodes
  | listAdd value _ _ _ => exact absurd rfl (hne value)

/-- Lists only grow. -/
theorem Op.nodes_grow {i : Nat} {o : Op} {memory memory' : Memory} {e : Nat}
    (hexec : o.exec i memory = some memory') (he : e < memory.fresh) :
    (memory.cache e).nodes <+: (memory'.cache e).nodes := by
  by_cases hadd : ∃ value, o = .listAdd e value
  · obtain ⟨value, rfl⟩ := hadd
    obtain rfl := Option.some.inj hexec
    simp [Memory.listAdd, Memory.cache_setCache]
  · rw [Op.nodes_eq hexec he fun value ho => hadd ⟨value, ho⟩]

/-- Nobody else adds to the list of an entry than the handler that added the entry. -/
theorem nodes_of_added (hs : server.ReachableUnder Starts ok s) {i j e : Nat} {o : Op}
    {memory : Memory} (hji : j ≠ i) (hadded : (s.thread j).added = some e)
    (hop : (s.thread i).op = some o) (hexec : o.exec i s.shared = some memory) :
    (memory.cache e).nodes = (s.shared.cache e).nodes := by
  refine Op.nodes_eq hexec (added_spec hs hadded).2 fun value ho => ?_
  obtain ⟨⟨site, hpc⟩, hnode, -⟩ := Handler.op_listAdd (ho ▸ hop)
  have hi := (added_of_load hs (i := i) (by rw [hpc]; rfl)).1
  rw [hnode] at hi
  exact hji (added_unique hs hadded hi)

theorem atTail (hs : server.ReachableUnder Starts ok s) (i : Nat) :
    AtTail s.shared (s.thread i) := by
  refine serverThreads (L := fun _ => AtTail) ?_ ?_ ?_ hs i
  · intro i request env stale
    exact ⟨fun _ => rfl, fun h => by simp [Handler.start, Pc.role] at h,
      fun node h => by simp [Handler.start, Pc.published] at h⟩
  · intro s i o memory hreach _ hall hop hexec
    refine ⟨fun h => ?_, fun h node hnode => ?_, fun node h => ?_⟩
    · have hlookup := Handler.role_resume.1 h
      rw [((s.thread i).frame s.shared).current hlookup]
      exact (hall i).lookup hlookup
    · rcases Handler.role_resume.2 h with hload | hpc
      · have hlt := (added_of_load hreach hload).2
        have hle := (Op.nodes_grow hexec hlt).length_le
        rw [((s.thread i).frame s.shared).cacheNode (by simp [hload])]
        rcases Handler.current_resume s.shared hload with hsame | hnone | ⟨new, hpublished, hnew⟩
        · exact ((hall i).load hload node (hsame ▸ hnode)).trans_le hle
        · simp [hnone] at hnode
        · obtain rfl := Option.some.inj (hnew.symm.trans hnode)
          have := ((hall i).published new hpublished).1
          omega
      · rw [Handler.resume, hpc] at hnode
        simp [(hall i).lookup (by rw [hpc]; rfl)] at hnode
    · obtain ⟨⟨hentry, hcurrent⟩, hpc⟩ := Handler.published_resume h
      rw [hentry, hcurrent]
      rcases hpc with ⟨site, hpc, rfl⟩ | ⟨site, hpc⟩
      · have hload : (s.thread i).pc.role = .load := by rw [hpc]; rfl
        rw [Handler.op, hpc] at hop
        obtain rfl := Option.some.inj hop
        obtain rfl := Option.some.inj hexec
        refine ⟨?_, (hall i).load hload⟩
        simp [Memory.listAdd, Memory.cache_setCache]
      · rw [Handler.op, hpc] at hop
        obtain rfl := Option.some.inj hop
        obtain rfl := Option.some.inj hexec
        exact (hall i).published node (by rw [hpc]; rfl)
  · intro s i j o memory hreach _ hji hall hop hexec
    refine ⟨(hall j).lookup, fun h node hnode => ?_, fun node h => ?_⟩
    · rw [nodes_of_added hreach hji (added_of_load hreach h).1 hop hexec]
      exact (hall j).load h node hnode
    · have hload : (s.thread j).pc.role = .load := by
        revert h
        cases (s.thread j).pc <;> simp [Pc.published, Pc.role]
      rw [nodes_of_added hreach hji (added_of_load hreach hload).1 hop hexec]
      exact (hall j).published node h

/-- Only loaders lock nodes for writing, the nodes of their entry. -/
theorem Handler.load_of_node_mem_held {t : Handler} {e node : Nat}
    (h : (Lock.node e node, Mode.write) ∈ t.held) :
    t.pc.role = .load ∧ t.cacheNode = e := by
  obtain ⟨pc, loader, env, stale, cacheNode, added, current, prev, chunk, sent⟩ := t
  cases pc <;> cases current <;> simp_all [held, currentLock, Pc.role]
  case unlockPrev.some => exact h.elim (fun h => h.1.symm) fun h => h.1.symm

/-! ### Deadlock -/

/-- The order in which locks are taken: the map, a node, the last node, a list. -/
def Memory.rank (memory : Memory) : Lock → Nat
  | .map => 0
  | .node e index => if index + 1 < (memory.cache e).nodes.length then 1 else 2
  | .list _ => 3

theorem Memory.rank_le (memory : Memory) (l : Lock) : memory.rank l ≤ 3 := by
  cases l <;> simp only [rank]
  case node e index => split <;> omega
  all_goals omega

/-- The three places where a handler waits for a lock while it holds one. -/
theorem Handler.waits_holding {t : Handler} {l l' : Lock} {m m' : Mode}
    (hheld : (l, m) ∈ t.held) (hwait : discipline.waitsFor t = some (l', m')) :
    (l = .map ∧ l' = .list t.cacheNode) ∨
      (∃ node, l = .node t.cacheNode node ∧ l' = .list t.cacheNode) ∨
      ∃ site node next, t.pc = .wrlock site next ∧ t.current = some node ∧
        l = .node t.cacheNode node ∧ l' = .node t.cacheNode next := by
  obtain ⟨pc, loader, env, stale, cacheNode, added, current, prev, chunk, sent⟩ := t
  simp only [LockDiscipline.waitsFor, discipline, server] at hwait
  cases pc <;> simp only [op, Op.effect, Option.some.injEq, Prod.mk.injEq, reduceCtorEq,
    held, currentLock, List.not_mem_nil] at hheld hwait
  case failLock f => exact Or.inl (by simp_all)
  case listLock site =>
    cases current with
    | none => simp at hheld
    | some node => exact Or.inr (Or.inl ⟨node, by simp_all⟩)
  case wrlock site next =>
    cases current with
    | none => simp at hheld
    | some node => exact Or.inr (Or.inr ⟨site, node, next, by simp_all⟩)

theorem rank_lt (hs : server.ReachableUnder Starts ok s) {i : Nat} {l l' : Lock} {m m' : Mode}
    (hheld : (l, m) ∈ (s.thread i).held)
    (hwait : discipline.waitsFor (s.thread i) = some (l', m')) :
    s.shared.rank l < s.shared.rank l' := by
  rcases Handler.waits_holding hheld hwait with
    ⟨rfl, rfl⟩ | ⟨node, rfl, rfl⟩ | ⟨site, node, next, hpc, hcurrent, rfl, rfl⟩
  · simp [Memory.rank]
  · simp only [Memory.rank]
    split <;> omega
  · obtain ⟨hlast, hbelow⟩ := (atTail hs i).published next (by rw [hpc]; rfl)
    have := hbelow node hcurrent
    simp only [Memory.rank]
    rw [if_pos (by omega), if_neg (by omega)]
    omega

/-! ### No stuck handler -/

/-- Handler `i` is parked in the `pthread_cond_wait` of `list_wait_for_data`. -/
def Parked (s : State Nat Memory Handler) (i : Nat) : Prop :=
  (s.thread i).pc = .waitAsleep ∧
    i ∈ (s.shared.cache (s.thread i).cacheNode).waiters

/-- A parked reader has no successor to read and its list is not complete; the
list of a loader which has returned is complete and none of its nodes is locked
for writing; and no set of handlers is deadlocked. -/
theorem noStuckHandler {s : State Nat Memory Handler} (hs : server.Reachable Starts s) :
    (∀ i, Parked s i →
      (s.shared.cache (s.thread i).cacheNode).successor (s.thread i).current = none ∧
        (s.shared.cache (s.thread i).cacheNode).complete = false) ∧
      (∀ i e, (s.thread i).added = some e → (s.thread i).pc = .returned →
        (s.shared.cache e).complete = true ∧
          ∀ node, (s.shared.locks (.node e node)).writer = none) ∧
      ∀ S : Set Nat, ¬ discipline.Deadlocked s S := by
  refine ⟨fun i hparked => ?_, fun i e hadded hpc => ⟨?_, fun node => ?_⟩, fun S => ?_⟩
  · exact (sleepsIdle hs i).asleep hparked.1 hparked.2
  · exact complete_of_not_loading hs hadded (by rw [hpc]; decide)
  · by_contra hwriter
    obtain ⟨j, hj⟩ := Option.ne_none_iff_exists'.mp hwriter
    have hheld : (Lock.node e node, Mode.write) ∈ (s.thread j).held :=
      ((agrees hs j).heldBy_iff (.node e node) .write).mp hj
    obtain ⟨hload, hnode⟩ := Handler.load_of_node_mem_held hheld
    have hadded' := (added_of_load hs hload).1
    rw [hnode] at hadded'
    obtain rfl := added_unique hs hadded hadded'
    rw [Handler.held, hpc] at hheld
    exact List.not_mem_nil hheld
  · exact discipline.not_deadlocked (agrees hs) s.shared.rank 3 s.shared.rank_le
      (fun i l m l' m' => rank_lt hs) S

end Reachable

/-- A reader parked at an entry that has no node yet, while another loader has
returned. -/
theorem noStuckHandler_parked :
    let start := serving (fun i => if i = 2 then otherRequest else plainRequest)
      fun _ => answering plainResponse
    ∃ s ∈ server.runIf (fun _ _ => true) start
        (List.replicate 4 0 ++ List.replicate 7 1 ++ List.replicate 24 2),
      (s.shared.cache 0).successor none = none ∧ (s.shared.cache 0).complete = false ∧
        (s.shared.cache 1).complete = true ∧
        (∀ node, (s.shared.locks (.node 1 node)).writer = none) ∧
        ∀ S : Set Nat, ¬ discipline.Deadlocked s S := by
  intro start
  obtain ⟨s, hrun, hs, hpc, hmem, hnode, hcurrent, hadded, hreturned⟩ :
      ∃ s ∈ server.runIf (fun _ _ => true) start
          (List.replicate 4 0 ++ List.replicate 7 1 ++ List.replicate 24 2),
        server.Reachable Starts s ∧ (s.thread 1).pc = .waitAsleep ∧
          1 ∈ (s.shared.cache 0).waiters ∧ (s.thread 1).cacheNode = 0 ∧
          (s.thread 1).current = none ∧ (s.thread 2).added = some 1 ∧
          (s.thread 2).pc = .returned :=
    exists_serving_runIf (fun _ _ _ => trivial) (fun s => (s.thread 1).pc = .waitAsleep ∧
      1 ∈ (s.shared.cache 0).waiters ∧ (s.thread 1).cacheNode = 0 ∧
      (s.thread 1).current = none ∧ (s.thread 2).added = some 1 ∧ (s.thread 2).pc = .returned)
      (by decide +kernel)
  obtain ⟨hparked, hfinished, hdeadlock⟩ := noStuckHandler hs
  obtain ⟨hsuccessor, hcomplete⟩ := hparked 1 ⟨hpc, by rwa [hnode]⟩
  rw [hnode, hcurrent] at hsuccessor
  rw [hnode] at hcomplete
  obtain ⟨hdone, hunlocked⟩ := hfinished 2 1 hadded hreturned
  exact ⟨s, hrun, hsuccessor, hcomplete, hdone, hunlocked, hdeadlock⟩

end Proxy
end OperatingSystems
