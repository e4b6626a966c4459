import OperatingSystems.Proxy.Server

/-!
# Who holds what

The locks a handler holds and the entry it added can be read off its local
state.

* `discipline` — the lock discipline of the server; with it come mutual
  exclusion and the agreement of lock table and control states.
* `placed` — what the place of a handler in the code says about its entry.
* `added_unique`, `exists_added` — every entry was added by exactly one handler.
-/

namespace OperatingSystems
namespace Proxy

open Threads

/-! ### The statement behind an access -/

namespace Handler

variable {t : Handler} {e : Nat}

theorem op_mapAdd {url : List Byte} (h : t.op = some (.mapAdd url)) :
    t.pc = .mapAdd ∧ url = t.searchPath := by
  unfold op at h
  split at h <;> simp_all

theorem op_unlink {prev : Option Nat} (h : t.op = some (.unlink prev e)) :
    t.pc = .removeUnlink prev e := by
  unfold op at h
  split at h <;> simp_all

theorem op_listAdd {value : List Byte} (h : t.op = some (.listAdd e value)) :
    (∃ site, t.pc = .listAppend site) ∧ t.cacheNode = e ∧ value = t.chunk := by
  unfold op at h
  split at h <;> simp_all

theorem op_setComplete (h : t.op = some (.setComplete e)) :
    ((∃ f, t.pc = .failSet f) ∨ t.pc = .doneSet) ∧ t.cacheNode = e := by
  unfold op at h
  split at h <;> simp_all

end Handler

/-! ### Locks -/

/-- What an access does to the lock table; going to sleep gives the list mutex
back. -/
def Op.effect : Op → LockEffect Lock
  | .acquire l m => .acquire l m
  | .release l m => .release l m
  | .sleep e => .release (.list e) .write
  | _ => .keep

namespace Handler

/-- The lock of the node that the loader is at. -/
def currentLock (t : Handler) : List (Lock × Mode) :=
  match t.current with
  | none => []
  | some node => [(.node t.cacheNode node, .write)]

/-- The locks that a handler holds. -/
def held (t : Handler) : List (Lock × Mode) :=
  match t.pc with
  | .find _ | .foundUnlock | .mapAdd | .addedUnlock => [(.map, .write)]
  | .failLock _ | .failUnlockMap _ => [(.map, .write)]
  | .removeFind _ _ | .removeUnlink _ _ | .removeUnlock => [(.map, .write)]
  | .waitCheck | .waitSleep | .waitReturn _ | .stateRead _ | .stateUnlock _ _ =>
      [(.list t.cacheNode, .write)]
  | .send node | .rdunlock node _ => [(.node t.cacheNode node, .read)]
  | .failSet _ | .failUnlock _ => [(.list t.cacheNode, .write), (.map, .write)]
  | .listLock _ | .wrlock _ _ | .bodyRead | .bodySend => t.currentLock
  | .listAppend _ | .listUnlock _ _ => (.list t.cacheNode, .write) :: t.currentLock
  | .unlockPrev _ prev => (.node t.cacheNode prev, .write) :: t.currentLock
  | .unlockCurrent node => [(.node t.cacheNode node, .write)]
  | .doneSet | .doneUnlock => [(.list t.cacheNode, .write)]
  | .lockMap | .readFirst | .waitLock | .waitAsleep | .waitRelock | .rdlock _ | .stateLock _ => []
  | .connect | .requestSend | .failLockMap _ | .headerLoop | .doneLock | .removeLock => []
  | .returned => []

end Handler

/-- Whoever adds to a list or completes it holds its mutex. -/
theorem Handler.list_mem_held_of_listAdd {t : Handler} {e : Nat} {value : List Byte}
    (h : t.op = some (.listAdd e value)) : (Lock.list e, Mode.write) ∈ t.held := by
  obtain ⟨⟨site, hpc⟩, rfl, -⟩ := op_listAdd h
  rw [held, hpc]
  exact List.mem_cons_self

theorem Handler.list_mem_held_of_setComplete {t : Handler} {e : Nat}
    (h : t.op = some (.setComplete e)) : (Lock.list e, Mode.write) ∈ t.held := by
  obtain ⟨⟨f, hpc⟩ | hpc, rfl⟩ := op_setComplete h <;>
    · rw [held, hpc]
      exact List.mem_cons_self

theorem Op.exec_keep {i : Nat} {o : Op} {memory memory' : Memory}
    (h : o.exec i memory = some memory') (ho : o.effect = .keep) :
    memory'.locks = memory.locks := by
  cases o <;> simp only [Op.effect, reduceCtorEq] at ho <;>
    simp only [Op.exec, Option.some.injEq] at h <;> subst h <;> try rfl
  case unlink prev e => cases prev <;> rfl

namespace Handler

/-- A step which takes and gives back no lock leaves the locks held. -/
theorem held_resume_keep {t : Handler} {o : Op} (memory : Memory) (hop : t.op = some o)
    (ho : o.effect = .keep) : ((t.resume memory).held).Perm t.held := by
  apply List.Perm.of_eq
  obtain ⟨pc, loader, env, stale, cacheNode, added, current, prev, chunk, sent⟩ := t
  cases pc <;> simp only [op, Option.some.injEq, reduceCtorEq] at hop <;> subst hop <;>
    simp only [Op.effect, reduceCtorEq] at ho <;> simp only [resume]
  case find cursor =>
    cases cursor with
    | none => rfl
    | some e => simp only [findRound]; split <;> rfl
  case readFirst =>
    cases (memory.cache cacheNode).first <;> rfl
  case waitCheck =>
    simp only [waitRound]
    split
    · rfl
    · cases (memory.cache cacheNode).complete <;> rfl
  case connect => simp only [connectRound]; split <;> rfl
  case requestSend => simp only [requestRound]; split <;> rfl
  case headerLoop => simp only [headerRound]; split <;> rfl
  case bodyRead =>
    simp only [bodyRound]
    split
    · cases current <;> rfl
    · split <;> rfl
  case removeFind prev cursor =>
    cases cursor with
    | none => rfl
    | some e => simp only [removeRound]; split <;> rfl
  all_goals rfl

/-- A step which takes a lock adds it to the locks held. -/
theorem held_resume_acquire {t : Handler} {o : Op} {l : Lock} {m : Mode} (memory : Memory)
    (hop : t.op = some o) (ho : o.effect = .acquire l m) :
    ((t.resume memory).held).Perm ((l, m) :: t.held) := by
  obtain ⟨pc, loader, env, stale, cacheNode, added, current, prev, chunk, sent⟩ := t
  cases pc <;> simp only [op, Option.some.injEq, reduceCtorEq] at hop <;> subst hop <;>
    simp only [Op.effect, reduceCtorEq, LockEffect.acquire.injEq] at ho <;>
    obtain ⟨rfl, rfl⟩ := ho <;> simp only [resume]
  case wrlock site node =>
    cases current with
    | none => cases site <;> rfl
    | some prev => exact List.Perm.swap _ _ _
  all_goals rfl

/-- A step which gives a lock back removes it from the locks held. -/
theorem held_resume_release {t : Handler} {o : Op} {l : Lock} {m : Mode} (memory : Memory)
    (hop : t.op = some o) (ho : o.effect = .release l m) :
    (t.held).Perm ((l, m) :: (t.resume memory).held) := by
  apply List.Perm.of_eq
  obtain ⟨pc, loader, env, stale, cacheNode, added, current, prev, chunk, sent⟩ := t
  cases pc <;> simp only [op, Option.some.injEq, reduceCtorEq] at hop <;> subst hop <;>
    simp only [Op.effect, reduceCtorEq, LockEffect.release.injEq] at ho <;>
    obtain ⟨rfl, rfl⟩ := ho <;> simp only [resume]
  case waitReturn more =>
    cases more <;> cases current <;> rfl
  case rdunlock node ok => cases ok <;> rfl
  case stateUnlock next isComplete =>
    split
    · rfl
    · cases next <;> rfl
  case failUnlockMap f => cases f <;> rfl
  case unlockPrev site prev => cases site <;> rfl
  case doneUnlock => split <;> rfl
  all_goals rfl

end Handler

/-- The lock discipline of the server. -/
def discipline : LockDiscipline server Lock where
  locks := Memory.locks
  effect := Op.effect
  held := Handler.held
  exec_keep := Op.exec_keep
  exec_acquire := by
    intro i o memory memory' l m h ho
    cases o <;> simp only [Op.effect, reduceCtorEq, LockEffect.acquire.injEq] at ho
    obtain ⟨rfl, rfl⟩ := ho
    obtain ⟨l', hl', rfl⟩ := Option.map_eq_some_iff.mp h
    exact ⟨l', hl', rfl⟩
  exec_release := by
    intro i o memory memory' l m h ho
    cases o <;> simp only [Op.effect, reduceCtorEq, LockEffect.release.injEq] at ho <;>
      obtain ⟨rfl, rfl⟩ := ho <;> obtain rfl := Option.some.inj h <;> rfl
  resume_keep := fun _ => Handler.held_resume_keep _
  resume_acquire := fun _ => Handler.held_resume_acquire _
  acquire_read := by
    intro t o l memory _ hop ho
    change t.op = some o at hop
    cases hpc : t.pc <;>
      simp only [Handler.op, hpc, Option.some.injEq, reduceCtorEq] at hop <;> subst hop <;>
      simp [Op.effect] at ho
    simp [Handler.held, hpc]
  resume_release := fun _ => Handler.held_resume_release _

theorem starts_unlocked (s : State Nat Memory Handler) (h : Starts s) (l : Lock) :
    discipline.locks s.shared l = .unlocked := by
  rw [h.1]
  rfl

theorem starts_held (s : State Nat Memory Handler) (h : Starts s) (i : Nat) :
    discipline.held (s.thread i) = [] := by
  obtain ⟨request, env, stale, hi⟩ := h.2 i
  rw [hi]
  rfl

section Reachable

variable {ok : State Nat Memory Handler → Nat → Prop} {s : State Nat Memory Handler}

theorem agrees (hs : server.ReachableUnder Starts ok s) (i : Nat) :
    discipline.Agrees i s.shared (s.thread i) :=
  LockDiscipline.agrees starts_unlocked starts_held hs i

/-- Two handlers that hold the same lock for writing are the same handler. -/
theorem holder_unique (hs : server.ReachableUnder Starts ok s) {i j : Nat} {l : Lock}
    (hi : (l, Mode.write) ∈ (s.thread i).held) (hj : (l, Mode.write) ∈ (s.thread j).held) :
    i = j :=
  LockDiscipline.writer_unique starts_unlocked starts_held hs hi hj

end Reachable

/-! ### Entries -/

/-- The part of `client_handler` a statement belongs to: the lookup, the hit path,
the miss path up to the completion of the entry, what follows, and the end. -/
inductive Role
  | lookup
  | hit
  | load
  | finish
  | done
  deriving DecidableEq

def Pc.role : Pc → Role
  | .lockMap | .find _ | .mapAdd => .lookup
  | .foundUnlock | .readFirst | .waitLock | .waitCheck | .waitSleep | .waitAsleep => .hit
  | .waitRelock | .waitReturn _ | .rdlock _ | .send _ | .rdunlock _ _ => .hit
  | .stateLock _ | .stateRead _ | .stateUnlock _ _ => .hit
  | .addedUnlock | .connect | .requestSend | .failLockMap _ | .failLock _ | .failSet _ => .load
  | .failUnlock _ | .failUnlockMap _ | .headerLoop | .listLock _ | .listAppend _ => .load
  | .listUnlock _ _ | .wrlock _ _ | .unlockPrev _ _ | .bodyRead | .bodySend => .load
  | .unlockCurrent _ | .doneLock | .doneSet => .load
  | .doneUnlock | .removeLock | .removeFind _ _ | .removeUnlink _ _ | .removeUnlock => .finish
  | .returned => .done

/-- What a step leaves alone in the local state of its handler. -/
structure Handler.Frame (t t' : Handler) : Prop where
  env : t'.env = t.env
  stale : t'.stale = t.stale
  added : t.pc ≠ .mapAdd → t'.added = t.added
  cacheNode : t.pc.role ≠ .lookup → t'.cacheNode = t.cacheNode
  current : t.pc.role = .lookup → t'.current = t.current
  sent : (∀ node, t.pc ≠ .send node) → t'.sent = t.sent
  loader : t.pc.role ≠ .load → t'.loader = t.loader

/-- Outside its own statements a step leaves every local variable alone. -/
theorem Handler.frame (memory : Memory) (t : Handler) : t.Frame (t.resume memory) := by
  -- A step that only moves on, and the three kinds of statements that write a variable.
  have hmove {t t' : Handler} (h : t' = { t with pc := t'.pc }) : t.Frame t' := by
    rw [h]
    exact ⟨rfl, rfl, fun _ => rfl, fun _ => rfl, fun _ => rfl, fun _ => rfl, fun _ => rfl⟩
  have hload {t t' : Handler} (hpc : t.pc.role = .load)
      (h : t' = { t with pc := t'.pc, loader := t'.loader, chunk := t'.chunk,
                         current := t'.current, prev := t'.prev }) : t.Frame t' := by
    rw [h]
    exact ⟨rfl, rfl, fun _ => rfl, fun _ => rfl, fun h => by simp [hpc] at h, fun _ => rfl,
      fun h => absurd hpc h⟩
  have hhit {t t' : Handler} (hpc : t.pc.role = .hit)
      (h : t' = { t with pc := t'.pc, current := t'.current }) : t.Frame t' := by
    rw [h]
    exact ⟨rfl, rfl, fun _ => rfl, fun _ => rfl, fun h => by simp [hpc] at h, fun _ => rfl,
      fun _ => rfl⟩
  obtain ⟨pc, loader, env, stale, cacheNode, added, current, prev, chunk, sent⟩ := t
  cases pc <;> simp only [resume]
  case mapAdd =>
    exact ⟨rfl, rfl, fun h => absurd rfl h, fun h => absurd rfl h, fun _ => rfl, fun _ => rfl,
      fun _ => rfl⟩
  case find cursor =>
    cases cursor with
    | none => exact hmove rfl
    | some e =>
        simp only [findRound]
        split
        · exact ⟨rfl, rfl, fun _ => rfl, fun h => absurd rfl h, fun _ => rfl, fun _ => rfl,
            fun _ => rfl⟩
        · exact hmove rfl
  case send node =>
    exact ⟨rfl, rfl, fun _ => rfl, fun _ => rfl, fun _ => rfl, fun h => absurd rfl (h node),
      fun _ => rfl⟩
  case readFirst => exact hhit rfl rfl
  case waitCheck =>
    simp only [waitRound]
    split
    · exact hhit rfl rfl
    · exact hmove rfl
  case waitReturn more =>
    cases more with
    | true => exact hhit rfl rfl
    | false => exact hmove rfl
  case stateUnlock next isComplete =>
    split
    · exact hmove rfl
    · exact hhit rfl rfl
  case requestSend =>
    simp only [requestRound]
    split <;> exact hload rfl rfl
  case bodyRead =>
    simp only [bodyRound]
    split <;> exact hload rfl rfl
  case removeFind prev cursor =>
    cases cursor with
    | none => exact hmove rfl
    | some e =>
        simp only [removeRound]
        split <;> exact hmove rfl
  all_goals
    first
      | exact hmove rfl
      | exact hload rfl rfl
/-- The parts of `client_handler` follow each other: the lookup ends in a hit or in
an insertion, loading ends with `complete`, and every part but these can return. -/
theorem Pc.Follows.role_cases {pc next : Pc} (h : pc.Follows next) :
    (next.role = pc.role ∧ pc ≠ .mapAdd) ∨
      (∃ e, pc = .find (some e) ∧ next = .foundUnlock) ∨
      (pc = .mapAdd ∧ next = .addedUnlock) ∨
      (pc.role = .load ∧ next.role = .finish) ∨
      ((pc.role = .hit ∨ pc.role = .finish) ∧ next.role = .done) := by
  cases h <;> simp [Pc.role]

/-- The entry a walk along the chain is at. -/
def Pc.cursor : Pc → Option Nat
  | .find current => current
  | .removeFind _ current => current
  | .removeUnlink _ entry => some entry
  | _ => none

/-- What the place of a handler in the code says about its entry. -/
def Placed (memory : Memory) (t : Handler) : Prop :=
  match t.pc.role with
  | .lookup => t.added = none
  | .hit => t.added = none ∧ t.cacheNode < memory.fresh
  | .load | .finish => t.added = some t.cacheNode ∧ t.cacheNode < memory.fresh
  | .done => (∀ e, t.added = some e → t.cacheNode = e) ∧ t.cacheNode < memory.fresh

/-- All pointers lead to entries that were allocated: those of the map and the
cursor of one handler. -/
structure Bounded (memory : Memory) (t : Handler) : Prop where
  first : ∀ e, memory.first = some e → e < memory.fresh
  next : ∀ e e', memory.next e = some e' → e' < memory.fresh
  cursor : ∀ e, t.pc.cursor = some e → e < memory.fresh

theorem Op.exec_fresh_le {i : Nat} {o : Op} {memory memory' : Memory}
    (h : o.exec i memory = some memory') : memory.fresh ≤ memory'.fresh := by
  rcases Op.exec_map h with hsame | ⟨url, -, rfl⟩ | ⟨prev, e, -, rfl⟩
  · exact hsame.fresh.ge
  · exact Nat.le_succ _
  · cases prev <;> exact Nat.le_refl _

theorem Placed.mono {memory memory' : Memory} {t : Handler} (h : Placed memory t)
    (hle : memory.fresh ≤ memory'.fresh) : Placed memory' t := by
  unfold Placed at h ⊢
  cases hrole : t.pc.role <;> simp only [hrole] at h ⊢
  case lookup => exact h
  case hit => exact ⟨h.1, h.2.trans_le hle⟩
  case load => exact ⟨h.1, h.2.trans_le hle⟩
  case finish => exact ⟨h.1, h.2.trans_le hle⟩
  case done => exact ⟨h.1, h.2.trans_le hle⟩

theorem Placed.resume {i : Nat} {o : Op} {memory memory' : Memory} {t : Handler}
    (h : Placed memory t) (hbounded : Bounded memory t) (hop : t.op = some o)
    (hexec : o.exec i memory = some memory') : Placed memory' (t.resume memory) := by
  have hframe := t.frame memory
  replace h := h.mono (Op.exec_fresh_le hexec)
  rcases (t.follows_resume memory).role_cases with
    ⟨hsame, hpc⟩ | ⟨e, hpc, hnext⟩ | ⟨hpc, hnext⟩ | ⟨hload, hfinish⟩ | ⟨hrole, hdone⟩
  · have hadded := hframe.added hpc
    by_cases hlookup : t.pc.role = .lookup
    · unfold Placed at h ⊢
      rw [hsame]
      rw [hlookup] at h ⊢
      exact hadded.trans h
    · unfold Placed at h ⊢
      rw [hsame, hadded, hframe.cacheNode hlookup]
      exact h
  · -- The lookup has found `e`, where its walk was.
    have he : e < memory'.fresh :=
      (hbounded.cursor e (by rw [hpc]; rfl)).trans_le (Op.exec_fresh_le hexec)
    rw [Placed, hpc] at h
    rw [Placed, hnext]
    simp only [Handler.resume, hpc, Handler.findRound] at hnext ⊢
    split at hnext
    · next hurl =>
      rw [if_pos hurl]
      exact ⟨h, he⟩
    · simp at hnext
  · -- The insertion allocates the next address.
    rw [Handler.op, hpc] at hop
    obtain rfl := Option.some.inj hop
    obtain rfl := Option.some.inj hexec
    rw [Handler.resume, hpc]
    exact ⟨rfl, Nat.lt_succ_self _⟩
  · have hadded := hframe.added (by rintro hpc; simp [hpc, Pc.role] at hload)
    unfold Placed at h ⊢
    rw [hload] at h
    rw [hfinish, hadded, hframe.cacheNode (by simp [hload])]
    exact h
  · have hlookup : t.pc.role ≠ .lookup := by rcases hrole with hrole | hrole <;> simp [hrole]
    have hadded := hframe.added (by rintro hpc; simp [hpc, Pc.role] at hlookup)
    unfold Placed at h ⊢
    rw [hdone, hadded, hframe.cacheNode hlookup]
    rcases hrole with hrole | hrole <;> rw [hrole] at h
    · exact ⟨fun e he => by simp [h.1] at he, h.2⟩
    · exact ⟨fun e he => Option.some.inj (h.1.symm.trans he), h.2⟩

/-- Every access keeps the pointers of the map bounded. -/
theorem Bounded.exec {i : Nat} {o : Op} {memory memory' : Memory} {t : Handler}
    (h : Bounded memory t) (hexec : o.exec i memory = some memory') : Bounded memory' t := by
  have hle := Op.exec_fresh_le hexec
  rcases Op.exec_map hexec with hsame | ⟨url, -, rfl⟩ | ⟨prev, entry, -, rfl⟩
  · refine ⟨?_, ?_, fun e he => (h.cursor e he).trans_le hle⟩
    · rw [hsame.first, hsame.fresh]
      exact h.first
    · intro e
      rw [hsame.next, hsame.fresh]
      exact h.next e
  · refine ⟨?_, ?_, fun e he => (h.cursor e he).trans_le hle⟩
    · rintro e he
      obtain rfl : memory.fresh = e := Option.some.inj he
      exact Nat.lt_succ_self _
    · intro e e' he
      rw [Memory.next_mapAdd] at he
      by_cases hfresh : e = memory.fresh
      · subst hfresh
        rw [Function.update_self] at he
        exact Nat.lt_succ_of_lt (h.first e' he)
      · rw [Function.update_of_ne hfresh] at he
        exact Nat.lt_succ_of_lt (h.next e e' he)
  · cases prev with
    | none =>
        refine ⟨fun e he => h.next entry e he, fun e e' he => ?_, h.cursor⟩
        rw [Memory.next_unlink_none] at he
        exact h.next e e' he
    | some p =>
        refine ⟨h.first, fun e e' he => ?_, h.cursor⟩
        rw [Memory.next_unlink_some] at he
        by_cases hp : e = p
        · subst hp
          rw [Function.update_self] at he
          exact h.next entry e' he
        · rw [Function.update_of_ne hp] at he
          exact h.next e e' he

/-- A walk along the chain only follows its pointers. -/
theorem Handler.cursor_resume {memory : Memory} {t : Handler} {e : Nat}
    (he : (t.resume memory).pc.cursor = some e) :
    t.pc.cursor = some e ∨ memory.first = some e ∨ ∃ e', memory.next e' = some e := by
  have hfollows := t.follows_resume memory
  cases hpc : t.pc <;> rw [hpc] at hfollows
  case lockMap =>
    rw [Handler.resume, hpc] at he
    exact Or.inr (Or.inl he)
  case removeLock =>
    rw [Handler.resume, hpc] at he
    exact Or.inr (Or.inl he)
  case find cursor =>
    rw [Handler.resume, hpc] at he
    cases cursor with
    | none => simp [findRound, Pc.cursor] at he
    | some e' =>
        simp only [findRound] at he
        split at he
        · simp [Pc.cursor] at he
        · exact Or.inr (Or.inr ⟨e', he⟩)
  case removeFind prev cursor =>
    rw [Handler.resume, hpc] at he
    cases cursor with
    | none => simp [removeRound, Pc.cursor] at he
    | some e' =>
        simp only [removeRound] at he
        split at he
        · exact Or.inl he
        · exact Or.inr (Or.inr ⟨e', he⟩)
  -- No other statement starts or continues a walk.
  all_goals
    generalize (t.resume memory).pc = next at he hfollows
    cases hfollows <;> simp [Pc.cursor] at he

theorem Bounded.resume {i : Nat} {o : Op} {memory memory' : Memory} {t : Handler}
    (h : Bounded memory t) (hexec : o.exec i memory = some memory') :
    Bounded memory' (t.resume memory) := by
  have hle := Op.exec_fresh_le hexec
  refine ⟨(h.exec hexec).first, (h.exec hexec).next, fun e he => Nat.lt_of_lt_of_le ?_ hle⟩
  rcases Handler.cursor_resume he with hcursor | hfirst | ⟨e', hnext⟩
  · exact h.cursor e hcursor
  · exact h.first e hfirst
  · exact h.next e' e hnext

section Reachable

variable {ok : State Nat Memory Handler → Nat → Prop} {s : State Nat Memory Handler}

theorem bounded_placed (hs : server.ReachableUnder Starts ok s) (i : Nat) :
    Bounded s.shared (s.thread i) ∧ Placed s.shared (s.thread i) := by
  refine serverThreads (L := fun _ memory t => Bounded memory t ∧ Placed memory t) ?_ ?_ ?_ hs i
  · intro i request env stale
    refine ⟨⟨?_, ?_, ?_⟩, rfl⟩ <;>
      simp [Memory.start, Memory.next, Cache.new, Handler.start, Pc.cursor]
  · intro s i o memory _ _ hall hop hexec
    exact ⟨(hall i).1.resume hexec, (hall i).2.resume (hall i).1 hop hexec⟩
  · intro s i j o memory _ _ _ hall _ hexec
    exact ⟨(hall j).1.exec hexec, (hall j).2.mono (Op.exec_fresh_le hexec)⟩

/-- After the lookup, a handler has an entry. -/
theorem cacheNode_lt (hs : server.ReachableUnder Starts ok s) {i : Nat}
    (h : (s.thread i).pc.role ≠ .lookup) : (s.thread i).cacheNode < s.shared.fresh := by
  have hplaced := (bounded_placed hs i).2
  unfold Placed at hplaced
  cases hrole : (s.thread i).pc.role <;> simp only [hrole, ne_eq, not_true] at hplaced h
  all_goals exact hplaced.2

/-- An entry that a handler added is allocated, and is the entry it works on. -/
theorem added_spec (hs : server.ReachableUnder Starts ok s) {i e : Nat}
    (h : (s.thread i).added = some e) : (s.thread i).cacheNode = e ∧ e < s.shared.fresh := by
  have hplaced := (bounded_placed hs i).2
  unfold Placed at hplaced
  cases hrole : (s.thread i).pc.role <;> simp only [hrole, h, reduceCtorEq, false_and] at hplaced
  case load => exact ⟨(Option.some.inj hplaced.1).symm, Option.some.inj hplaced.1 ▸ hplaced.2⟩
  case finish => exact ⟨(Option.some.inj hplaced.1).symm, Option.some.inj hplaced.1 ▸ hplaced.2⟩
  case done =>
    obtain rfl := hplaced.1 e rfl
    exact ⟨rfl, hplaced.2⟩

/-- A handler that has added an entry is past the lookup. -/
theorem role_ne_lookup_of_added (hs : server.ReachableUnder Starts ok s) {i e : Nat}
    (h : (s.thread i).added = some e) : (s.thread i).pc.role ≠ .lookup := by
  intro hrole
  have hplaced := (bounded_placed hs i).2
  rw [Placed, hrole] at hplaced
  simp [h] at hplaced

/-- Only the insertion changes which entry a handler has added. -/
theorem Handler.added_resume (memory : Memory) (t : Handler) :
    (t.resume memory).added = if t.pc = .mapAdd then some memory.fresh else t.added := by
  by_cases hpc : t.pc = .mapAdd
  · rw [if_pos hpc, Handler.resume, hpc]
  · rw [if_neg hpc, (t.frame memory).added hpc]

/-- A handler that takes a step has not returned. -/
theorem Handler.role_ne_done {t : Handler} {o : Op} (h : t.op = some o) : t.pc.role ≠ .done := by
  unfold op at h
  revert h
  cases t.pc <;> simp [Pc.role]

/-- Every entry was added by at most one handler. -/
theorem added_unique (hs : server.ReachableUnder Starts ok s) {i j e : Nat}
    (hi : (s.thread i).added = some e) (hj : (s.thread j).added = some e) : i = j := by
  refine serverInduction
    (I := fun s => ∀ i j e, (s.thread i).added = some e → (s.thread j).added = some e → i = j)
    ?_ ?_ hs i j e hi hj
  · rintro s ⟨-, hthread⟩ i j e hi
    obtain ⟨request, env, stale, heq⟩ := hthread i
    simp [heq, Handler.start] at hi
  · intro s k o memory hreach hunique _ _ _ i j e hi hj
    -- A handler other than `k` has added an entry allocated before the step.
    have hold {n : Nat} (hn : n ≠ k)
        (h : ((s.advance k memory ((s.thread k).resume s.shared)).thread n).added = some e) :
        (s.thread n).added = some e ∧ e < s.shared.fresh := by
      rw [State.advance_thread_of_ne _ _ _ hn] at h
      exact ⟨h, (added_spec hreach h).2⟩
    have hnew (h : ((s.advance k memory ((s.thread k).resume s.shared)).thread k).added =
        some e) : (s.thread k).added = some e ∨ e = s.shared.fresh := by
      rw [State.advance_thread_self, Handler.added_resume] at h
      split at h
      · exact Or.inr (Option.some.inj h).symm
      · exact Or.inl h
    by_cases hik : i = k <;> by_cases hjk : j = k
    · rw [hik, hjk]
    · subst hik
      obtain ⟨hj', hlt⟩ := hold hjk hj
      rcases hnew hi with hi' | rfl
      · exact hunique i j e hi' hj'
      · omega
    · subst hjk
      obtain ⟨hi', hlt⟩ := hold hik hi
      rcases hnew hj with hj' | rfl
      · exact hunique i j e hi' hj'
      · omega
    · exact hunique i j e (hold hik hi).1 (hold hjk hj).1

/-- Every entry was added by some handler. -/
theorem exists_added (hs : server.ReachableUnder Starts ok s) {e : Nat}
    (he : e < s.shared.fresh) : ∃ i, (s.thread i).added = some e := by
  refine serverInduction
    (I := fun s => ∀ e, e < s.shared.fresh → ∃ i, (s.thread i).added = some e) ?_ ?_ hs e he
  · rintro s ⟨hshared, -⟩ e he
    rw [hshared] at he
    exact absurd he (Nat.not_lt_zero e)
  · intro s k o memory hreach hall _ hop hexec e he
    have hadded := Handler.added_resume s.shared (s.thread k)
    by_cases hlt : e < s.shared.fresh
    · obtain ⟨i, hi⟩ := hall e hlt
      by_cases hik : i = k
      · subst hik
        have hpc : (s.thread i).pc ≠ .mapAdd := fun hpc =>
          role_ne_lookup_of_added hreach hi (by rw [hpc]; rfl)
        rw [if_neg hpc, hi] at hadded
        exact ⟨i, by rwa [State.advance_thread_self]⟩
      · exact ⟨i, by rwa [State.advance_thread_of_ne _ _ _ hik]⟩
    · rcases Op.exec_map hexec with hsame | ⟨url, rfl, rfl⟩ | ⟨prev, entry, rfl, rfl⟩
      · exact absurd (hsame.fresh ▸ he) hlt
      · rw [if_pos (Handler.op_mapAdd hop).1] at hadded
        have hfresh : s.shared.fresh = e :=
          Nat.le_antisymm (Nat.le_of_not_lt hlt) (Nat.le_of_lt_succ he)
        exact ⟨k, by rwa [State.advance_thread_self, ← hfresh]⟩
      · cases prev <;> exact absurd he hlt

end Reachable

end Proxy
end OperatingSystems
