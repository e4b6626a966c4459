import OperatingSystems.Proxy.Fetch
import OperatingSystems.Proxy.Keys
import OperatingSystems.Proxy.Removal

/-!
# Lifetime of entries

`map_remove` frees what it unlinks at once, while handlers keep the pointers that
`map_find_by_url` and `map_add` gave them.

* `unlinks_unused` — when every `map_remove` starts at a time at which no other request for its URL
  is being served, it frees no entry that a handler still uses.
* `exists_access_of_removes` — from every other start of `map_remove` the server can go on until a
  handler is at a statement on the entry that was freed.
* `entry_alive` — so no handler takes a step on a freed entry exactly as long as this is observed.
-/

namespace OperatingSystems
namespace Proxy

open Threads

/-! ### Entries in use -/

/-- The entry that the next statement reads, locks or unlocks, if the handler
obtained it from `map_find_by_url` or `map_add`. -/
def Handler.accesses (t : Handler) : Option Nat :=
  match t.pc with
  | .readFirst | .waitLock | .waitCheck | .waitSleep | .waitAsleep | .waitRelock => some t.cacheNode
  | .waitReturn _ | .rdlock _ | .send _ | .rdunlock _ _ => some t.cacheNode
  | .stateLock _ | .stateRead _ | .stateUnlock _ _ => some t.cacheNode
  | .failLock _ | .failSet _ | .failUnlock _ => some t.cacheNode
  | .listLock _ | .listAppend _ | .listUnlock _ _ | .wrlock _ _ => some t.cacheNode
  | .unlockPrev _ _ | .unlockCurrent _ => some t.cacheNode
  | .doneLock | .doneSet | .doneUnlock => some t.cacheNode
  | _ => none

/-- The statements between obtaining an entry and the last access to it. -/
def Pc.uses : Pc → Bool
  | .doneUnlock => true
  | pc => pc.role = .hit ∨ pc.role = .load

/-- The handler has obtained the entry and has not finished with it. -/
def Handler.Uses (t : Handler) (e : Nat) : Prop :=
  t.pc.uses = true ∧ t.cacheNode = e

/-- When handler `i` starts `map_remove`, every request for the URL that is removed has not been
looked up yet, or its handler is done with its entry. -/
def RemovesUnused (request : Nat → Request) (s : State Nat Memory Handler) (i : Nat) : Prop :=
  (s.thread i).pc = .removeLock →
    ∀ j, (request j).searchPath = (s.thread i).searchPath → (s.thread j).pc.uses = false

theorem Handler.uses_of_accesses {t : Handler} {e : Nat} (h : t.accesses = some e) :
    t.Uses e := by
  unfold accesses at h
  split at h <;> simp_all [Uses, Pc.uses, Pc.role]

/-- A handler that uses its entry is past the lookup. -/
theorem Pc.role_ne_lookup_of_uses {pc : Pc} (h : pc.uses = true) : pc.role ≠ .lookup := by
  revert h
  cases pc <;> simp [uses, role]

/-- An entry is obtained by a lookup or an insertion, and kept. -/
theorem Handler.uses_resume {memory : Memory} {t : Handler}
    (h : (t.resume memory).pc.uses = true) :
    (t.pc.uses = true ∧ (t.resume memory).cacheNode = t.cacheNode) ∨
      (t.resume memory).pc = .foundUnlock ∨ t.pc = .mapAdd := by
  have hpc : t.pc.uses = true ∨ (t.resume memory).pc = .foundUnlock ∨ t.pc = .mapAdd := by
    have hfollows := t.follows_resume memory
    generalize (t.resume memory).pc = next at h hfollows ⊢
    generalize t.pc = pc at hfollows ⊢
    cases hfollows <;> simp_all [Pc.uses, Pc.role]
  exact hpc.imp_left fun huses =>
    ⟨huses, (t.frame memory).cacheNode (Pc.role_ne_lookup_of_uses huses)⟩

section Reachable

variable {request : Nat → Request} {ok : State Nat Memory Handler → Nat → Prop}
  {s : State Nat Memory Handler}

/-- The entry in use is the one that was found, or the one that was added. -/
theorem hit_or_added_of_uses (hs : server.ReachableUnder Starts ok s) {i : Nat}
    (h : (s.thread i).pc.uses = true) :
    (s.thread i).pc.role = .hit ∨ (s.thread i).added = some (s.thread i).cacheNode := by
  have hplaced := (bounded_placed hs i).2
  unfold Placed at hplaced
  revert h hplaced
  cases (s.thread i).pc <;> simp +contextual [Pc.uses, Pc.role]

/-- During the walk of `map_remove` nobody comes to use an entry with the URL that is removed: the
mutex of the map is held. -/
theorem removes_unused (hs : server.ReachableUnder (StartsFor request) (RemovesUnused request) s)
    {i : Nat} (h : (s.thread i).pc.removes = true) (j : Nat)
    (hpath : (request j).searchPath = (s.thread i).searchPath) :
    (s.thread j).pc.uses = false := by
  refine serverInduction (I := fun s => ∀ i, (s.thread i).pc.removes = true → ∀ j,
    (request j).searchPath = (s.thread i).searchPath → (s.thread j).pc.uses = false) ?_ ?_ hs
    i h j hpath
  · rintro s ⟨-, hthread⟩ i h
    obtain ⟨env, stale, hi⟩ := hthread i
    rw [hi] at h
    cases h
  · intro s k o memory hreach hall hok hop hexec i h j hpath
    have hreach := reachable_starts hreach
    by_cases hik : i = k
    · subst hik
      rw [State.advance_thread_self] at h hpath
      obtain ⟨hbefore, hsame⟩ := Handler.removes_resume h
      rw [hsame] at hpath
      by_cases hji : j = i
      · subst hji
        rw [State.advance_thread_self]
        revert h
        cases ((s.thread j).resume s.shared).pc <;> simp [Pc.removes, Pc.uses, Pc.role]
      · rw [State.advance_thread_of_ne _ _ _ hji]
        rcases hbefore with hstart | hwalk
        · exact hok hstart j hpath
        · exact hall i hwalk j hpath
    · rw [State.advance_thread_of_ne _ _ _ hik] at h hpath
      have hunused := hall i h j hpath
      by_cases hjk : j = k
      · subst hjk
        have hwalks : (s.thread j).pc.walks = false := by
          refine walks_eq_false hreach (Ne.symm hik) ?_
          revert h
          cases (s.thread i).pc <;> simp [Pc.removes, Pc.walks]
        rw [State.advance_thread_self, ← Bool.not_eq_true]
        intro huses
        -- An entry is only obtained under the mutex of the map.
        rcases Handler.uses_resume huses with ⟨hbefore, -⟩ | hfound | hadd
        · simp [hunused] at hbefore
        · have hwalk := @Handler.walks_resume s.shared (s.thread j)
          have hfollows := (s.thread j).follows_resume s.shared
          rw [hfound] at hfollows
          generalize (s.thread j).pc = pc at hwalks hfollows
          cases hfollows with
          | findHit e => simp [Pc.walks] at hwalks
        · simp [hadd, Pc.walks] at hwalks
      · rw [State.advance_thread_of_ne _ _ _ hjk]
        exact hunused

/-- No handler uses the entry that is unlinked. -/
theorem unlinks_unused (hs : server.ReachableUnder (StartsFor request) (RemovesUnused request) s)
    {i e : Nat} {prev : Option Nat} (hpc : (s.thread i).pc = .removeUnlink prev e) (j : Nat) :
    ¬ (s.thread j).Uses e := by
  rintro ⟨huses, hnode⟩
  have hreach := reachable_starts hs
  obtain ⟨l, -, hwalks⟩ := linked hreach
  have hat := hwalks i
  rw [Walks, hpc] at hat
  obtain ⟨l₁, l₂, -, -, hurl⟩ := hat
  have hkey := url_cacheNode hs (hit_or_added_of_uses hreach huses)
  rw [hnode, hurl] at hkey
  have hunused := removes_unused hs (by rw [hpc]; rfl) j hkey.symm
  simp [hunused] at huses

/-- Every entry in use is alive. -/
theorem uses_alive (hs : server.ReachableUnder (StartsFor request) (RemovesUnused request) s)
    (i : Nat) (huses : (s.thread i).pc.uses = true) :
    (s.shared.cache (s.thread i).cacheNode).destroyed = false := by
  refine serverForThreads (L := fun _ memory t => t.pc.uses = true →
    (memory.cache t.cacheNode).destroyed = false) ?_ ?_ ?_ hs i huses
  · intro i env stale h
    cases h
  · intro s i o memory hreach hall hop hexec h
    obtain ⟨l, hlinked, hwalks⟩ := linked (reachable_starts hreach)
    rcases Op.exec_map hexec with hsame | ⟨url, rfl, rfl⟩ | ⟨prev, entry, rfl, rfl⟩
    · rw [hsame.destroyed]
      rcases Handler.uses_resume h with ⟨huses, hnode⟩ | hfound | hpc
      · rw [hnode]
        exact hall i huses
      · have hat := (hwalks i).resume hlinked
        rw [Walks, hfound] at hat
        exact hlinked.live _ hat.1
      · rw [Handler.op, hpc] at hop
        exact absurd (Option.some.inj hop).symm (hsame.ne_mapAdd hexec _)
    · have hpc := (Handler.op_mapAdd hop).1
      have hnode : ((s.thread i).resume s.shared).cacheNode = s.shared.fresh := by
        rw [Handler.resume, hpc]
      rw [hnode, s.shared.cache_mapAdd_fresh url]
      rfl
    · rw [Handler.resume, Handler.op_unlink hop] at h
      simp [Pc.uses, Pc.role] at h
  · intro s i j o memory hreach hji hall hop hexec h
    rcases Op.exec_map hexec with hsame | ⟨url, rfl, rfl⟩ | ⟨prev, entry, rfl, rfl⟩
    · rw [hsame.destroyed]
      exact hall j h
    · have hne := Nat.ne_of_lt
        (cacheNode_lt (reachable_starts hreach) (Pc.role_ne_lookup_of_uses h))
      rw [s.shared.cache_mapAdd_of_ne url hne]
      exact hall j h
    · have hne : (s.thread j).cacheNode ≠ entry := fun heq =>
        unlinks_unused hreach (Handler.op_unlink hop) j ⟨h, heq⟩
      rw [← Bool.not_eq_true, (s.shared.cache_unlink prev entry _).2.2.2.2, hall j h]
      simp [hne]

end Reachable

/-! ### The server goes on -/

namespace Handler

variable {memory : Memory} {t : Handler}

/-- The body loop leads to a statement on the entry, or to `send` with fewer bytes left. -/
theorem bodyRead_resume (hpc : t.pc = .bodyRead) :
    (t.resume memory).accesses = some t.cacheNode ∨
      (t.resume memory).pc = .bodySend ∧ (t.resume memory).cacheNode = t.cacheNode ∧
        (t.resume memory).loader.conn.bytes.length < t.loader.conn.bytes.length := by
  rw [resume, hpc]
  simp only [bodyRound]
  split
  · cases t.current <;> exact .inl rfl
  · next hread =>
    cases hneed : t.loader.readBody.2.needToCache with
    | true => exact .inl rfl
    | false =>
        refine .inr ⟨rfl, rfl, ?_⟩
        rw [Loader.readBody_fst] at hread
        have hlength := List.length_pos_iff.mpr hread
        rw [List.length_take] at hlength
        rw [Loader.readBody_conn_bytes, List.length_drop]
        omega

theorem bodySend_resume (hpc : t.pc = .bodySend) :
    (t.resume memory).pc = .bodyRead ∧ (t.resume memory).cacheNode = t.cacheNode ∧
      (t.resume memory).loader.conn = t.loader.conn := by
  rw [resume, hpc]
  exact ⟨rfl, rfl, Loader.send_conn⟩

/-- After the header loop the headers are added, or the body is read. -/
theorem headerLoop_resume (hpc : t.pc = .headerLoop) :
    (t.resume memory).cacheNode = t.cacheNode ∧
      ((t.resume memory).pc = .bodyRead ∨ (t.resume memory).accesses = some t.cacheNode) := by
  rw [resume, hpc]
  refine ⟨rfl, ?_⟩
  unfold headerRound accesses
  cases (t.loader.headerLoop t.env maxRedirects).2 with
  | none => exact .inl rfl
  | some headers => exact .inr rfl

end Handler

/-- A run that goes on after a step. -/
theorem reachable_step {s s' t : State Nat Memory Handler} {i : Nat}
    (hstep : server.step s i = some s') (h : server.Reachable (· = s') t) :
    server.Reachable (· = s) t :=
  Program.ReachableUnder.trans (.step (.start rfl) trivial hstep) h

/-- A step which touches no shared memory. -/
theorem step_local {s : State Nat Memory Handler} {i : Nat} (hop : (s.thread i).op = some .local) :
    server.step s i = some (s.advance i s.shared ((s.thread i).resume s.shared)) :=
  server.step_eq_some_iff.mpr ⟨.local, s.shared, hop, rfl, rfl⟩

/-- The server can go on until handler `j` is at a statement on the freed entry `e`. -/
def ReachesFreed (s : State Nat Memory Handler) (j e : Nat) : Prop :=
  ∃ t, server.Reachable (· = s) t ∧ (t.thread j).accesses = some e ∧
    (t.shared.cache e).destroyed = true

namespace ReachesFreed

variable {s s' : State Nat Memory Handler} {i j e : Nat}

theorem here (haccess : (s.thread j).accesses = some e)
    (hfreed : (s.shared.cache e).destroyed = true) : ReachesFreed s j e :=
  ⟨s, .start rfl, haccess, hfreed⟩

theorem of_reachable (hs : server.Reachable (· = s) s') (h : ReachesFreed s' j e) :
    ReachesFreed s j e := by
  obtain ⟨t, ht, haccess, hfreed⟩ := h
  exact ⟨t, hs.trans ht, haccess, hfreed⟩

theorem after_step (hstep : server.step s i = some s') (h : ReachesFreed s' j e) :
    ReachesFreed s j e :=
  of_reachable (reachable_step hstep (.start rfl)) h

/-- The body loop ends, and the statements behind it are on the entry. -/
theorem of_bodyRead (hpc : (s.thread j).pc = .bodyRead) (hnode : (s.thread j).cacheNode = e)
    (hfreed : (s.shared.cache e).destroyed = true) : ReachesFreed s j e := by
  induction hlength : (s.thread j).loader.conn.bytes.length using Nat.strong_induction_on
    generalizing s with
  | h n ih =>
      refine after_step (step_local (by rw [Handler.op, hpc])) ?_
      rcases @Handler.bodyRead_resume s.shared _ hpc with haccess | ⟨hsend, hkept, hless⟩
      · exact here (by rw [State.advance_thread_self, haccess, hnode]) hfreed
      · -- `send` to the client, and the next round
        obtain ⟨hread, hstays, hconn⟩ := @Handler.bodySend_resume s.shared _ hsend
        refine after_step (step_local (by rw [State.advance_thread_self, Handler.op, hsend])) ?_
        simp only [State.advance_thread_self, State.advance_shared]
        refine ih _ (hlength ▸ hless) ?_ ?_ hfreed ?_
        · rw [State.advance_thread_self, hread]
        · rw [State.advance_thread_self, hstays, hkept, hnode]
        · rw [State.advance_thread_self, hconn]

theorem of_headerLoop (hpc : (s.thread j).pc = .headerLoop) (hnode : (s.thread j).cacheNode = e)
    (hfreed : (s.shared.cache e).destroyed = true) : ReachesFreed s j e := by
  refine after_step (step_local (by rw [Handler.op, hpc])) ?_
  obtain ⟨hkept, hread | haccess⟩ := @Handler.headerLoop_resume s.shared _ hpc
  · refine of_bodyRead ?_ ?_ hfreed
    · rwa [State.advance_thread_self]
    · rw [State.advance_thread_self, hkept, hnode]
  · exact here (by rw [State.advance_thread_self, haccess, hnode]) hfreed

/-- The failure branches lock the entry under the mutex of the map. -/
theorem of_failLockMap {f : Failure} (hpc : (s.thread j).pc = .failLockMap f)
    (hnode : (s.thread j).cacheNode = e) (hmap : s.shared.locks .map = .unlocked)
    (hfreed : (s.shared.cache e).destroyed = true) : ReachesFreed s j e := by
  have hop : (s.thread j).op = some (.acquire .map .write) := by rw [Handler.op, hpc]
  have hexec : (Op.acquire .map .write).exec j s.shared =
      some { s.shared with locks := Function.update s.shared.locks .map ⟨some j, ∅⟩ } := by
    simp [Op.exec, Memory.acquire, hmap, RwLock.acquire, RwLock.unlocked]
  refine after_step (server.step_eq_some_iff.mpr ⟨_, _, hop, hexec, rfl⟩) (here ?_ hfreed)
  rw [State.advance_thread_self]
  show ((s.thread j).resume s.shared).accesses = some e
  rw [Handler.resume, hpc, ← hnode]
  rfl

theorem of_requestSend (hpc : (s.thread j).pc = .requestSend) (hnode : (s.thread j).cacheNode = e)
    (hmap : s.shared.locks .map = .unlocked) (hfreed : (s.shared.cache e).destroyed = true) :
    ReachesFreed s j e := by
  refine after_step (step_local (by rw [Handler.op, hpc])) ?_
  rw [Handler.resume, hpc]
  simp only [Handler.requestRound]
  split
  · exact of_headerLoop (by rw [State.advance_thread_self])
      (by rw [State.advance_thread_self, hnode]) hfreed
  · exact of_failLockMap (by rw [State.advance_thread_self])
      (by rw [State.advance_thread_self]; exact hnode) hmap hfreed

theorem of_connect (hpc : (s.thread j).pc = .connect) (hnode : (s.thread j).cacheNode = e)
    (hmap : s.shared.locks .map = .unlocked) (hfreed : (s.shared.cache e).destroyed = true) :
    ReachesFreed s j e := by
  refine after_step (step_local (by rw [Handler.op, hpc])) ?_
  rw [Handler.resume, hpc]
  simp only [Handler.connectRound]
  split
  · exact of_failLockMap (by rw [State.advance_thread_self])
      (by rw [State.advance_thread_self]; exact hnode) hmap hfreed
  · exact of_requestSend (by rw [State.advance_thread_self])
      (by rw [State.advance_thread_self]; exact hnode) hmap hfreed

/-- A handler that still uses the freed entry, and does not hold the mutex of the map, comes to a
statement on it when it is the only one to run. -/
theorem of_uses (huses : (s.thread j).Uses e) (hheld : (Lock.map, Mode.write) ∉ (s.thread j).held)
    (hmap : s.shared.locks .map = .unlocked) (hfreed : (s.shared.cache e).destroyed = true) :
    ReachesFreed s j e := by
  obtain ⟨huses, hnode⟩ := huses
  cases hpc : (s.thread j).pc
  case bodySend =>
    obtain ⟨hread, hstays, -⟩ := @Handler.bodySend_resume s.shared _ hpc
    refine after_step (step_local (by rw [Handler.op, hpc])) (of_bodyRead ?_ ?_ hfreed)
    · rwa [State.advance_thread_self]
    · rw [State.advance_thread_self, hstays, hnode]
  case bodyRead => exact of_bodyRead hpc hnode hfreed
  case headerLoop => exact of_headerLoop hpc hnode hfreed
  case failLockMap f => exact of_failLockMap hpc hnode hmap hfreed
  case requestSend => exact of_requestSend hpc hnode hmap hfreed
  case connect => exact of_connect hpc hnode hmap hfreed
  case foundUnlock => simp [Handler.held, hpc] at hheld
  case addedUnlock => simp [Handler.held, hpc] at hheld
  case failUnlockMap f => simp [Handler.held, hpc] at hheld
  -- The other statements in question are on the entry; the rest does not use it.
  all_goals
    first
      | exact here (by rw [Handler.accesses, hpc]; exact congrArg some hnode) hfreed
      | simp [hpc, Pc.uses, Pc.role] at huses

end ReachesFreed

/-- The walk of `map_remove` finds the entry with its URL. -/
theorem exists_removeUnlink {s : State Nat Memory Handler} {i e : Nat} {l₁ l₂ : List Nat}
    (hlinked : Linked s.shared (l₁ ++ l₂))
    (hpc : (s.thread i).pc = .removeFind l₁.getLast? l₂.head?) (hmem : e ∈ l₂)
    (hurl : (s.shared.cache e).url = (s.thread i).searchPath) :
    ∃ t prev, server.Reachable (· = s) t ∧ t.shared = s.shared ∧
      (∀ j ≠ i, t.thread j = s.thread j) ∧ (t.thread i).pc = .removeUnlink prev e := by
  induction l₂ generalizing s l₁ with
  | nil => cases hmem
  | cons x l₂ ih =>
      rw [List.head?_cons] at hpc
      have hstep := step_local (s := s) (i := i) (by rw [Handler.op, hpc])
      have hresume : (s.thread i).resume s.shared =
          (s.thread i).removeRound s.shared l₁.getLast? (some x) := by
        rw [Handler.resume, hpc]
      rw [hresume, Handler.removeRound] at hstep
      by_cases hx : (s.shared.cache x).url = (s.thread i).searchPath
      · -- The URLs of the entries differ, so this is the entry.
        have hmem' : e ∈ l₁ ++ x :: l₂ := List.mem_append_right l₁ hmem
        have heq : x = e :=
          List.inj_on_of_nodup_map hlinked.urls (by simp) hmem' (hx.trans hurl.symm)
        rw [if_pos hx] at hstep
        refine ⟨_, l₁.getLast?, reachable_step hstep (.start rfl), rfl, fun j hj => ?_, ?_⟩
        · exact State.advance_thread_of_ne _ _ _ hj
        · rw [State.advance_thread_self, heq]
      · have hne : e ≠ x := by
          rintro rfl
          exact hx hurl
        rw [if_neg hx] at hstep
        have hnext : (some x : Option Nat) = (l₁ ++ [x]).getLast? ∧
            s.shared.next x = l₂.head? := ⟨by simp, hlinked.chain.next_eq⟩
        rw [hnext.1, hnext.2] at hstep
        generalize hs' : s.advance i s.shared _ = s' at hstep
        obtain ⟨t, prev, ht, hshared, hothers, hfound⟩ := @ih s' (l₁ ++ [x])
          (by rw [← hs']; simpa using hlinked)
          (by rw [← hs', State.advance_thread_self])
          ((List.mem_cons.mp hmem).resolve_left hne)
          (by rw [← hs', State.advance_thread_self]; exact hurl)
        refine ⟨t, prev, reachable_step hstep ht, ?_, fun j hj => ?_, hfound⟩
        · rw [hshared, ← hs', State.advance_shared]
        · rw [hothers j hj, ← hs', State.advance_thread_of_ne _ _ _ hj]

/-- `map_remove` frees the entry and gives the mutex of the map back. -/
theorem exists_removed {s : State Nat Memory Handler} {i e : Nat} {prev : Option Nat}
    (hpc : (s.thread i).pc = .removeUnlink prev e)
    (hreaders : (s.shared.locks .map).readers = ∅) :
    ∃ t, server.Reachable (· = s) t ∧ (∀ j ≠ i, t.thread j = s.thread j) ∧
      (t.shared.cache e).destroyed = true ∧ t.shared.locks .map = .unlocked := by
  have hop : (s.thread i).op = some (.unlink prev e) := by rw [Handler.op, hpc]
  have hremoved : ((s.thread i).resume s.shared).pc = .removeUnlock := by rw [Handler.resume, hpc]
  have hlocks : (s.shared.unlink prev e).locks = s.shared.locks := by cases prev <;> rfl
  have hfirst : server.step s i = some (s.advance i (s.shared.unlink prev e)
      ((s.thread i).resume s.shared)) :=
    server.step_eq_some_iff.mpr ⟨_, _, hop, rfl, rfl⟩
  generalize hs' : s.advance i _ _ = s' at hfirst
  have hop' : (s'.thread i).op = some (.release .map .write) := by
    rw [← hs', State.advance_thread_self, Handler.op, hremoved]
  have hsecond : server.step s' i = some (s'.advance i (s'.shared.release i .map .write)
      ((s'.thread i).resume s'.shared)) :=
    server.step_eq_some_iff.mpr ⟨_, _, hop', rfl, rfl⟩
  refine ⟨_, reachable_step hfirst (reachable_step hsecond (.start rfl)), fun j hj => ?_, ?_, ?_⟩
  · rw [State.advance_thread_of_ne _ _ _ hj, ← hs', State.advance_thread_of_ne _ _ _ hj]
  · rw [← hs']
    exact (s.shared.cache_unlink prev e e).2.2.2.2.mpr (.inr rfl)
  · rw [← hs']
    simp [Memory.release, hlocks, RwLock.release, RwLock.unlocked, hreaders]

section Reachable

variable {request : Nat → Request} {ok : State Nat Memory Handler → Nat → Prop}
  {s : State Nat Memory Handler}

/-- Every entry that is alive is in the map. -/
theorem onChain_of_alive (hs : server.ReachableUnder Starts ok s) {e : Nat}
    (he : e < s.shared.fresh) (halive : (s.shared.cache e).destroyed = false) :
    s.shared.OnChain e := by
  refine serverInduction (I := fun s => ∀ e, e < s.shared.fresh →
    (s.shared.cache e).destroyed = false → s.shared.OnChain e) ?_ ?_ hs e he halive
  · rintro s ⟨hshared, -⟩ e he
    rw [hshared] at he
    exact absurd he (Nat.not_lt_zero e)
  · intro s i o memory hreach hall _ hop hexec e he halive
    obtain ⟨l, hlinked, hwalks⟩ := linked hreach
    have hbefore (he : e < s.shared.fresh) (halive : (s.shared.cache e).destroyed = false) :
        e ∈ l := (Memory.onChain_iff hlinked.chain e).mp (hall e he halive)
    obtain ⟨l', haccess⟩ := (hwalks i).access hop hexec
    refine ⟨l', (haccess.linked hlinked).chain, ?_⟩
    cases haccess with
    | same hsame _ => exact hbefore (hsame.fresh ▸ he) ((hsame.destroyed e).symm.trans halive)
    | add _ hmemory _ =>
        subst hmemory
        by_cases hnew : e = s.shared.fresh
        · exact hnew ▸ List.mem_cons_self
        · rw [State.advance_shared, s.shared.cache_mapAdd_of_ne _ hnew] at halive
          exact List.mem_cons_of_mem _
            (hbefore (Nat.lt_of_le_of_ne (Nat.le_of_lt_succ he) hnew) halive)
    | remove l₁ l₂ entry _ hmemory hl _ =>
        subst hmemory
        have hfresh : e < s.shared.fresh := by
          cases hlast : l₁.getLast? <;> rw [hlast] at he <;> exact he
        have hfreed := (s.shared.cache_unlink l₁.getLast? entry e).2.2.2.2
        rw [State.advance_shared] at halive
        rw [halive] at hfreed
        have hkept : (s.shared.cache e).destroyed = false ∧ e ≠ entry := by
          simpa using hfreed
        have hmem := hbefore hfresh hkept.1
        rw [hl] at hmem
        simpa [hkept.2] using hmem

/-- When `map_remove` starts while a request for its URL is being served, the server can go on
until a handler is at a statement on the entry that was freed. -/
theorem exists_access_of_removes
    (hs : server.ReachableUnder (StartsFor request) (RemovesUnused request) s)
    {s' : State Nat Memory Handler} {i : Nat} (hstep : server.step s i = some s')
    (hbreaks : ¬ RemovesUnused request s i) : ∃ j e, ReachesFreed s' j e := by
  simp only [RemovesUnused, not_forall, exists_prop, Bool.not_eq_false] at hbreaks
  obtain ⟨hpc, j, hpath, huses⟩ := hbreaks
  have hreach := reachable_starts hs
  have hkeyed := url_cacheNode hs (hit_or_added_of_uses hreach huses)
  have halive := uses_alive hs j huses
  have hnode := cacheNode_lt hreach (Pc.role_ne_lookup_of_uses huses)
  have hchain := onChain_of_alive hreach hnode halive
  obtain ⟨l, hlinked, -⟩ := linked hreach
  have hmem := (Memory.onChain_iff hlinked.chain _).mp hchain
  have hji : j ≠ i := by
    rintro rfl
    simp [hpc, Pc.uses, Pc.role] at huses
  refine ⟨j, (s.thread j).cacheNode, ?_⟩
  -- Handler `i` takes the mutex of the map, so `j` does not have it.
  obtain ⟨o, memory, hop, hexec, rfl⟩ := server.step_eq_some_iff.mp hstep
  obtain rfl : Op.acquire .map .write = o := by
    change (s.thread i).op = some o at hop
    rw [Handler.op, hpc] at hop
    exact Option.some.inj hop
  obtain ⟨lock, hlock, rfl⟩ := Option.map_eq_some_iff.mp hexec
  have hheld : (Lock.map, Mode.write) ∉ (s.thread j).held := fun hheld =>
    RwLock.not_heldBy_of_acquire_write hlock j .write
      (((agrees hreach j).heldBy_iff _ _).mpr hheld)
  obtain ⟨⟨-, hreaders⟩, hlock⟩ := Option.ite_none_right_eq_some.mp hlock
  obtain rfl := Option.some.inj hlock
  generalize hs' : s.advance i _ _ = s' at hstep ⊢
  have hfind : (s'.thread i).pc = .removeFind none l.head? ∧
      (s'.thread i).searchPath = (s.thread i).searchPath := by
    rw [← hs', State.advance_thread_self]
    change ((s.thread i).resume s.shared).pc = _ ∧ ((s.thread i).resume s.shared).searchPath = _
    rw [Handler.resume, hpc, hlinked.chain.start_eq_head?]
    exact ⟨rfl, rfl⟩
  have hlinked' : Linked s'.shared ([] ++ l) := by
    rw [← hs']
    exact ⟨hlinked.chain, hlinked.urls, hlinked.allocated, hlinked.live⟩
  -- It walks to the entry, frees it and gives the mutex back.
  obtain ⟨t, prev, ht, hshared, hothers, hfound⟩ := exists_removeUnlink hlinked' hfind.1 hmem
    (by rw [hfind.2, ← hpath, ← hs']; exact hkeyed)
  have hfree : (t.shared.locks .map).readers = ∅ := by
    rw [hshared, ← hs']
    simpa using hreaders
  obtain ⟨u, hu, hothers', hfreed, hunlocked⟩ := exists_removed hfound hfree
  have hj : u.thread j = s.thread j := by
    rw [hothers' j hji, hothers j hji, ← hs', State.advance_thread_of_ne _ _ _ hji]
  refine .of_reachable (ht.trans hu) (.of_uses ?_ ?_ hunlocked hfreed)
  · rw [Handler.Uses, hj]
    exact ⟨huses, rfl⟩
  · rwa [hj]

/-- In every run in which no `map_remove` starts while a request for its URL is being served, no
handler is ever at a statement on an entry that was freed; and from every start of `map_remove`
that breaks this, the server can go on until a handler is at one. -/
theorem entry_alive (hs : server.ReachableUnder (StartsFor request) (RemovesUnused request) s) :
    (∀ i e, (s.thread i).accesses = some e → (s.shared.cache e).destroyed = false) ∧
      ∀ i s', server.step s i = some s' → ¬ RemovesUnused request s i →
        ∃ j e, ReachesFreed s' j e := by
  refine ⟨fun i e haccess => ?_, fun i s' hstep hbreaks => exists_access_of_removes hs hstep hbreaks⟩
  obtain ⟨huses, rfl⟩ := Handler.uses_of_accesses haccess
  exact uses_alive hs i huses

end Reachable

/-- Handler `i` does not start `map_remove`, or it is the first one and removes `http://a/`. -/
def removesFirst (s : State Nat Memory Handler) (i : Nat) : Bool :=
  (s.thread i).pc ≠ .removeLock ∨ i = 0 ∧ (s.thread i).searchPath = plainRequest.searchPath

/-- The entry of a `404` is removed, while another handler reads the entry of another URL. -/
theorem entry_alive_removed :
    let start := serving (fun i => if i = 0 then plainRequest else otherRequest)
      fun i => if i = 0 then answering missingResponse else answering plainResponse
    ∃ s ∈ server.runIf removesFirst start
        (List.replicate 4 0 ++ List.replicate 5 1 ++ List.replicate 3 2 ++ List.replicate 12 0),
      (s.shared.cache 0).destroyed = true ∧ (s.thread 0).pc = .returned ∧
        (s.thread 2).accesses = some 1 ∧ (s.shared.cache 1).destroyed = false := by
  intro start
  let request : Nat → Request := fun i => if i = 0 then plainRequest else otherRequest
  have hunused (s : State Nat Memory Handler) (i : Nat) (h : removesFirst s i = true) :
      RemovesUnused request s i := by
    intro hpc j hpath
    obtain ⟨rfl, hkey⟩ : i = 0 ∧ (s.thread i).searchPath = plainRequest.searchPath := by
      simpa [removesFirst, hpc] using h
    obtain rfl : j = 0 := by
      by_contra hj
      have hother : request j = otherRequest := if_neg hj
      rw [hkey, hother] at hpath
      exact absurd hpath (by decide)
    rw [hpc]
    rfl
  obtain ⟨s, hrun, hs, hfreed, hreturned, haccess⟩ :
      ∃ s ∈ server.runIf removesFirst start
          (List.replicate 4 0 ++ List.replicate 5 1 ++ List.replicate 3 2 ++ List.replicate 12 0),
        server.ReachableUnder (StartsFor request) (RemovesUnused request) s ∧
          (s.shared.cache 0).destroyed = true ∧ (s.thread 0).pc = .returned ∧
          (s.thread 2).accesses = some 1 :=
    exists_servingFor_runIf hunused (fun s => (s.shared.cache 0).destroyed = true ∧
      (s.thread 0).pc = .returned ∧ (s.thread 2).accesses = some 1) (by decide +kernel)
  exact ⟨s, hrun, hfreed, hreturned, haccess, (entry_alive hs).1 2 1 haccess⟩

/-- A loader frees its entry after a reader has found it. -/
theorem entry_alive_freed :
    let start := serving (fun _ => plainRequest) fun _ => answering missingResponse
    ∃ s ∈ server.runIf (fun _ _ => true) start
        (List.replicate 4 0 ++ List.replicate 3 1 ++ List.replicate 10 0),
      server.Reachable Starts s ∧ (s.thread 1).accesses = some 0 ∧
        (s.shared.cache 0).destroyed = true ∧ (server.step s 1).isSome = true := by
  intro start
  exact exists_serving_runIf (fun _ _ _ => trivial) (fun s => (s.thread 1).accesses = some 0 ∧
    (s.shared.cache 0).destroyed = true ∧ (server.step s 1).isSome = true) (by decide +kernel)

end Proxy
end OperatingSystems
