import OperatingSystems.Proxy.Ownership

/-!
# The chain of the map

In every reachable state the pointers of the map form one chain, and every walk
along it is at a place of that chain.

* `linked` — the chain, and where the walks are.
* `complete_of_not_loading` — an entry is complete once its loader has left it.
* `singleFlight` — the chain is finite and acyclic, holds at most one entry for a
  URL, and an entry that is not complete has exactly one handler that added it
  and is still loading it.
-/

namespace OperatingSystems
namespace Proxy

open Threads

/-- The map holds exactly the entries `l`, first to last. -/
structure Linked (memory : Memory) (l : List Nat) : Prop where
  chain : Chain memory.next memory.first l
  urls : (l.map fun e => (memory.cache e).url).Nodup
  allocated : ∀ e ∈ l, e < memory.fresh
  live : ∀ e ∈ l, (memory.cache e).destroyed = false

theorem linked_start : Linked .start [] :=
  ⟨rfl, by simp, by simp, by simp⟩

/-- The walk of a handler along the entries `l`: what it has passed, and what it
knows of the entry it is at. -/
def Walks (memory : Memory) (l : List Nat) (t : Handler) : Prop :=
  match t.pc with
  | .find current => ∃ l₁ l₂, l = l₁ ++ l₂ ∧ current = l₂.head? ∧
      ∀ e ∈ l₁, (memory.cache e).url ≠ t.searchPath
  | .foundUnlock => t.cacheNode ∈ l ∧ (memory.cache t.cacheNode).url = t.searchPath
  | .mapAdd => ∀ e ∈ l, (memory.cache e).url ≠ t.searchPath
  | .removeFind prev current => ∃ l₁ l₂, l = l₁ ++ l₂ ∧ current = l₂.head? ∧ prev = l₁.getLast?
  | .removeUnlink prev entry => ∃ l₁ l₂, l = l₁ ++ entry :: l₂ ∧ prev = l₁.getLast? ∧
      (memory.cache entry).url = t.searchPath
  | _ => True

/-- The statements whose assertion `Walks` is about. -/
def Pc.walks : Pc → Bool
  | .find _ | .foundUnlock | .mapAdd | .removeFind _ _ | .removeUnlink _ _ => true
  | _ => false

theorem Walks.of_not_walks {memory : Memory} {l : List Nat} {t : Handler}
    (h : t.pc.walks = false) : Walks memory l t := by
  unfold Walks
  cases hpc : t.pc <;> simp_all [Pc.walks]

/-- A walk holds the mutex of the map. -/
theorem Handler.map_mem_held_of_walks {t : Handler} (h : t.pc.walks = true) :
    (Lock.map, Mode.write) ∈ t.held := by
  unfold held
  cases hpc : t.pc <;> simp_all [Pc.walks]

/-- Walks start with a lock of the map and go on along the chain. -/
theorem Handler.walks_resume {memory : Memory} {t : Handler}
    (h : (t.resume memory).pc.walks = true) :
    t.pc = .lockMap ∨ t.pc = .removeLock ∨ (∃ current, t.pc = .find current) ∨
      ∃ prev current, t.pc = .removeFind prev current := by
  have hfollows := t.follows_resume memory
  generalize (t.resume memory).pc = next at h hfollows
  generalize t.pc = pc at hfollows ⊢
  cases hfollows <;> simp_all [Pc.walks]

theorem Linked.sameMap {memory memory' : Memory} {l : List Nat} (h : Linked memory l)
    (hsame : SameMap memory memory') : Linked memory' l := by
  have hnext : memory'.next = memory.next := funext hsame.next
  refine ⟨?_, ?_, ?_, ?_⟩
  · rw [hnext, hsame.first]
    exact h.chain
  · simpa only [hsame.url] using h.urls
  · rw [hsame.fresh]
    exact h.allocated
  · simpa only [hsame.destroyed] using h.live

theorem Walks.sameMap {memory memory' : Memory} {l : List Nat} {t : Handler}
    (h : Walks memory l t) (hsame : SameMap memory memory') : Walks memory' l t := by
  unfold Walks at h ⊢
  simpa only [hsame.url] using h

/-- Insertion in front of the chain. -/
theorem Linked.mapAdd {memory : Memory} {l : List Nat} {url : List Byte} (h : Linked memory l)
    (hurl : ∀ e ∈ l, (memory.cache e).url ≠ url) :
    Linked (memory.mapAdd url) (memory.fresh :: l) := by
  have hne (e : Nat) (he : e ∈ l) : e ≠ memory.fresh := Nat.ne_of_lt (h.allocated e he)
  have hcache (e : Nat) (he : e ∈ l) : (memory.mapAdd url).cache e = memory.cache e :=
    memory.cache_mapAdd_of_ne url (hne e he)
  have hurls : (l.map fun e => ((memory.mapAdd url).cache e).url) =
      l.map fun e => (memory.cache e).url :=
    List.map_congr_left fun e he => by rw [hcache e he]
  refine ⟨?_, ?_, ?_, ?_⟩
  · rw [Memory.next_mapAdd]
    exact h.chain.push fun hmem => hne _ hmem rfl
  · rw [List.map_cons, hurls, List.nodup_cons, memory.cache_mapAdd_fresh url]
    refine ⟨fun hmem => ?_, h.urls⟩
    obtain ⟨e, he, heq⟩ := List.mem_map.mp hmem
    exact hurl e he heq
  · intro e he
    rcases List.mem_cons.mp he with rfl | he
    · exact Nat.lt_succ_self _
    · exact Nat.lt_succ_of_lt (h.allocated e he)
  · intro e he
    rcases List.mem_cons.mp he with rfl | he
    · rw [memory.cache_mapAdd_fresh url]
      rfl
    · rw [hcache e he]
      exact h.live e he

/-- Removal at the head, in the middle or at the end of the chain. -/
theorem Linked.unlink {memory : Memory} {l₁ l₂ : List Nat} {entry : Nat}
    (h : Linked memory (l₁ ++ entry :: l₂)) :
    Linked (memory.unlink l₁.getLast? entry) (l₁ ++ l₂) := by
  have hnodup := List.nodup_cons.mp (List.nodup_middle.mp h.chain.nodup)
  have hsub : (l₁ ++ l₂).Sublist (l₁ ++ entry :: l₂) :=
    List.Sublist.append_left (List.sublist_cons_self entry l₂) l₁
  have hmem (e : Nat) (he : e ∈ l₁ ++ l₂) : e ∈ l₁ ++ entry :: l₂ ∧ e ≠ entry := by
    exact ⟨hsub.subset he, fun heq => hnodup.1 (heq ▸ he)⟩
  have hcache (e : Nat) := memory.cache_unlink l₁.getLast? entry e
  refine ⟨?_, ?_, ?_, ?_⟩
  · rcases List.eq_nil_or_concat l₁ with rfl | ⟨l₀, p, rfl⟩
    · rw [List.getLast?_nil, Memory.next_unlink_none]
      exact h.chain.drop_head
    · rw [List.concat_eq_append, List.getLast?_concat, Memory.next_unlink_some]
      have hchain := h.chain
      simp only [List.concat_eq_append, List.append_assoc, List.singleton_append] at hchain ⊢
      exact hchain.unlink
  · simp only [fun e => (hcache e).1]
    exact h.urls.sublist (hsub.map _)
  · intro e he
    have := h.allocated e (hmem e he).1
    cases l₁.getLast? <;> exact this
  · intro e he
    obtain ⟨hin, hne⟩ := hmem e he
    have hlive := h.live e hin
    rw [← Bool.not_eq_true, (hcache e).2.2.2.2, hlive]
    simp [hne]

/-- A step which does not change the map moves the walk along it. -/
theorem Walks.resume {memory : Memory} {l : List Nat} {t : Handler} (hlinked : Linked memory l)
    (h : Walks memory l t) : Walks memory l (t.resume memory) := by
  cases hwalks : (t.resume memory).pc.walks with
  | false => exact .of_not_walks hwalks
  | true =>
      rcases Handler.walks_resume hwalks with hpc | hpc | ⟨current, hpc⟩ | ⟨prev, current, hpc⟩
      · rw [Handler.resume, hpc]
        exact ⟨[], l, rfl, hlinked.chain.start_eq_head?, by simp⟩
      · rw [Handler.resume, hpc]
        exact ⟨[], l, rfl, hlinked.chain.start_eq_head?, rfl⟩
      · rw [Handler.resume, hpc]
        simp only [Walks, hpc] at h
        obtain ⟨l₁, l₂, rfl, rfl, hpassed⟩ := h
        cases l₂ with
        | nil =>
            rw [List.append_nil]
            exact hpassed
        | cons e l₂ =>
            simp only [List.head?_cons, Handler.findRound]
            split
            · next hurl => exact ⟨List.mem_append_right l₁ List.mem_cons_self, hurl⟩
            · next hurl =>
                refine ⟨l₁ ++ [e], l₂, by simp, hlinked.chain.next_eq, ?_⟩
                intro x hx
                rcases List.mem_append.mp hx with hx | hx
                · exact hpassed x hx
                · rw [List.mem_singleton.mp hx]
                  exact hurl
      · rw [Handler.resume, hpc]
        simp only [Walks, hpc] at h
        obtain ⟨l₁, l₂, rfl, rfl, rfl⟩ := h
        cases l₂ with
        | nil => trivial
        | cons e l₂ =>
            simp only [List.head?_cons, Handler.removeRound]
            split
            · next hurl => exact ⟨l₁, l₂, rfl, rfl, hurl⟩
            · exact ⟨l₁ ++ [e], l₂, by simp, hlinked.chain.next_eq, by simp⟩

/-- What a step of the handler `t` does to the map with the entries `l`: nothing, an
insertion in front, or the removal of the entry that a walk has found. -/
inductive MapAccess (memory memory' : Memory) (l : List Nat) (t : Handler) : List Nat → Prop
  | same : SameMap memory memory' → t.pc ≠ .mapAdd → MapAccess memory memory' l t l
  | add : t.pc = .mapAdd → memory' = memory.mapAdd t.searchPath →
      (∀ e ∈ l, (memory.cache e).url ≠ t.searchPath) →
      MapAccess memory memory' l t (memory.fresh :: l)
  | remove (l₁ l₂ : List Nat) (entry : Nat) : t.pc = .removeUnlink l₁.getLast? entry →
      memory' = memory.unlink l₁.getLast? entry → l = l₁ ++ entry :: l₂ →
      (memory.cache entry).url = t.searchPath → MapAccess memory memory' l t (l₁ ++ l₂)

/-- A step finds what the walk of its handler says. -/
theorem Walks.access {memory memory' : Memory} {l : List Nat} {t : Handler} {i : Nat} {o : Op}
    (h : Walks memory l t) (hop : t.op = some o) (hexec : o.exec i memory = some memory') :
    ∃ l', MapAccess memory memory' l t l' := by
  rcases Op.exec_map hexec with hsame | ⟨url, rfl, rfl⟩ | ⟨prev, entry, rfl, rfl⟩
  · refine ⟨l, .same hsame fun hpc => ?_⟩
    rw [Handler.op, hpc] at hop
    exact hsame.ne_mapAdd hexec _ (Option.some.inj hop).symm
  · obtain ⟨hpc, rfl⟩ := Handler.op_mapAdd hop
    rw [Walks, hpc] at h
    exact ⟨_, .add hpc rfl h⟩
  · have hpc := Handler.op_unlink hop
    rw [Walks, hpc] at h
    obtain ⟨l₁, l₂, rfl, rfl, hurl⟩ := h
    exact ⟨_, .remove l₁ l₂ entry hpc rfl rfl hurl⟩

theorem MapAccess.linked {memory memory' : Memory} {l l' : List Nat} {t : Handler}
    (h : MapAccess memory memory' l t l') (hlinked : Linked memory l) : Linked memory' l' := by
  cases h with
  | same hsame _ => exact hlinked.sameMap hsame
  | add _ hmemory hurl => exact hmemory ▸ hlinked.mapAdd hurl
  | remove l₁ l₂ entry _ hmemory hl _ =>
      subst hl
      exact hmemory ▸ hlinked.unlink

/-- A handler that changes the map ends its walk. -/
theorem MapAccess.walk_ends {memory memory' : Memory} {l l' : List Nat} {t : Handler}
    (h : MapAccess memory memory' l t l') :
    (SameMap memory memory' ∧ l' = l) ∨
      (t.pc.walks = true ∧ (t.resume memory).pc.walks = false) := by
  cases h with
  | same hsame _ => exact Or.inl ⟨hsame, rfl⟩
  | add hpc _ _ =>
      right
      rw [Handler.resume, hpc]
      exact ⟨rfl, rfl⟩
  | remove l₁ l₂ entry hpc _ _ _ =>
      right
      rw [Handler.resume, hpc]
      exact ⟨rfl, rfl⟩

/-- `complete` is never taken back. -/
theorem Op.complete_mono {i : Nat} {o : Op} {memory memory' : Memory} {e : Nat}
    (hexec : o.exec i memory = some memory') (he : e < memory.fresh)
    (h : (memory.cache e).complete = true) : (memory'.cache e).complete = true := by
  cases Op.exec_list hexec he with
  | same _ _ hcomplete _ => rw [hcomplete, h]
  | sleep _ hcomplete _ => rw [hcomplete, h]
  | wake _ hcomplete _ => rw [hcomplete, h]
  | listAdd _ _ hcomplete _ => rw [hcomplete, h]
  | setComplete _ hcomplete _ => exact hcomplete

/-- The loading code is left by setting `complete`. -/
theorem Handler.doneSet_of_leaves {memory : Memory} {t : Handler} (h : t.pc.role = .load)
    (hleft : (t.resume memory).pc.role ≠ .load) : t.pc = .doneSet := by
  have hfollows := t.follows_resume memory
  generalize (t.resume memory).pc = next at hleft hfollows
  generalize t.pc = pc at h hfollows ⊢
  cases hfollows <;> simp_all [Pc.role]

section Reachable

variable {ok : State Nat Memory Handler → Nat → Prop} {s : State Nat Memory Handler}

/-- Two handlers do not walk at the same time. -/
theorem walks_unique (hs : server.ReachableUnder Starts ok s) {i j : Nat}
    (hi : (s.thread i).pc.walks = true) (hj : (s.thread j).pc.walks = true) : i = j :=
  holder_unique hs (Handler.map_mem_held_of_walks hi) (Handler.map_mem_held_of_walks hj)

/-- While one handler walks, no other does. -/
theorem walks_eq_false (hs : server.ReachableUnder Starts ok s) {i k : Nat} (hik : i ≠ k)
    (hk : (s.thread k).pc.walks = true) : (s.thread i).pc.walks = false := by
  rw [← Bool.not_eq_true]
  exact fun hi => hik (walks_unique hs hi hk)

/-- The map is a chain of live entries with different URLs, and every walk is at
a place of that chain. -/
theorem linked (hs : server.ReachableUnder Starts ok s) :
    ∃ l, Linked s.shared l ∧ ∀ i, Walks s.shared l (s.thread i) := by
  refine serverInduction
    (I := fun s => ∃ l, Linked s.shared l ∧ ∀ i, Walks s.shared l (s.thread i)) ?_ ?_ hs
  · rintro s ⟨hshared, hthread⟩
    refine ⟨[], ?_, fun i => ?_⟩
    · exact hshared ▸ linked_start
    · obtain ⟨request, env, stale, hi⟩ := hthread i
      rw [hi]
      trivial
  · rintro s k o memory hreach ⟨l, hlinked, hwalks⟩ _ hop hexec
    obtain ⟨l', haccess⟩ := (hwalks k).access hop hexec
    refine ⟨l', haccess.linked hlinked, fun i => ?_⟩
    rcases haccess.walk_ends with ⟨hsame, rfl⟩ | ⟨hk, hends⟩
    · by_cases hik : i = k
      · subst hik
        rw [State.advance_thread_self]
        exact ((hwalks i).resume hlinked).sameMap hsame
      · rw [State.advance_thread_of_ne _ _ _ hik]
        exact (hwalks i).sameMap hsame
    · -- The acting handler holds the mutex of the map, so nobody else is walking.
      by_cases hik : i = k
      · subst hik
        rw [State.advance_thread_self]
        exact .of_not_walks hends
      · rw [State.advance_thread_of_ne _ _ _ hik]
        exact .of_not_walks (walks_eq_false hreach hik hk)

/-- Once its loader has left the loading code, an entry is complete. -/
theorem complete_of_not_loading (hs : server.ReachableUnder Starts ok s) {i e : Nat}
    (hadded : (s.thread i).added = some e) (hrole : (s.thread i).pc.role ≠ .load) :
    (s.shared.cache e).complete = true := by
  refine serverThreads
    (L := fun _ memory t => ∀ e, t.added = some e → t.pc.role ≠ .load →
      (memory.cache e).complete = true) ?_ ?_ ?_ hs i e hadded hrole
  · intro i request env stale e he
    simp [Handler.start] at he
  · intro s i o memory hreach _ hall hop hexec e hadded hrole
    by_cases hpc : (s.thread i).pc = .mapAdd
    · refine absurd ?_ hrole
      rw [Handler.resume, hpc]
      rfl
    · rw [Handler.added_resume, if_neg hpc] at hadded
      by_cases hload : (s.thread i).pc.role = .load
      · rw [Handler.op, Handler.doneSet_of_leaves hload hrole, (added_spec hreach hadded).1] at hop
        obtain rfl := Option.some.inj hop
        obtain rfl := Option.some.inj hexec
        simp [Memory.setComplete, Memory.cache_setCache]
      · exact Op.complete_mono hexec (added_spec hreach hadded).2 (hall i e hadded hload)
  · intro s i j o memory hreach _ _ hall _ hexec e hadded hrole
    exact Op.complete_mono hexec (added_spec hreach hadded).2 (hall j e hadded hrole)

/-- The map's chain is finite and acyclic, holds at most one entry for a URL, and
every entry that is not complete has exactly one handler that added it and is
still loading it. -/
theorem singleFlight {s : State Nat Memory Handler} (hs : server.Reachable Starts s) :
    ∃ l, Chain s.shared.next s.shared.first l ∧ l.Nodup ∧
      (l.map fun e => (s.shared.cache e).url).Nodup ∧
      ∀ e ∈ l, (s.shared.cache e).complete = false →
        ∃! i, (s.thread i).added = some e ∧ (s.thread i).pc.role = .load := by
  obtain ⟨l, hlinked, -⟩ := linked hs
  refine ⟨l, hlinked.chain, hlinked.chain.nodup, hlinked.urls, fun e he hcomplete => ?_⟩
  obtain ⟨i, hi⟩ := exists_added hs (hlinked.allocated e he)
  refine ⟨i, ⟨hi, ?_⟩, fun j hj => added_unique hs hj.1 hi⟩
  by_contra hrole
  have htrue := complete_of_not_loading hs hi hrole
  simp [hcomplete] at htrue

end Reachable

/-- Two handlers that load two entries. -/
theorem singleFlight_two_loaders :
    let start := serving (fun i => if i = 0 then plainRequest else otherRequest)
      fun _ => answering plainResponse
    ∃ s ∈ server.runIf (fun _ _ => true) start (List.replicate 9 0 ++ List.replicate 9 1),
      Chain s.shared.next s.shared.first [1, 0] ∧
        (∃! i, (s.thread i).added = some 0 ∧ (s.thread i).pc.role = .load) ∧
        ∃! i, (s.thread i).added = some 1 ∧ (s.thread i).pc.role = .load := by
  intro start
  obtain ⟨s, hrun, hs, hchain, hcomplete₀, hcomplete₁⟩ :
      ∃ s ∈ server.runIf (fun _ _ => true) start (List.replicate 9 0 ++ List.replicate 9 1),
        server.Reachable Starts s ∧ Chain s.shared.next s.shared.first [1, 0] ∧
          (s.shared.cache 0).complete = false ∧ (s.shared.cache 1).complete = false :=
    exists_serving_runIf (fun _ _ _ => trivial) (fun s => Chain s.shared.next s.shared.first [1, 0] ∧
      (s.shared.cache 0).complete = false ∧ (s.shared.cache 1).complete = false)
      (by decide +kernel)
  obtain ⟨l, hl, -, -, hloading⟩ := singleFlight hs
  obtain rfl := hl.unique hchain
  exact ⟨s, hrun, hchain, hloading 0 (by simp) hcomplete₀, hloading 1 (by simp) hcomplete₁⟩

end Proxy
end OperatingSystems
