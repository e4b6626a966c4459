import OperatingSystems.Proxy.MapChain

/-!
# Removal of entries

`map_remove` takes a URL, not an entry: `removal_isolated` — while every removal
starts at the URL of the handler's own entry, or at a URL that is not in the map,
a handler only ever unlinks the entry that it added itself.  A redirect makes a
handler remove an entry of another one.
-/

namespace OperatingSystems
namespace Proxy

open Threads

/-- The entry is in the map. -/
def Memory.OnChain (memory : Memory) (e : Nat) : Prop :=
  ∃ l, Chain memory.next memory.first l ∧ e ∈ l

theorem Memory.onChain_iff {memory : Memory} {l : List Nat}
    (h : Chain memory.next memory.first l) (e : Nat) : memory.OnChain e ↔ e ∈ l :=
  ⟨fun ⟨_, hl, hmem⟩ => hl.unique h ▸ hmem, fun hmem => ⟨l, h, hmem⟩⟩

/-- When handler `i` starts `map_remove`, the key is the URL of its own entry or
the URL of no entry in the map. -/
def RemovesOwnUrl (s : State Nat Memory Handler) (i : Nat) : Prop :=
  (s.thread i).pc = .removeLock → ∀ e, (s.thread i).added = some e →
    (s.shared.cache e).url = (s.thread i).searchPath ∨
      ∀ x, s.shared.OnChain x → (s.shared.cache x).url ≠ (s.thread i).searchPath

/-- The loading code and what follows it, up to the unlinking. -/
def Pc.owns : Pc → Bool
  | .removeUnlock => false
  | pc => pc.role = .load ∨ pc.role = .finish

/-- The walk of `map_remove`. -/
def Pc.removes : Pc → Bool
  | .removeFind _ _ | .removeUnlink _ _ => true
  | _ => false

/-- A handler's own entry is in the map until it unlinks it, and a walk of
`map_remove` looks for no other. -/
structure OwnsEntry (memory : Memory) (l : List Nat) (t : Handler) : Prop where
  mem : ∀ e, t.added = some e → t.pc.owns = true → e ∈ l
  key : ∀ e, t.added = some e → t.pc.removes = true →
    (memory.cache e).url = t.searchPath ∨ ∀ x ∈ l, (memory.cache x).url ≠ t.searchPath

namespace Handler

variable {memory : Memory} {t : Handler}

theorem owns_resume (h : (t.resume memory).pc.owns = true) :
    t.pc.owns = true ∨ t.pc = .mapAdd := by
  have hfollows := t.follows_resume memory
  generalize (t.resume memory).pc = next at h hfollows
  generalize t.pc = pc at hfollows ⊢
  cases hfollows <;> simp_all [Pc.owns, Pc.role]

theorem removes_resume (h : (t.resume memory).pc.removes = true) :
    (t.pc = .removeLock ∨ t.pc.removes = true) ∧
      (t.resume memory).searchPath = t.searchPath := by
  have hfollows := t.follows_resume memory
  have hpc : t.pc = .removeLock ∨ t.pc.removes = true := by
    generalize (t.resume memory).pc = next at h hfollows
    generalize t.pc = pc at hfollows ⊢
    cases hfollows <;> simp_all [Pc.removes]
  have hload : t.pc.role ≠ .load := by
    revert hpc
    cases t.pc <;> simp [Pc.removes, Pc.role]
  refine ⟨hpc, ?_⟩
  rw [searchPath, searchPath, (t.frame memory).loader hload]

end Handler

section Isolation

variable {s : State Nat Memory Handler}

/-- What a handler unlinks is its own entry, if the walk was for its own entry. -/
theorem OwnsEntry.unlinks_own {l : List Nat} {t : Handler} {memory : Memory}
    {prev : Option Nat} {entry e : Nat} (hlinked : Linked memory l) (hwalks : Walks memory l t)
    (howns : OwnsEntry memory l t) (hpc : t.pc = .removeUnlink prev entry)
    (hadded : t.added = some e) : entry = e := by
  have hmem : e ∈ l := howns.mem e hadded (by rw [hpc]; rfl)
  rw [Walks, hpc] at hwalks
  obtain ⟨l₁, l₂, hl, -, hurl⟩ := hwalks
  have hentry : entry ∈ l := by
    rw [hl]
    simp
  rcases howns.key e hadded (by rw [hpc]; rfl) with hkey | hkey
  · exact List.inj_on_of_nodup_map hlinked.urls hentry hmem (hurl.trans hkey.symm)
  · exact absurd hurl (hkey entry hentry)

/-- A step which does not change the map keeps the handler's entry in it. -/
theorem OwnsEntry.resume {l : List Nat} {i : Nat} (hlinked : Linked s.shared l)
    (howns : OwnsEntry s.shared l (s.thread i)) (hok : RemovesOwnUrl s i)
    (hpc : (s.thread i).pc ≠ .mapAdd) :
    OwnsEntry s.shared l ((s.thread i).resume s.shared) := by
  have hadded (e : Nat) (he : ((s.thread i).resume s.shared).added = some e) :
      (s.thread i).added = some e := by
    rwa [Handler.added_resume, if_neg hpc] at he
  refine ⟨fun e he h => ?_, fun e he h => ?_⟩
  · exact howns.mem e (hadded e he) ((Handler.owns_resume h).resolve_right hpc)
  · obtain ⟨hstart | hwalk, hpath⟩ := Handler.removes_resume h
    · rw [hpath]
      exact (hok hstart e (hadded e he)).imp_right fun hnone x hx =>
        hnone x ⟨l, hlinked.chain, hx⟩
    · rw [hpath]
      exact howns.key e (hadded e he) hwalk

theorem OwnsEntry.sameMap {l : List Nat} {memory memory' : Memory} {t : Handler}
    (howns : OwnsEntry memory l t) (hsame : SameMap memory memory') :
    OwnsEntry memory' l t := by
  refine ⟨howns.mem, fun e he h => ?_⟩
  simpa only [hsame.url] using howns.key e he h

/-- Without a walk, only membership matters. -/
theorem OwnsEntry.of_not_walks {l : List Nat} {memory : Memory} {t : Handler}
    (hwalks : t.pc.walks = false) (hmem : ∀ e, t.added = some e → t.pc.owns = true → e ∈ l) :
    OwnsEntry memory l t := by
  refine ⟨hmem, fun e _ h => ?_⟩
  revert h hwalks
  cases t.pc <;> simp [Pc.walks, Pc.removes]

theorem ownsEntry (hs : server.ReachableUnder Starts RemovesOwnUrl s) :
    ∃ l, Linked s.shared l ∧ ∀ i, OwnsEntry s.shared l (s.thread i) := by
  refine serverInduction
    (I := fun s => ∃ l, Linked s.shared l ∧ ∀ i, OwnsEntry s.shared l (s.thread i)) ?_ ?_ hs
  · rintro s ⟨hshared, hthread⟩
    refine ⟨[], ?_, fun i => ?_⟩
    · exact hshared ▸ linked_start
    · obtain ⟨request, env, stale, hi⟩ := hthread i
      rw [hi]
      exact ⟨fun e he => by simp [Handler.start] at he, fun e he => by simp [Handler.start] at he⟩
  · rintro s k o memory hreach ⟨l, hlinked, howns⟩ hok hop hexec
    obtain ⟨l', hlinked', hwalks⟩ := linked hreach
    obtain rfl := hlinked.chain.unique hlinked'.chain
    obtain ⟨l', haccess⟩ := (hwalks k).access hop hexec
    refine ⟨l', haccess.linked hlinked, fun i => ?_⟩
    cases haccess with
    | same hsame hpc =>
        by_cases hik : i = k
        · subst hik
          rw [State.advance_thread_self]
          exact ((howns i).resume hlinked hok hpc).sameMap hsame
        · rw [State.advance_thread_of_ne _ _ _ hik]
          exact (howns i).sameMap hsame
    | add hpc hmemory _ =>
        by_cases hik : i = k
        · subst hik
          rw [State.advance_thread_self]
          refine .of_not_walks (by rw [Handler.resume, hpc]; rfl) fun e he _ => ?_
          rw [Handler.added_resume, if_pos hpc] at he
          rw [← Option.some.inj he]
          exact List.mem_cons_self
        · rw [State.advance_thread_of_ne _ _ _ hik]
          exact .of_not_walks (walks_eq_false hreach hik (by rw [hpc]; rfl)) fun e he h =>
            List.mem_cons_of_mem _ ((howns i).mem e he h)
    | remove l₁ l₂ entry hpc hmemory hl _ =>
        -- The handler takes out the entry that it has added itself, and nobody else has added that.
        have hadded : (s.thread k).added = some entry := by
          have hplaced := (bounded_placed hreach k).2
          rw [Placed, hpc] at hplaced
          rw [(howns k).unlinks_own hlinked (hwalks k) hpc hplaced.1]
          exact hplaced.1
        by_cases hik : i = k
        · subst hik
          rw [State.advance_thread_self]
          refine .of_not_walks (by rw [Handler.resume, hpc]; rfl) fun e _ h => ?_
          rw [Handler.resume, hpc] at h
          simp [Pc.owns] at h
        · rw [State.advance_thread_of_ne _ _ _ hik]
          refine .of_not_walks (walks_eq_false hreach hik (by rw [hpc]; rfl)) fun e he h => ?_
          have hmem := (howns i).mem e he h
          have hne : e ≠ entry := by
            rintro rfl
            exact hik (added_unique hreach he hadded)
          simpa [hl, hne] using hmem

/-- While every removal starts at the URL of the handler's own entry, or at a URL
that is not in the map, a step that takes an entry out of the map is a step of
the handler that added it. -/
theorem removal_isolated {s s' : State Nat Memory Handler} {i e : Nat}
    (hs : server.ReachableUnder Starts RemovesOwnUrl s) (hstep : server.step s i = some s')
    (hbefore : s.shared.OnChain e) (hafter : ¬ s'.shared.OnChain e) :
    (s.thread i).added = some e := by
  obtain ⟨l, hlinked, howns⟩ := ownsEntry hs
  obtain ⟨l', hlinked', hwalks⟩ := linked hs
  obtain rfl := hlinked.chain.unique hlinked'.chain
  have hmem := (Memory.onChain_iff hlinked.chain e).mp hbefore
  obtain ⟨o, memory, hop, hexec, rfl⟩ := server.step_eq_some_iff.mp hstep
  obtain ⟨l', haccess⟩ := (hwalks i).access hop hexec
  have hnot : e ∉ l' := fun hmem' => hafter ⟨l', (haccess.linked hlinked).chain, hmem'⟩
  cases haccess with
  | same _ _ => exact absurd hmem hnot
  | add _ _ _ => exact absurd (List.mem_cons_of_mem _ hmem) hnot
  | remove l₁ l₂ entry hpc _ hl _ =>
      have hplaced := (bounded_placed hs i).2
      rw [Placed, hpc] at hplaced
      have hown := (howns i).unlinks_own hlinked (hwalks i) hpc hplaced.1
      have heq : e = entry := by
        by_contra hne
        exact hnot (by simpa [hl, hne] using hmem)
      rw [heq, hown]
      exact hplaced.1

end Isolation

/-- The request of handler `i` still has the URL of its entry. -/
def keepsUrl (s : State Nat Memory Handler) (i : Nat) : Bool :=
  (s.thread i).added.all fun e => (s.shared.cache e).url = (s.thread i).searchPath

theorem removesOwnUrl_of_keepsUrl (s : State Nat Memory Handler) (i : Nat)
    (h : keepsUrl s i = true) : RemovesOwnUrl s i :=
  fun _ e he => Or.inl (by simpa [keepsUrl, he] using h)

/-- A loader that removes its entry again. -/
theorem removal_isolated_notFound :
    let start := serving (fun _ => plainRequest) fun _ => answering missingResponse
    ∃ s ∈ server.runIf keepsUrl start (List.replicate 13 0), ∃ s' ∈ server.step s 0,
      s.shared.OnChain 0 ∧ ¬ s'.shared.OnChain 0 ∧ (s.thread 0).added = some 0 := by
  intro start
  obtain ⟨s, hrun, hs, hbefore, hstep⟩ := exists_serving_runIf removesOwnUrl_of_keepsUrl
    (fun s => Chain s.shared.next s.shared.first [0] ∧
      (server.step s 0).any fun s' => Chain s'.shared.next s'.shared.first [])
    (by decide +kernel : (server.runIf keepsUrl start (List.replicate 13 0)).any _ = true)
  obtain ⟨s', hs', hafter⟩ := (Option.any_eq_true _ _).mp hstep
  have hon : s.shared.OnChain 0 := (Memory.onChain_iff hbefore 0).mpr (by simp)
  have hoff : ¬ s'.shared.OnChain 0 := by
    rw [Memory.onChain_iff (of_decide_eq_true hafter)]
    simp
  exact ⟨s, hrun, s', hs', hon, hoff, removal_isolated hs hs' hon hoff⟩

/-- A redirect makes one handler remove the entry that another one is loading. -/
theorem removal_isolated_redirect :
    let start := serving (fun i => if i = 0 then plainRequest else otherRequest)
      fun i => if i = 0 then redirecting movedResponse missingResponse else answering plainResponse
    ∃ s ∈ server.runIf (fun _ _ => true) start (List.replicate 4 1 ++ List.replicate 15 0),
      ∃ s' ∈ server.step s 0, server.Reachable Starts s ∧
        s.shared.OnChain 0 ∧ ¬ s'.shared.OnChain 0 ∧
        (s.thread 0).added = some 1 ∧ (s.thread 1).added = some 0 := by
  intro start
  obtain ⟨s, hrun, hs, hbefore, hadded₀, hadded₁, hstep⟩ :
      ∃ s ∈ server.runIf (fun _ _ => true) start (List.replicate 4 1 ++ List.replicate 15 0),
        server.Reachable Starts s ∧ Chain s.shared.next s.shared.first [1, 0] ∧
        (s.thread 0).added = some 1 ∧ (s.thread 1).added = some 0 ∧
        (server.step s 0).any fun s' => Chain s'.shared.next s'.shared.first [1] :=
    exists_serving_runIf (fun _ _ _ => trivial) (fun s =>
      Chain s.shared.next s.shared.first [1, 0] ∧
      (s.thread 0).added = some 1 ∧ (s.thread 1).added = some 0 ∧
      (server.step s 0).any fun s' => Chain s'.shared.next s'.shared.first [1])
      (by decide +kernel)
  obtain ⟨s', hs', hafter⟩ := (Option.any_eq_true _ _).mp hstep
  refine ⟨s, hrun, s', hs', hs, ?_, ?_, hadded₀, hadded₁⟩
  · exact (Memory.onChain_iff hbefore 0).mpr (by simp)
  · rw [Memory.onChain_iff (of_decide_eq_true hafter)]
    simp

end Proxy
end OperatingSystems
