import OperatingSystems.BoundedQueue.Nodes

/-!
# The bounded queue is one atomic queue

* `Invariant` — what holds between any two steps; `Invariant.advance` — every step keeps it.
* `Correct` — the queue answers like `Fifo.run`, and its fields are right when the lock is free.
-/

namespace OperatingSystems
namespace BoundedQueue

open Threads Fifo

/-- The operations of thread `i`. -/
def operations {ι : Type*} [DecidableEq ι] (i : ι) (events : List (ι × Event Int)) :
    List (Event Int) :=
  events.filterMap fun p => if p.1 = i then some p.2 else none

section Invariant

variable {ι κ : Type*} [DecidableEq ι] {v : Version} {C : Client κ} {maxCount : Nat}

theorem operations_append (i j : ι) (events : List (ι × Event Int)) (new : List (Event Int)) :
    operations j (events ++ new.map (i, ·)) =
      operations j events ++ if i = j then new else [] := by
  unfold operations
  rw [List.filterMap_append, List.filterMap_map]
  by_cases hij : i = j
  · simp [hij]
  · simp [hij]

/-- The nodes of the queue are `l`; one thread at most holds the lock. -/
structure Invariant (v : Version) (maxCount : Nat) (s : State ι (Memory ι) (Thread κ))
    (l : List Nat) : Prop where
  sound : Sound maxCount s.shared l
  free : (∀ i, (s.thread i).inside = false) → s.shared.lock = 1
  taken : ∀ i, (s.thread i).inside = true → s.shared.lock = 0
  exclusive : ∀ i j, (s.thread i).inside = true → (s.thread j).inside = true → i = j
  quiet : (∀ i, (s.thread i).inside = false) →
    Balanced s.shared.queue l l.length l.length
  knows : ∀ i, (s.thread i).inside = true → Knows v maxCount s.shared l (s.thread i)
  owns : ∀ i, Owns s.shared l (s.thread i)
  apart : ∀ i j a, (s.thread i).owned = some a → (s.thread j).owned = some a → i = j
  logged : ∀ i, operations i s.shared.events = (s.thread i).log ++ (s.thread i).pending
  blocking : v = .conditionalVarible → ∀ e ∈ s.shared.events, e.2.ok = true

namespace Invariant

variable {s : State ι (Memory ι) (Thread κ)} {l : List Nat} {i j : ι} {o : Op}
  {memory : Memory ι}

/-- Who holds the lock after a step. -/
theorem inside_advance (h : Invariant v maxCount s l) (hop : (s.thread i).op C = some o)
    (hexec : o.exec i s.shared = some memory) {s' : State ι (Memory ι) (Thread κ)}
    (hs' : s' = s.advance i memory ((s.thread i).resume v C s.shared)) :
    ((∀ j, (s.thread j).inside = false) ∧ (∀ j, (s'.thread j).inside = true ↔ j = i) ∧
        memory.lock = 0) ∨
      ((s.thread i).inside = true ∧ (∀ j, (s'.thread j).inside = false) ∧ memory.lock = 1) ∨
      ((∀ j, (s'.thread j).inside = (s.thread j).inside) ∧ memory.lock = s.shared.lock) := by
  have hself : (s'.thread i).inside = o.inside (s.thread i).inside := by
    rw [hs', State.advance_thread_self]
    exact (Thread.moves_resume hop).inside
  have hother : ∀ j, j ≠ i → (s'.thread j).inside = (s.thread j).inside := fun j hj => by
    rw [hs', State.advance_thread_of_ne _ _ _ hj]
  rcases Op.exec_lock hexec with ⟨rfl, hfree, hlock⟩ | ⟨hunlock, hlock⟩ | ⟨hkeep, hlock⟩
  · have hnone : ∀ j, (s.thread j).inside = false := fun j =>
      Bool.eq_false_iff.mpr fun hj => hfree (h.taken j hj)
    refine .inl ⟨hnone, fun j => ?_, by rw [hlock, h.free hnone]⟩
    by_cases hj : j = i
    · simp [hj, hself, Op.inside]
    · simp [hj, hother j hj, hnone j]
  · have hinside : (s.thread i).inside = true := by
      rcases hunlock with ⟨failed, rfl⟩ | ⟨c, rfl⟩
      · exact Thread.inside_of_unlock hop
      · exact Thread.inside_of_wait hop
    refine .inr (.inl ⟨hinside, fun j => ?_, by rw [hlock, h.taken i hinside]⟩)
    by_cases hj : j = i
    · rw [hj, hself]
      rcases hunlock with ⟨failed, rfl⟩ | ⟨c, rfl⟩ <;> rfl
    · rw [hother j hj]
      exact Bool.eq_false_iff.mpr fun hjin => hj (h.exclusive j i hjin hinside)
  · refine .inr (.inr ⟨fun j => ?_, hlock⟩)
    by_cases hj : j = i
    · rw [hj, hself, hkeep]
    · exact hother j hj

/-- What the acting thread knows, with the lock or when nobody has it. -/
theorem knows_acting (h : Invariant v maxCount s l)
    (hacting : (s.thread i).inside = true ∨ ∀ j, (s.thread j).inside = false) :
    Knows v maxCount s.shared l (s.thread i) := by
  rcases hacting with hinside | hnone
  · exact h.knows i hinside
  · exact (knows_iff_of_not_inside (hnone i)).mpr (h.quiet hnone)

theorem knows_resume (h : Invariant v maxCount s l) (hop : (s.thread i).op C = some o)
    (hexec : o.exec i s.shared = some memory)
    (hacting : (s.thread i).inside = true ∨ ∀ j, (s.thread j).inside = false) :
    Knows v maxCount memory (o.relink l) ((s.thread i).resume v C s.shared) :=
  (h.knows_acting hacting).own h.sound.chain h.sound.maxCount h.sound.length_le hop hexec

/-- Another thread keeps what it knows. -/
theorem knows_other (h : Invariant v maxCount s l) (hop : (s.thread i).op C = some o)
    (hexec : o.exec i s.shared = some memory) (hj : j ≠ i) (hinside : (s.thread j).inside = true) :
    Knows v maxCount memory (o.relink l) (s.thread j) := by
  have houtside : (s.thread i).inside = false :=
    Bool.eq_false_iff.mpr fun hi => hj (h.exclusive j i hinside hi)
  obtain ⟨hqueue, hrelink⟩ := Thread.op_of_not_inside (l := l) hop houtside
  rw [hrelink]
  refine (h.knows j hinside).frame (Op.exec_queue hexec hqueue) fun a ha => ?_
  refine (Op.exec_frame hexec fun htouch => ?_).2.1
  rcases touched (h.knows i) hop hexec htouch with hfree | howned | ⟨hi, -⟩
  · simp [h.sound.live a ha] at hfree
  · exact (h.owns i).apart a howned ha
  · simp [houtside] at hi

/-- The node of the acting thread belongs to no other thread. -/
theorem apart_resume (h : Invariant v maxCount s l) (hop : (s.thread i).op C = some o)
    (hexec : o.exec i s.shared = some memory) {a : Nat}
    (ha : ((s.thread i).resume v C s.shared).owned = some a) (hj : j ≠ i) :
    (s.thread j).owned ≠ some a := by
  intro hother
  rcases (Thread.moves_resume hop).owned a ha with rfl | ⟨val, rfl, htmp⟩ | ⟨howned, -⟩
  · simp [Op.exec, (h.owns j).live a hother] at hexec
  · obtain ⟨b, rest, rfl, hb, -⟩ := unlink_spec (h.knows i) hop
    obtain rfl : a = b := Option.some.inj (htmp.symm.trans hb)
    exact (h.owns j).apart a hother (by simp)
  · exact hj (h.apart j i a hother howned)

theorem events_advance (h : Invariant v maxCount s l) (hop : (s.thread i).op C = some o)
    (hexec : o.exec i s.shared = some memory) :
    memory.events = s.shared.events ++ o.event.toList.map (i, ·) := by
  refine Op.exec_events hexec ?_ ?_
  · rintro a val rfl
    obtain ⟨-, -, -, -, -, front, b, -, hlast⟩ := link_spec (h.knows i) hop
    simp [hlast]
  · rintro val rfl
    obtain ⟨a, rest, rfl, -⟩ := unlink_spec (h.knows i) hop
    simp [h.sound.chain.1]

/-- In the version with condition variables no operation fails. -/
theorem ok_of_event (h : Invariant v maxCount s l) (hop : (s.thread i).op C = some o)
    (hv : v = .conditionalVarible) {e : Event Int} (he : o.event = some e) : e.ok = true := by
  cases o <;> simp only [Op.event, Option.some.injEq, reduceCtorEq] at he
  case unlock failed =>
    subst he
    have hknows := h.knows i (Thread.inside_of_unlock hop)
    unfold Knows at hknows
    rcases Thread.op_unlock hop with ⟨hpc, -⟩ | ⟨hpc, -⟩
    · simp only [hpc] at hknows
      exact absurd hv hknows.2.1
    · simp only [hpc] at hknows
      exact absurd hv hknows.2.1
  all_goals
    subst he
    rfl

/-- Every step keeps the invariant. -/
theorem advance (h : Invariant v maxCount s l) (hop : (s.thread i).op C = some o)
    (hexec : o.exec i s.shared = some memory) :
    Invariant v maxCount (s.advance i memory ((s.thread i).resume v C s.shared)) (o.relink l) := by
  have hinside := h.inside_advance hop hexec rfl
  have hself := State.advance_thread_self s i memory ((s.thread i).resume v C s.shared)
  have hother : ∀ {j}, j ≠ i →
      (s.advance i memory ((s.thread i).resume v C s.shared)).thread j = s.thread j :=
    fun hj => State.advance_thread_of_ne s memory _ hj
  have howns : ∀ j, Owns memory (o.relink l)
      ((s.advance i memory ((s.thread i).resume v C s.shared)).thread j) := by
    intro j
    by_cases hj : j = i
    · rw [hj, hself]
      exact (h.owns i).own h.sound (h.knows i) hop hexec
    · rw [hother hj]
      exact (h.owns j).frame (fun a ha hj' => hj (h.apart j i a hj' ha)) (h.knows i) hop hexec
  have hlogged : ∀ j, operations j memory.events =
      ((s.advance i memory ((s.thread i).resume v C s.shared)).thread j).log ++
        ((s.advance i memory ((s.thread i).resume v C s.shared)).thread j).pending := by
    intro j
    rw [h.events_advance hop hexec, operations_append]
    by_cases hj : j = i
    · subst j
      rw [hself, (Thread.moves_resume hop).log, h.logged i, if_pos rfl]
    · rw [hother hj, if_neg (Ne.symm hj), List.append_nil, h.logged j]
  -- What is left is about the lock, what the threads know, and the nodes they own.
  refine ⟨h.sound.own (h.knows i) (h.owns i) hop hexec, fun hnone => ?_, fun j hj => ?_,
    fun j k hj hk => ?_, fun hnone => ?_, fun j hj => ?_, howns, fun j k a hj hk => ?_,
    hlogged, fun hv e he => ?_⟩
  · rcases hinside with ⟨-, hiff, -⟩ | ⟨-, -, hlock⟩ | ⟨hsame, hlock⟩
    · exact nomatch (hnone i).symm.trans ((hiff i).mpr rfl)
    · exact hlock
    · exact hlock.trans (h.free fun j => (hsame j).symm.trans (hnone j))
  · rcases hinside with ⟨-, -, hlock⟩ | ⟨-, hnone, -⟩ | ⟨hsame, hlock⟩
    · exact hlock
    · exact nomatch (hnone j).symm.trans hj
    · exact hlock.trans (h.taken j ((hsame j).symm.trans hj))
  · rcases hinside with ⟨-, hiff, -⟩ | ⟨-, hnone, -⟩ | ⟨hsame, -⟩
    · exact ((hiff j).mp hj).trans ((hiff k).mp hk).symm
    · exact nomatch (hnone j).symm.trans hj
    · exact h.exclusive j k ((hsame j).symm.trans hj) ((hsame k).symm.trans hk)
  -- Nobody is inside, so the thread has just left, or nobody was inside before.
  · have hbalanced := fun hacting =>
      (knows_iff_of_not_inside (hself ▸ hnone i)).mp (h.knows_resume hop hexec hacting)
    rcases hinside with ⟨-, hiff, -⟩ | ⟨hi, -, -⟩ | ⟨hsame, -⟩
    · exact nomatch (hnone i).symm.trans ((hiff i).mpr rfl)
    · exact hbalanced (.inl hi)
    · exact hbalanced (.inr fun j => (hsame j).symm.trans (hnone j))
  · by_cases hji : j = i
    · subst j
      rw [hself]
      refine h.knows_resume hop hexec ?_
      rcases hinside with ⟨hnone, -, -⟩ | ⟨-, hnone, -⟩ | ⟨hsame, -⟩
      · exact .inr hnone
      · exact nomatch (hnone i).symm.trans hj
      · exact .inl ((hsame i).symm.trans hj)
    · rw [hother hji] at hj ⊢
      exact h.knows_other hop hexec hji hj
  · by_cases hji : j = i
    · by_cases hki : k = i
      · rw [hji, hki]
      · rw [hji, hself] at hj
        rw [hother hki] at hk
        exact absurd hk (h.apart_resume hop hexec hj hki)
    · rw [hother hji] at hj
      by_cases hki : k = i
      · rw [hki, hself] at hk
        exact absurd hj (h.apart_resume hop hexec hk hji)
      · rw [hother hki] at hk
        exact h.apart j k a hj hk
  · rw [State.advance_shared, h.events_advance hop hexec] at he
    rcases List.mem_append.mp he with he | he
    · exact h.blocking hv e he
    -- An event of this step.
    · obtain ⟨e', he', rfl⟩ := List.mem_map.mp he
      exact h.ok_of_event hop hv (Option.mem_toList.mp he')

/-- Nothing has been called yet. -/
theorem start (hs : Starts maxCount s) : Invariant v maxCount s [] := by
  obtain ⟨hshared, hthread⟩ := hs
  have houtside : ∀ i, (s.thread i).inside = false := fun i => by
    obtain ⟨client, addresses, hi⟩ := hthread i
    rw [hi]
    rfl
  have howned : ∀ i, (s.thread i).owned = none := fun i => by
    obtain ⟨client, addresses, hi⟩ := hthread i
    rw [hi]
    rfl
  have hcarries : ∀ i, (s.thread i).pc.carriesNew = false := fun i => by
    obtain ⟨client, addresses, hi⟩ := hthread i
    rw [hi]
    rfl
  refine ⟨?_, fun _ => by rw [hshared]; rfl, fun i hi => ?_, fun i j hi => ?_, fun _ => ?_,
    fun i hi => ?_, fun i => ?_, fun i j a hi => ?_, fun i => ?_, fun _ e he => ?_⟩
  · rw [hshared]
    exact ⟨rfl, nofun, rfl, rfl, rfl⟩
  · simp [houtside i] at hi
  · simp [houtside i] at hi
  · rw [hshared]
    exact ⟨fun hne => absurd rfl hne, rfl, rfl⟩
  · simp [houtside i] at hi
  · exact ⟨fun a ha => by simp [howned i] at ha, fun a ha => by simp [howned i] at ha,
      fun hc => by simp [hcarries i] at hc, fun hc => by simp [hcarries i] at hc⟩
  · simp [howned i] at hi
  · obtain ⟨client, addresses, hi⟩ := hthread i
    rw [hi, hshared]
    rfl
  · rw [hshared] at he
    cases he

/-- Every reachable state of the queue. -/
theorem of_reachable {init : State ι (Memory ι) (Thread κ) → Prop}
    (hinit : ∀ s, init s → Starts maxCount s) (hs : (threads v C ι).Reachable init s) :
    ∃ l, Invariant v maxCount s l := by
  refine hs.induction (I := fun s => ∃ l, Invariant v maxCount s l) ?_ ?_
  · exact fun s h => ⟨[], start (hinit s h)⟩
  · rintro s i o memory - ⟨l, h⟩ - hop hexec
    exact ⟨_, h.advance hop hexec⟩

end Invariant

/-- The queue behaves like an atomic queue that is bounded by `maxCount`: its operations
answer like `Fifo.run`, in the order of `events`, and every thread has the answers of its own
operations.  While the lock is free, the fields tell what the atomic queue contains. -/
structure Correct (v : Version) (maxCount : Nat) (s : State ι (Memory ι) (Thread κ)) : Prop where
  fields : 0 < s.shared.lock → ∃ l, Chain s.shared.next s.shared.queue.first l ∧
    Fifo.run maxCount (s.shared.events.map Prod.snd) = some (l.map s.shared.val) ∧
    s.shared.queue.count = l.length ∧
    0 ≤ s.shared.queue.count ∧ s.shared.queue.count ≤ maxCount ∧
    s.shared.queue.addCount - s.shared.queue.getCount = s.shared.queue.count
  refines : ∃ contents, Fifo.run maxCount (s.shared.events.map Prod.snd) = some contents
  answers : ∀ i, (s.thread i).log <+: operations i s.shared.events ∧
    (operations i s.shared.events).length ≤ (s.thread i).log.length + 1 ∧
    ((s.thread i).pc = .call → (s.thread i).log = operations i s.shared.events)
  inOrder : s.shared.events.filterMap (fun e => e.2.got) <+:
    s.shared.events.filterMap (fun e => e.2.added)
  blocking : v = .conditionalVarible → ∀ e ∈ s.shared.events, e.2.ok = true
  asserts : ∀ i, (s.thread i).pc ≠ .aborted
  memory : s.shared.fault = false

theorem Invariant.correct {s : State ι (Memory ι) (Thread κ)} {l : List Nat}
    (h : Invariant v maxCount s l) : Correct v maxCount s := by
  have horder := Fifo.got_prefix h.sound.run
  rw [List.filterMap_map, List.filterMap_map] at horder
  refine ⟨fun hfree => ?_, ⟨_, h.sound.run⟩, fun i => ?_, horder, h.blocking, fun i hpc => ?_,
    h.sound.fault⟩
  · have hnone : ∀ i, (s.thread i).inside = false := fun i =>
      Bool.eq_false_iff.mpr fun hi => by simp [h.taken i hi] at hfree
    obtain ⟨-, hcount, htotal⟩ := h.quiet hnone
    have hlength := h.sound.length_le
    refine ⟨l, h.sound.chain, h.sound.run, hcount, ?_, ?_, htotal.trans hcount.symm⟩ <;>
      rw [hcount] <;> omega
  · rw [h.logged i]
    have hpending : (s.thread i).pending.length ≤ 1 := by
      unfold Thread.pending
      split <;> simp
    refine ⟨⟨_, rfl⟩, ?_, fun hpc => ?_⟩
    · rw [List.length_append]
      omega
    · simp [Thread.pending, hpc]
  · have hknows := h.knows i (by simp [Thread.inside, hpc])
    simp [Knows, hpc] at hknows

end Invariant
end BoundedQueue
end OperatingSystems
