import OperatingSystems.BoundedQueue.Content

/-!
# The nodes of the bounded queue

* `Sound` — the nodes are linked from `first`, and replaying `events` gives their values;
  `Sound.own` — every access keeps this.
* `Owns` — the node of a thread is allocated and no part of the queue; `Owns.own`,
  `Owns.frame` — along the steps of this thread and of the others.
* `Op.exec_lock`, `Op.exec_events` — what an access does to the lock and to the history.
-/

namespace OperatingSystems
namespace BoundedQueue

open Threads Fifo

namespace Thread

variable {κ : Type*} {C : Client κ} {t : Thread κ} {a : Nat} {p : Option Nat} {val : Int}

theorem op_init (hop : t.op C = some (.init a val)) :
    t.pc = .addInit ∧ a = t.new ∧ val = t.val := by
  unfold op at hop
  split at hop <;> simp_all

theorem op_free (hop : t.op C = some (.free p)) : p = t.owned := by
  unfold op at hop
  split at hop <;> simp_all [owned, Pc.carriesNew, Pc.carriesTmp]

theorem op_setFirst (hop : t.op C = some (.setFirst a val)) :
    t.pc = .addSetFirst ∧ a = t.new ∧ val = t.val := by
  unfold op at hop
  split at hop <;> simp_all

theorem op_link (hop : t.op C = some (.link a val)) :
    t.pc = .addLink ∧ a = t.new ∧ val = t.val := by
  unfold op at hop
  split at hop <;> simp_all

theorem op_moveLast (hop : t.op C = some .moveLast) : t.pc = .addMoveLast := by
  unfold op at hop
  split at hop <;> simp_all

theorem op_read (hop : t.op C = some (.read p)) : t.pc = .getVal ∧ p = t.tmp := by
  unfold op at hop
  split at hop <;> simp_all

theorem op_unlink (hop : t.op C = some (.unlink val)) : t.pc = .getNext ∧ val = t.val := by
  unfold op at hop
  split at hop <;> simp_all

theorem op_unlock {e : Event Int} (hop : t.op C = some (.unlock (some e))) :
    (t.pc = .addUnlockFull ∧ e = .add t.val false) ∨ (t.pc = .getUnlockEmpty ∧ e = .get none) := by
  unfold op at hop
  split at hop <;> simp_all

end Thread

/-- `l` are the nodes of the queue, and they hold what the operations have left there. -/
structure Sound {ι : Type*} (maxCount : Nat) (memory : Memory ι) (l : List Nat) : Prop where
  chain : Chain memory.next memory.queue.first l
  live : ∀ a ∈ l, memory.live a = true
  run : Fifo.run maxCount (memory.events.map Prod.snd) = some (l.map memory.val)
  maxCount : memory.queue.maxCount = maxCount
  fault : memory.fault = false

section Sound

variable {ι κ : Type*} {v : Version} {C : Client κ} {maxCount : Nat} {memory memory' : Memory ι}
  {l : List Nat} {t : Thread κ} {o : Op}

theorem owned_of_carriesNew (h : t.pc.carriesNew = true) : t.owned = some t.new := by
  simp [Thread.owned, h]

/-- What the thread knows when it appends its node. -/
theorem link_spec {a : Nat} {val : Int} (hknows : t.inside = true → Knows v maxCount memory l t)
    (hop : t.op C = some (.link a val)) : a = t.new ∧ val = t.val ∧ t.pc.carriesNew = true ∧
      t.inside = true ∧ l.length < maxCount ∧
        ∃ front b, l = front ++ [b] ∧ memory.queue.last = some b := by
  obtain ⟨hpc, rfl, rfl⟩ := Thread.op_link hop
  have hinside : t.inside = true := by simp [Thread.inside, hpc]
  replace hknows := hknows hinside
  simp only [Knows, hpc] at hknows
  obtain ⟨hbalanced, hne, hlength⟩ := hknows
  have hlast := hbalanced.last hne
  refine ⟨rfl, rfl, by simp [hpc, Pc.carriesNew], hinside, hlength, l.dropLast, l.getLast hne,
    (List.dropLast_append_getLast hne).symm, ?_⟩
  rw [hlast, List.getLast?_eq_getLast_of_ne_nil hne]

/-- What the thread knows when it takes out the first node. -/
theorem unlink_spec {val : Int} (hknows : t.inside = true → Knows v maxCount memory l t)
    (hop : t.op C = some (.unlink val)) :
    ∃ a rest, l = a :: rest ∧ t.tmp = some a ∧ val = memory.val a := by
  obtain ⟨hpc, rfl⟩ := Thread.op_unlink hop
  replace hknows := hknows (by simp [Thread.inside, hpc])
  simp only [Knows, hpc] at hknows
  exact hknows.2

theorem Sound.length_le (h : Sound maxCount memory l) : l.length ≤ maxCount := by
  simpa using Fifo.length_le h.run

/-- The node of a thread is allocated and no part of the queue. -/
structure Owns (memory : Memory ι) (l : List Nat) (t : Thread κ) : Prop where
  live : ∀ a, t.owned = some a → memory.live a = true
  apart : ∀ a, t.owned = some a → a ∉ l
  val : t.pc.carriesNew = true → memory.val t.new = t.val
  next : t.pc.carriesNew = true → memory.next t.new = none

theorem Memory.fault_access {p : Option Nat} (h : memory.fault = false)
    (hlive : p.any memory.live = true) : (memory.access p).fault = false := by
  simp [access, h, hlive]

/-- The history after one more event. -/
theorem Sound.run_concat (h : Sound maxCount memory l) (i : ι) (e : Event Int) :
    Fifo.run maxCount ((memory.events ++ [(i, e)]).map Prod.snd) =
      Fifo.step maxCount (l.map memory.val) e := by
  rw [List.map_append]
  exact Fifo.run_concat h.run

/-! ### What each access does to the nodes -/

namespace Sound

variable [DecidableEq ι] {i : ι} {a b : Nat} {val : Int}

theorem malloc {p : Option Nat} (h : Sound maxCount memory l)
    (hexec : (Op.malloc p).exec i memory = some memory') : Sound maxCount memory' l := by
  cases p with
  | none =>
      obtain rfl := Option.some.inj hexec
      exact h
  | some a =>
      obtain ⟨hfree, hexec⟩ := Option.ite_none_left_eq_some.mp hexec
      obtain rfl := Option.some.inj hexec
      refine ⟨h.chain, fun b (hb : b ∈ l) => ?_, h.run, h.maxCount, h.fault⟩
      have hba : b ≠ a := fun hba => hfree (hba ▸ h.live b hb)
      exact (Function.update_of_ne hba _ _).trans (h.live b hb)

/-- A node that is no part of the queue is filled in. -/
theorem init (h : Sound maxCount memory l) (hlive : memory.live a = true) (hnew : a ∉ l)
    (hexec : (Op.init a val).exec i memory = some memory') : Sound maxCount memory' l := by
  obtain rfl := Option.some.inj hexec
  have hval : l.map (Function.update memory.val a val) = l.map memory.val :=
    List.map_congr_left fun b hb =>
      Function.update_of_ne (fun hb' : b = a => hnew (hb' ▸ hb)) _ _
  exact ⟨h.chain.update_of_notMem hnew, h.live, h.run.trans (congrArg some hval.symm), h.maxCount,
    Memory.fault_access h.fault (by simpa using hlive)⟩

/-- A node that is no part of the queue is freed. -/
theorem free {p : Option Nat} (h : Sound maxCount memory l)
    (hp : ∀ a, p = some a → memory.live a = true ∧ a ∉ l)
    (hexec : (Op.free p).exec i memory = some memory') : Sound maxCount memory' l := by
  cases p with
  | none =>
      obtain rfl := Option.some.inj hexec
      exact h
  | some a =>
      obtain rfl := Option.some.inj hexec
      obtain ⟨hlive, hnew⟩ := hp a rfl
      refine ⟨h.chain, fun b (hb : b ∈ l) => ?_, h.run, h.maxCount,
        Memory.fault_access h.fault (by simpa using hlive)⟩
      have hba : b ≠ a := fun hba => hnew (hba ▸ hb)
      exact (Function.update_of_ne hba _ _).trans (h.live b hb)

theorem store {u : Update} {value : Int} (h : Sound maxCount memory l)
    (hexec : (Op.store u value).exec i memory = some memory') : Sound maxCount memory' l := by
  obtain rfl := Option.some.inj hexec
  cases u <;> exact ⟨h.chain, h.live, h.run, h.maxCount, h.fault⟩

theorem setLast (h : Sound maxCount memory l)
    (hexec : (Op.setLast a).exec i memory = some memory') : Sound maxCount memory' l := by
  obtain rfl := Option.some.inj hexec
  exact ⟨h.chain, h.live, h.run, h.maxCount, h.fault⟩

/-- The first node of an empty queue. -/
theorem setFirst (h : Sound maxCount memory []) (hlive : memory.live a = true)
    (hnext : memory.next a = none) (hval : memory.val a = val) (hpos : 0 < maxCount)
    (hexec : (Op.setFirst a val).exec i memory = some memory') : Sound maxCount memory' [a] := by
  obtain rfl := Option.some.inj hexec
  refine ⟨⟨rfl, hnext⟩, fun b hb => ?_, (h.run_concat i _).trans ?_, h.maxCount, h.fault⟩
  · rw [List.mem_singleton.mp hb]
    exact hlive
  · rw [step_add (by simpa using hpos), ← hval]
    rfl

/-- A node behind the last one. -/
theorem link {front : List Nat} (h : Sound maxCount memory (front ++ [b]))
    (hlast : memory.queue.last = some b) (hlive : memory.live a = true)
    (hnew : a ∉ front ++ [b]) (hnext : memory.next a = none) (hval : memory.val a = val)
    (hlength : (front ++ [b]).length < maxCount)
    (hexec : (Op.link a val).exec i memory = some memory') :
    Sound maxCount memory' (front ++ [b] ++ [a]) := by
  simp only [Op.exec, hlast] at hexec
  obtain rfl := Option.some.inj hexec
  refine ⟨h.chain.concat hnew hnext, fun c hc => ?_, (h.run_concat i _).trans ?_, h.maxCount,
    Memory.fault_access h.fault (by simpa using h.live b (by simp))⟩
  · rcases List.mem_append.mp hc with hc | hc
    · exact h.live c hc
    · rw [List.mem_singleton.mp hc]
      exact hlive
  · have hmap : (front ++ [b] ++ [a]).map memory.val =
        (front ++ [b]).map memory.val ++ [memory.val a] := List.map_append
    rw [step_add (by simpa using hlength), ← hval]
    exact congrArg some hmap.symm

theorem moveLast (h : Sound maxCount memory l) (hlast : memory.queue.last = some b) (hb : b ∈ l)
    (hexec : Op.moveLast.exec i memory = some memory') : Sound maxCount memory' l := by
  simp only [Op.exec, hlast] at hexec
  obtain rfl := Option.some.inj hexec
  exact ⟨h.chain, h.live, h.run, h.maxCount,
    Memory.fault_access h.fault (by simpa using h.live b hb)⟩

theorem read (h : Sound maxCount memory l) (ha : a ∈ l)
    (hexec : (Op.read (some a)).exec i memory = some memory') : Sound maxCount memory' l := by
  obtain rfl := Option.some.inj hexec
  exact ⟨h.chain, h.live, h.run, h.maxCount,
    Memory.fault_access h.fault (by simpa using h.live a ha)⟩

/-- The first node leaves the queue, and its value is taken out. -/
theorem unlink {rest : List Nat} (h : Sound maxCount memory (a :: rest))
    (hexec : (Op.unlink (memory.val a)).exec i memory = some memory') :
    Sound maxCount memory' rest := by
  simp only [Op.exec, h.chain.1] at hexec
  obtain rfl := Option.some.inj hexec
  refine ⟨h.chain.drop_head, fun b hb => h.live b (List.mem_cons_of_mem a hb),
    (h.run_concat i _).trans ?_, h.maxCount,
    Memory.fault_access h.fault (by simpa using h.live a (by simp))⟩
  exact step_get

end Sound

/-- The accesses of a thread keep the queue sound. -/
theorem Sound.own [DecidableEq ι] {i : ι} (h : Sound maxCount memory l)
    (hknows : t.inside = true → Knows v maxCount memory l t) (howns : Owns memory l t)
    (hop : t.op C = some o) (hexec : o.exec i memory = some memory') :
    Sound maxCount memory' (o.relink l) := by
  cases o with
  -- Inside a section the thread knows the queue; a node of its own it knows everywhere.
  | load =>
      obtain rfl := Option.some.inj hexec
      exact h
  | malloc address => exact h.malloc hexec
  | init a val =>
      obtain ⟨hpc, rfl, rfl⟩ := Thread.op_init hop
      have howned : t.owned = some t.new := by simp [Thread.owned, hpc]
      exact h.init (howns.live _ howned) (howns.apart _ howned) hexec
  | free p =>
      refine h.free (fun a ha => ?_) hexec
      have howned : t.owned = some a := (Thread.op_free hop).symm.trans ha
      exact ⟨howns.live a howned, howns.apart a howned⟩
  | lock =>
      obtain ⟨-, hexec⟩ := Option.ite_none_left_eq_some.mp hexec
      obtain rfl := Option.some.inj hexec
      exact ⟨h.chain, h.live, h.run, h.maxCount, h.fault⟩
  | unlock failed =>
      replace hknows := hknows (Thread.inside_of_unlock hop)
      unfold Knows at hknows
      cases failed with
      | none =>
          obtain rfl := Option.some.inj hexec
          exact ⟨h.chain, h.live, h.run, h.maxCount, h.fault⟩
      | some e =>
          -- A failed call is an event of its own: the queue is full, or it is empty.
          obtain rfl := Option.some.inj hexec
          refine ⟨h.chain, h.live, (h.run_concat i e).trans ?_, h.maxCount, h.fault⟩
          obtain ⟨hpc, rfl⟩ | ⟨hpc, rfl⟩ := Thread.op_unlock hop
          · simp only [hpc] at hknows
            exact step_full (by simpa using hknows.2.2)
          · simp only [hpc] at hknows
            obtain ⟨-, -, rfl⟩ := hknows
            exact step_empty
  | wait c =>
      obtain rfl := Option.some.inj hexec
      exact ⟨h.chain, h.live, h.run, h.maxCount, h.fault⟩
  | wake c =>
      obtain rfl := Option.some.inj hexec
      exact ⟨h.chain, h.live, h.run, h.maxCount, h.fault⟩
  | broadcast c =>
      obtain rfl := Option.some.inj hexec
      exact ⟨h.chain, h.live, h.run, h.maxCount, h.fault⟩
  | store u value => exact h.store hexec
  | setLast a => exact h.setLast hexec
  | setFirst a val =>
      obtain ⟨hpc, rfl, rfl⟩ := Thread.op_setFirst hop
      have hcarries : t.pc.carriesNew = true := by simp [hpc, Pc.carriesNew]
      have howned := owned_of_carriesNew hcarries
      replace hknows := hknows (by simp [Thread.inside, hpc])
      simp only [Knows, hpc] at hknows
      obtain ⟨-, rfl, hpos, -⟩ := hknows
      exact h.setFirst (howns.live _ howned) (howns.next hcarries) (howns.val hcarries) hpos hexec
  | link a val =>
      obtain ⟨rfl, rfl, hcarries, -, hlength, front, b, rfl, hlast⟩ := link_spec hknows hop
      have howned := owned_of_carriesNew hcarries
      exact h.link hlast (howns.live _ howned) (howns.apart _ howned) (howns.next hcarries)
        (howns.val hcarries) hlength hexec
  | moveLast =>
      have hpc := Thread.op_moveLast hop
      replace hknows := hknows (by simp [Thread.inside, hpc])
      simp only [Knows, hpc] at hknows
      obtain ⟨-, -, front, b, rfl, hlast⟩ := hknows
      exact h.moveLast hlast (by simp) hexec
  | read p =>
      obtain ⟨hpc, rfl⟩ := Thread.op_read hop
      replace hknows := hknows (by simp [Thread.inside, hpc])
      simp only [Knows, hpc] at hknows
      obtain ⟨-, a, rest, rfl, htmp⟩ := hknows
      rw [htmp] at hexec
      exact h.read List.mem_cons_self hexec
  | unlink val =>
      obtain ⟨a, rest, rfl, -, rfl⟩ := unlink_spec hknows hop
      exact h.unlink hexec

/-- A node that an access touches is new, or of the thread, or the last of the queue. -/
theorem touched [DecidableEq ι] {i : ι} {b : Nat}
    (hknows : t.inside = true → Knows v maxCount memory l t) (hop : t.op C = some o)
    (hexec : o.exec i memory = some memory') (hb : o.touches memory.queue.last = some b) :
    memory.live b = false ∨ t.owned = some b ∨ (t.inside = true ∧ b ∈ l) := by
  cases o <;> simp only [Op.touches, Option.some.injEq, reduceCtorEq] at hb
  case malloc =>
    subst hb
    exact .inl (by simpa using (Option.ite_none_left_eq_some.mp hexec).1)
  case init =>
    obtain ⟨hpc, rfl, -⟩ := Thread.op_init hop
    exact .inr (.inl (by simp [Thread.owned, hpc, hb]))
  case free => exact .inr (.inl ((Thread.op_free hop).symm.trans hb))
  case link =>
    obtain ⟨-, -, -, hinside, -, front, c, rfl, hlast⟩ := link_spec hknows hop
    obtain rfl : c = b := Option.some.inj (hlast.symm.trans hb)
    exact .inr (.inr ⟨hinside, by simp⟩)

/-- Only the node of the acting thread comes into the queue. -/
theorem mem_relink {b : Nat} (hop : t.op C = some o) (hb : b ∈ o.relink l) :
    b ∈ l ∨ t.owned = some b := by
  cases o <;> simp only [Op.relink] at hb
  case setFirst =>
    obtain ⟨hpc, rfl, -⟩ := Thread.op_setFirst hop
    simpa [Thread.owned, hpc, Pc.carriesNew, eq_comm] using hb
  case link =>
    obtain ⟨hpc, rfl, -⟩ := Thread.op_link hop
    simpa [Thread.owned, hpc, Pc.carriesNew, eq_comm] using hb
  case unlink => exact .inl (List.mem_of_mem_tail hb)
  all_goals exact .inl hb

/-- The node of another thread is not touched. -/
theorem Owns.frame [DecidableEq ι] {i : ι} {u : Thread κ} (h : Owns memory l u)
    (hapart : ∀ b, t.owned = some b → u.owned ≠ some b)
    (hknows : t.inside = true → Knows v maxCount memory l t)
    (hop : t.op C = some o) (hexec : o.exec i memory = some memory') :
    Owns memory' (o.relink l) u := by
  have hframe : ∀ b, u.owned = some b → memory'.live b = memory.live b ∧
      memory'.val b = memory.val b ∧ memory'.next b = memory.next b := by
    refine fun b hb => Op.exec_frame hexec fun htouch => ?_
    rcases touched hknows hop hexec htouch with hfree | howned | ⟨-, hmem⟩
    · simp [h.live b hb] at hfree
    · exact hapart b howned hb
    · exact h.apart b hb hmem
  refine ⟨fun b hb => (hframe b hb).1.trans (h.live b hb), fun b hb hmem => ?_,
    fun hc => (hframe _ (owned_of_carriesNew hc)).2.1.trans (h.val hc),
    fun hc => (hframe _ (owned_of_carriesNew hc)).2.2.trans (h.next hc)⟩
  rcases mem_relink hop hmem with hmem | howned
  · exact h.apart b hb hmem
  · exact hapart b howned hb

/-- A node that is not given away stays as it is. -/
theorem Op.kept_of_gives [DecidableEq ι] {i : ι} {b : Nat} (hexec : o.exec i memory = some memory')
    (ho : o.gives = false) (hlive : memory.live b = true) (hb : b ∉ l) :
    memory'.live b = true ∧ b ∉ o.relink l := by
  by_cases htouch : o.touches memory.queue.last = some b
  · cases o <;> simp only [touches, gives, Option.some.injEq, reduceCtorEq] at htouch ho
    case malloc =>
      subst htouch
      simp [exec, hlive] at hexec
    case init =>
      obtain rfl := Option.some.inj hexec
      exact ⟨hlive, hb⟩
  · refine ⟨(exec_frame hexec htouch).1.trans hlive, ?_⟩
    cases o <;> simp only [gives, reduceCtorEq] at ho
    case unlink => exact fun hmem => hb (List.mem_of_mem_tail hmem)
    all_goals exact hb

/-- The acting thread keeps its node apart, gives it away or gets one. -/
theorem Owns.own [DecidableEq ι] {i : ι} (h : Owns memory l t) (hsound : Sound maxCount memory l)
    (hknows : t.inside = true → Knows v maxCount memory l t)
    (hop : t.op C = some o) (hexec : o.exec i memory = some memory') :
    Owns memory' (o.relink l) (t.resume v C memory) := by
  have hmoves : Thread.Moves o t (t.resume v C memory) := Thread.moves_resume hop
  have howned : ∀ a, (t.resume v C memory).owned = some a →
      memory'.live a = true ∧ a ∉ o.relink l := by
    intro a ha
    rcases hmoves.owned a ha with rfl | ⟨val, rfl, htmp⟩ | ⟨ht, hgives⟩
    · obtain ⟨hfree, hexec⟩ := Option.ite_none_left_eq_some.mp hexec
      obtain rfl := Option.some.inj hexec
      exact ⟨Function.update_self .., fun hmem => hfree (hsound.live a hmem)⟩
    · obtain ⟨b, rest, rfl, hb, -⟩ := unlink_spec hknows hop
      obtain rfl : a = b := Option.some.inj (htmp.symm.trans hb)
      have hframe := (Op.exec_frame (b := a) hexec (by simp [Op.touches])).1
      exact ⟨hframe.trans (hsound.live a (by simp)), (List.nodup_cons.mp hsound.chain.nodup).1⟩
    · exact Op.kept_of_gives hexec hgives (h.live a ht) (h.apart a ht)
  have hfilled : (t.resume v C memory).pc.carriesNew = true →
      memory'.val t.new = t.val ∧ memory'.next t.new = none := by
    intro hc
    rcases (hmoves.carries hc).2.2 with ⟨hcarries, htouch⟩ | rfl
    · have hframe := (Op.exec_frame (b := t.new) hexec (by simp [htouch])).2
      exact ⟨hframe.1.trans (h.val hcarries), hframe.2.trans (h.next hcarries)⟩
    · obtain rfl := Option.some.inj hexec
      exact ⟨Function.update_self .., Function.update_self ..⟩
  refine ⟨fun a ha => (howned a ha).1, fun a ha => (howned a ha).2, fun hc => ?_, fun hc => ?_⟩
  · rw [(hmoves.carries hc).1, (hmoves.carries hc).2.1]
    exact (hfilled hc).1
  · rw [(hmoves.carries hc).1]
    exact (hfilled hc).2

/-- What an access does to the lock. -/
theorem Op.exec_lock [DecidableEq ι] {i : ι} (hexec : o.exec i memory = some memory') :
    (o = .lock ∧ memory.lock ≠ 0 ∧ memory'.lock = memory.lock - 1) ∨
      (((∃ failed, o = .unlock failed) ∨ ∃ c, o = .wait c) ∧ memory'.lock = memory.lock + 1) ∨
      ((∀ before, o.inside before = before) ∧ memory'.lock = memory.lock) := by
  cases o
  case malloc address =>
    cases address with
    | none => exact Option.some.inj hexec ▸ .inr (.inr ⟨fun _ => rfl, rfl⟩)
    | some a =>
        have h := (Option.ite_none_left_eq_some.mp hexec).2
        exact Option.some.inj h ▸ .inr (.inr ⟨fun _ => rfl, rfl⟩)
  case free p => cases p <;> exact Option.some.inj hexec ▸ .inr (.inr ⟨fun _ => rfl, rfl⟩)
  case lock =>
    obtain ⟨hne, h⟩ := Option.ite_none_left_eq_some.mp hexec
    exact Option.some.inj h ▸ .inl ⟨rfl, hne, rfl⟩
  case unlock failed =>
    cases failed <;> exact Option.some.inj hexec ▸ .inr (.inl ⟨.inl ⟨_, rfl⟩, rfl⟩)
  case wait c => exact Option.some.inj hexec ▸ .inr (.inl ⟨.inr ⟨_, rfl⟩, rfl⟩)
  case link a val =>
    simp only [exec] at hexec
    split at hexec <;> exact Option.some.inj hexec ▸ .inr (.inr ⟨fun _ => rfl, rfl⟩)
  case moveLast =>
    simp only [exec] at hexec
    split at hexec <;> exact Option.some.inj hexec ▸ .inr (.inr ⟨fun _ => rfl, rfl⟩)
  case unlink val =>
    simp only [exec] at hexec
    split at hexec <;> exact Option.some.inj hexec ▸ .inr (.inr ⟨fun _ => rfl, rfl⟩)
  all_goals exact Option.some.inj hexec ▸ .inr (.inr ⟨fun _ => rfl, rfl⟩)

/-- What an access adds to the history: its event, which a step through a null pointer does not
come to. -/
theorem Op.exec_events_or [DecidableEq ι] {i : ι} (hexec : o.exec i memory = some memory') :
    memory'.events = memory.events ++ o.event.toList.map (i, ·) ∨
      (memory'.events = memory.events ∧
        ((∃ a val, o = .link a val ∧ memory.queue.last = none) ∨
          ∃ val, o = .unlink val ∧ memory.queue.first = none)) := by
  cases o
  case malloc address =>
    cases address with
    | none => exact Option.some.inj hexec ▸ .inl (List.append_nil _).symm
    | some a =>
        have h := (Option.ite_none_left_eq_some.mp hexec).2
        exact Option.some.inj h ▸ .inl (List.append_nil _).symm
  case free p => cases p <;> exact Option.some.inj hexec ▸ .inl (List.append_nil _).symm
  case lock =>
    have h := (Option.ite_none_left_eq_some.mp hexec).2
    exact Option.some.inj h ▸ .inl (List.append_nil _).symm
  case unlock failed =>
    cases failed with
    | none => exact Option.some.inj hexec ▸ .inl (List.append_nil _).symm
    | some e => exact Option.some.inj hexec ▸ .inl rfl
  case setFirst a val => exact Option.some.inj hexec ▸ .inl rfl
  case link a val =>
    simp only [exec] at hexec
    split at hexec
    · next hnone => exact Option.some.inj hexec ▸ .inr ⟨rfl, .inl ⟨a, val, rfl, hnone⟩⟩
    · exact Option.some.inj hexec ▸ .inl rfl
  case moveLast =>
    simp only [exec] at hexec
    split at hexec <;> exact Option.some.inj hexec ▸ .inl (List.append_nil _).symm
  case unlink val =>
    simp only [exec] at hexec
    split at hexec
    · next hnone => exact Option.some.inj hexec ▸ .inr ⟨rfl, .inr ⟨val, rfl, hnone⟩⟩
    · exact Option.some.inj hexec ▸ .inl rfl
  all_goals exact Option.some.inj hexec ▸ .inl (List.append_nil _).symm

theorem Op.exec_events [DecidableEq ι] {i : ι} (hexec : o.exec i memory = some memory')
    (hlast : ∀ a val, o = .link a val → memory.queue.last ≠ none)
    (hfirst : ∀ val, o = .unlink val → memory.queue.first ≠ none) :
    memory'.events = memory.events ++ o.event.toList.map (i, ·) := by
  rcases exec_events_or hexec with hevents | ⟨-, ⟨a, val, ho, hnone⟩ | ⟨val, ho, hnone⟩⟩
  · exact hevents
  · exact absurd hnone (hlast a val ho)
  · exact absurd hnone (hfirst val ho)

/-- An event is recorded by the access that causes it. -/
theorem Op.event_of_exec [DecidableEq ι] {i : ι} {e : ι × Event Int}
    (hexec : o.exec i memory = some memory') (he : e ∈ memory'.events) :
    e ∈ memory.events ∨ o.event = some e.2 := by
  rcases exec_events_or hexec with hevents | ⟨hsame, -⟩
  · rw [hevents, List.mem_append] at he
    rcases he with hold | hnew
    · exact .inl hold
    · obtain ⟨event, hevent, rfl⟩ := List.mem_map.mp hnew
      exact .inr (Option.mem_toList.mp hevent)
  · exact .inl (hsame ▸ he)

end Sound
end BoundedQueue
end OperatingSystems
