import OperatingSystems.Library.Quiescence
import OperatingSystems.Proxy.NoStuck

/-!
# The proxy never hangs

The handlers that have been started cannot all be waiting: as long as `recv`, `send` and
`connect` return, one of them can go on, without a spurious wake-up, until all have returned.

* `returned_of_waiting` — handlers that wait for locks have returned, when the others are
  asleep on a condition or have not begun.
* `neverHangs` — none is asleep then, every lock is free, and every response is complete.
-/

namespace OperatingSystems
namespace Proxy

open Threads

/-- Only a lock makes a handler wait. -/
theorem Op.exec_eq_none {i : Nat} {o : Op} {memory : Memory} (h : o.exec i memory = none) :
    ∃ l m, o.effect = .acquire l m ∧ (memory.locks l).acquire i m = none := by
  cases o with
  | acquire l m => exact ⟨l, m, rfl, Option.map_eq_none_iff.mp h⟩
  | _ => simp [Op.exec] at h

/-- A handler without a next statement has returned. -/
theorem Handler.returned_of_op {t : Handler} (h : t.op = none) : t.pc = .returned := by
  cases hpc : t.pc <;> simp [Handler.op, hpc] at h ⊢

theorem Handler.held_of_returned {t : Handler} (h : t.op = none) : t.held = [] := by
  rw [Handler.held, Handler.returned_of_op h]

section Progress

variable {s : State Nat Memory Handler} {T : Set Nat}

/-- Handlers that cannot go on have returned, when the others hold no lock. -/
theorem returned_of_waiting (hs : server.Reachable Starts s)
    (hrest : ∀ i, i ∉ T → (s.thread i).held = []) (hstuck : ∀ i ∈ T, server.step s i = none)
    {i : Nat} (hi : i ∈ T) : (s.thread i).pc = .returned := by
  refine Handler.returned_of_op (discipline.returned_of_stuck (agrees hs)
    (fun _ _ _ => Op.exec_eq_none) (fun _ => Handler.held_of_returned) hrest (fun S => ?_)
    hstuck hi)
  exact discipline.not_deadlocked (agrees hs) s.shared.rank 3 s.shared.rank_le
    (fun i l m l' m' => rank_lt hs) S

/-- When none of the handlers that have been started can go on otherwise than by a spurious
wake-up, all of them have returned, every lock is free, and every response is complete. -/
theorem neverHangs (hs : server.Reachable Starts s)
    (hrest : ∀ i, i ∉ T → (s.thread i).pc = .lockMap)
    (hstuck : ∀ i ∈ T, server.step s i = none ∨ Parked s i) :
    (∀ i ∈ T, (s.thread i).pc = .returned) ∧ (∀ l, s.shared.locks l = .unlocked) ∧
      ∀ e < s.shared.fresh, (s.shared.cache e).complete = true := by
  -- The handlers that are not asleep have returned.
  have hawake {i : Nat} (hi : i ∈ T) (hparked : ¬Parked s i) : (s.thread i).pc = .returned := by
    refine returned_of_waiting (T := { i | i ∈ T ∧ ¬Parked s i }) hs (fun i hi => ?_)
      (fun i hi => (hstuck i hi.1).resolve_right hi.2) ⟨hi, hparked⟩
    by_cases hstarted : i ∈ T
    · have hasleep : (s.thread i).pc = .waitAsleep := (not_not.mp fun h => hi ⟨hstarted, h⟩).1
      rw [Handler.held, hasleep]
    · rw [Handler.held, hrest i hstarted]
  -- Nobody is loading any more, so every list is complete.
  have hloading (i : Nat) : (s.thread i).pc.role ≠ .load := by
    by_cases hi : i ∈ T
    · by_cases hparked : Parked s i
      · rw [hparked.1]
        decide
      · rw [hawake hi hparked]
        decide
    · rw [hrest i hi]
      decide
  have hcomplete (e : Nat) (he : e < s.shared.fresh) : (s.shared.cache e).complete = true := by
    obtain ⟨j, hj⟩ := exists_added hs he
    exact complete_of_not_loading hs hj (hloading j)
  -- A reader sleeps over a list that is not complete.
  have hreturned : ∀ i ∈ T, (s.thread i).pc = .returned := by
    intro i hi
    refine hawake hi fun hparked => ?_
    have hlt := cacheNode_lt hs (i := i) (by rw [hparked.1]; decide)
    have hidle := (sleepsIdle hs i).asleep hparked.1 hparked.2
    rw [Cache.Idle, hcomplete _ hlt] at hidle
    cases hidle.2
  refine ⟨hreturned, discipline.unlocked_of_held (agrees hs) fun i => ?_, hcomplete⟩
  show (s.thread i).held = []
  by_cases hi : i ∈ T
  · rw [Handler.held, hreturned i hi]
  · rw [Handler.held, hrest i hi]

end Progress

/-- A loader, and a reader that goes to sleep before the loader has published a node. -/
theorem neverHangs_slept :
    let start := serving (fun _ => plainRequest) fun _ => answering plainResponse
    ∃ s ∈ server.runIf (fun _ _ => true) start
        (List.replicate 4 0 ++ List.replicate 7 1 ++ List.replicate 19 0 ++ List.replicate 16 1),
      (∀ i < 2, (s.thread i).pc = .returned) ∧ (∀ l, s.shared.locks l = .unlocked) ∧
        ∀ e < s.shared.fresh, (s.shared.cache e).complete = true := by
  intro start
  obtain ⟨s, hrun, hs, hstuck⟩ :
      ∃ s ∈ server.runIf (fun _ _ => true) start
          (List.replicate 4 0 ++ List.replicate 7 1 ++ List.replicate 19 0 ++
            List.replicate 16 1),
        server.Reachable Starts s ∧ ∀ i < 2, (server.step s i).isNone = true :=
    exists_serving_runIf (fun _ _ _ => trivial)
      (fun s => ∀ i < 2, (server.step s i).isNone = true) (by decide +kernel)
  refine ⟨s, hrun, neverHangs (T := { i | i < 2 }) hs (fun i hi => ?_) fun i hi =>
    .inl (Option.isNone_iff_eq_none.mp (hstuck i hi))⟩
  rw [server.thread_of_runIf (fun hmem => hi ?_) hrun]
  · rfl
  · simp only [List.mem_append, List.mem_replicate] at hmem
    show i < 2
    omega

end Proxy
end OperatingSystems
