import OperatingSystems.SharedList.List

/-!
# Which locks a thread of the list holds

* `Thread.held` — the locks of a thread, read off its place in the code.
* `Ready` — what makes this right: a scan moves on to the node that it has locked.
* `discipline` — the lock discipline of the threads.
-/

namespace OperatingSystems
namespace SharedList

open Threads

/-- The locks that the thread holds, the latest first. -/
def Thread.held (v : Version) (t : Thread) : List (Lock × Mode) :=
  match t.pc with
  | .scanFirst | .scanUnlockEmpty | .scanLockFirst | .scanUnlockLast =>
      [(.node t.prev, v.scanMode)]
  | .scanTest | .scanUnlockPrev | .scanUnlockCurrent =>
      [(.node t.current, v.scanMode), (.node t.prev, v.scanMode)]
  | .scanNext | .scanLockNext => [(.node t.current, v.scanMode)]
  | .scanCompare | .scanAdvance => [(.node t.next, v.scanMode), (.node t.current, v.scanMode)]
  | .scanCount | .scanCountUnlock => [(.counter (.scan t.kind), .write)]
  | .swapCurrent | .swapUnlockEmpty | .swapLockCurrent => [(.node t.prev, .write)]
  | .swapUnlockEndPrev | .skipUnlockPrev | .swapUnlockPrev => [(.node t.prev, .write)]
  | .swapNext | .swapUnlockEnd | .swapLockNext | .skipUnlockCurrent | .swapUnlockCurrent =>
      [(.node t.current, .write), (.node t.prev, .write)]
  | .swapCheckPrev | .swapCheckCurrent | .swapNextNext | .swapWritePrev | .swapWriteCurrent =>
      [(.node t.next, .write), (.node t.current, .write), (.node t.prev, .write)]
  | .swapWriteNext | .swapCountLock | .swapUnlockNext =>
      [(.node t.next, .write), (.node t.current, .write), (.node t.prev, .write)]
  | .swapCount | .swapCountUnlock =>
      [(.counter (.swap t.threadId), .write), (.node t.next, .write), (.node t.current, .write),
        (.node t.prev, .write)]
  | _ => []

/-- A scan that moves on finds the node that it has locked, and never locks a node twice. -/
structure Ready {ι : Type*} (v : Version) (memory : Memory ι) (t : Thread) : Prop where
  first : t.pc = .scanLockFirst → t.current ≠ t.prev
  next : t.pc = .scanNext → memory.next t.current ≠ none
  lock : t.pc = .scanLockNext → t.next ≠ t.current
  advance : t.pc = .scanAdvance → t.advance v memory.next = some t.next

/-- What an access does to the lock table. -/
def Op.effect : Op → LockEffect Lock
  | .acquire l m => .acquire l m
  | .release l m => .release l m
  | _ => .keep

namespace Thread

variable {ι : Type*} {v : Version} {memory : Memory ι} {t : Thread} {o : Op} {l : Lock} {m : Mode}

theorem held_resume_keep (hready : Ready v memory t) (hop : t.op v = some o)
    (ho : o.effect = .keep) : ((t.resume v memory).held v).Perm (t.held v) := by
  apply List.Perm.of_eq
  unfold op at hop
  cases hpc : t.pc <;> simp only [hpc, Option.some.injEq, reduceCtorEq] at hop <;> subst hop <;>
    simp only [Op.effect, reduceCtorEq] at ho <;> simp only [resume, hpc]
  case scanNext =>
    cases hnext : memory.next t.current with
    | none => exact absurd hnext (hready.next hpc)
    | some a => simp only [held, hpc]
  case scanAdvance =>
    simp only [hready.advance hpc]
    simp only [held, hpc]
  case scanFirst => cases memory.next t.prev <;> simp only [held, hpc]
  case swapCurrent => cases memory.next t.prev <;> simp only [held, hpc]
  case skipPrev => cases memory.next t.prev <;> simp only [held, hpc]
  case scanTest => split <;> simp only [held, hpc]
  case swapNext =>
    cases memory.next t.current with
    | none => simp only [held, hpc]
    | some a => cases hcoin : t.coins 0 <;> simp [held, hpc]
  case swapCheckPrev => split <;> simp only [held, hpc]
  case swapCheckCurrent => split <;> simp only [held, hpc]
  case scanStop => split <;> simp only [held, hpc]
  case swapOuter => split <;> simp only [held, hpc]
  case swapInner => split <;> simp only [held, hpc]
  all_goals simp only [held, hpc]

theorem held_resume_acquire (hop : t.op v = some o) (ho : o.effect = .acquire l m) :
    ((t.resume v memory).held v).Perm ((l, m) :: t.held v) := by
  apply List.Perm.of_eq
  unfold op at hop
  cases hpc : t.pc <;> simp only [hpc, Option.some.injEq, reduceCtorEq] at hop <;> subst hop <;>
    simp only [Op.effect, reduceCtorEq, LockEffect.acquire.injEq] at ho <;>
    obtain ⟨rfl, rfl⟩ := ho <;> simp only [resume, held, hpc]

theorem held_resume_release (hop : t.op v = some o) (ho : o.effect = .release l m) :
    (t.held v).Perm ((l, m) :: (t.resume v memory).held v) := by
  unfold op at hop
  cases hpc : t.pc <;> simp only [hpc, Option.some.injEq, reduceCtorEq] at hop <;> subst hop <;>
    simp only [Op.effect, reduceCtorEq, LockEffect.release.injEq] at ho <;>
    obtain ⟨rfl, rfl⟩ := ho <;> simp only [resume, held, hpc]
  case scanUnlockPrev => exact List.Perm.swap _ _ _
  all_goals exact List.Perm.refl _

theorem acquire_read (hready : Ready v memory t) (hop : t.op v = some o)
    (ho : o.effect = .acquire l .read) : (l, Mode.read) ∉ t.held v := by
  unfold op at hop
  cases hpc : t.pc <;> simp only [hpc, Option.some.injEq, reduceCtorEq] at hop <;> subst hop <;>
    simp only [Op.effect, reduceCtorEq, LockEffect.acquire.injEq, and_false] at ho <;>
    obtain ⟨rfl, -⟩ := ho <;> simp only [held, hpc]
  case scanLockFirst => simp [hready.first hpc]
  case scanLockNext => simp [hready.lock hpc]
  all_goals simp

end Thread

/-- The lock discipline of the threads of one version. -/
def discipline (v : Version) (ι : Type*) [DecidableEq ι] :
    LockDiscipline (threads v ι) Lock (Ready v) where
  locks := Memory.locks
  effect := Op.effect
  held := Thread.held v
  exec_keep := by
    intro i o memory memory' h ho
    cases o <;> simp only [Op.effect, reduceCtorEq] at ho <;> obtain rfl := Option.some.inj h <;> rfl
  exec_acquire := by
    intro i o memory memory' l m h ho
    cases o <;> simp only [Op.effect, reduceCtorEq, LockEffect.acquire.injEq] at ho
    obtain ⟨rfl, rfl⟩ := ho
    obtain ⟨l', hl', rfl⟩ := Option.map_eq_some_iff.mp h
    exact ⟨l', hl', rfl⟩
  exec_release := by
    intro i o memory memory' l m h ho
    cases o <;> simp only [Op.effect, reduceCtorEq, LockEffect.release.injEq] at ho
    obtain ⟨rfl, rfl⟩ := ho
    obtain rfl := Option.some.inj h
    rfl
  resume_keep := Thread.held_resume_keep
  resume_acquire := fun _ => Thread.held_resume_acquire
  acquire_read := Thread.acquire_read
  resume_release := fun _ => Thread.held_resume_release

end SharedList
end OperatingSystems
