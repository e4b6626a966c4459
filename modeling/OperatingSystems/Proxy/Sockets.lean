import OperatingSystems.Library.Descriptors
import OperatingSystems.Proxy.Ownership
import OperatingSystems.Proxy.Redirects

/-!
# The upstream sockets of `client_handler`

`target_socket` holds the results of successive `http_connect` calls.  The trace
`upstream` of a run keeps what was done to them.

* `Loader.Owning` — the loader has `target_socket` open and nothing else; every piece
  of the miss path keeps it, and the last `close` ends it.
* `SendFails` — the one way to break it: the first connection is made and
  `request_send` fails on it, after which the code closes it, reads from it and
  closes it again.
* `socketDiscipline_iff` — every descriptor is closed exactly once and left alone
  afterwards, in exactly the runs where that does not happen.
-/

namespace OperatingSystems
namespace Proxy

open Threads Descriptors

/-- What an event does to an upstream descriptor. -/
def Event.action : Event → Option (Action Nat)
  | .connect fd => some (.opened fd)
  | .sendRequest (some fd) _ | .recv (some fd) => some (.used fd)
  | .close (some fd) => some (.closed fd)
  | _ => none

/-- What a run did to its upstream descriptors. -/
def upstream (log : List Event) : List (Action Nat) :=
  log.filterMap Event.action

@[simp] theorem upstream_append (log more : List Event) :
    upstream (log ++ more) = upstream log ++ upstream more :=
  List.filterMap_append

@[simp] theorem upstream_singleton (e : Event) : upstream [e] = e.action.toList := by
  cases h : e.action <;> simp [upstream, h]

/-! ### One open descriptor -/

/-- A run has `current` open and nothing else; `attempts` names no descriptor yet. -/
structure Owning (current : Option Nat) (attempts : Nat) (log : List Event) : Prop where
  owns : Owns current (upstream log)
  named : ∀ a ∈ upstream log, a.descriptor < attempts

namespace Owning

variable {current : Option Nat} {attempts : Nat} {log : List Event} {e : Event}

/-- An event that touches no upstream descriptor. -/
theorem quiet (h : Owning current attempts log) (he : e.action = none) :
    Owning current attempts (log ++ [e]) := by
  have hsame : upstream (log ++ [e]) = upstream log := by simp [he]
  exact ⟨hsame ▸ h.owns, hsame ▸ h.named⟩

/-- A `recv` or a `send` on what is open. -/
theorem used {fd : Nat} (h : Owning (some fd) attempts log) (hfd : fd < attempts)
    (he : e.action = some (.used fd)) : Owning (some fd) attempts (log ++ [e]) := by
  have htrace : upstream (log ++ [e]) = upstream log ++ [.used fd] := by simp [he]
  refine ⟨htrace ▸ h.owns.used, fun a ha => ?_⟩
  rw [htrace, List.mem_append, List.mem_singleton] at ha
  rcases ha with hold | rfl
  · exact h.named a hold
  · exact hfd

/-- `close` of what is open. -/
theorem close {fd : Nat} (h : Owning (some fd) attempts log) (hfd : fd < attempts) :
    Owning none attempts (log ++ [.close (some fd)]) := by
  have htrace : upstream (log ++ [.close (some fd)]) = upstream log ++ [.closed fd] := by
    simp [Event.action]
  refine ⟨htrace ▸ h.owns.close, fun a ha => ?_⟩
  rw [htrace, List.mem_append, List.mem_singleton] at ha
  rcases ha with hold | rfl
  · exact h.named a hold
  · exact hfd

/-- A call of `http_connect` that returns a descriptor. -/
theorem connect (h : Owning none attempts log) :
    Owning (some attempts) (attempts + 1) (log ++ [.connect attempts]) := by
  have htrace : upstream (log ++ [.connect attempts]) = upstream log ++ [.opened attempts] := by
    simp [Event.action]
  refine ⟨htrace ▸ h.owns.opened fun a ha => Nat.ne_of_lt (h.named a ha), fun a ha => ?_⟩
  rw [htrace, List.mem_append, List.mem_singleton] at ha
  rcases ha with hold | rfl
  · exact Nat.lt_succ_of_lt (h.named a hold)
  · exact Nat.lt_succ_self attempts

/-- A call of `http_connect` that fails. -/
theorem refused (h : Owning none attempts log) : Owning none (attempts + 1) log :=
  ⟨h.owns, fun a ha => Nat.lt_succ_of_lt (h.named a ha)⟩

end Owning

namespace Loader

variable {env : Env} {l : Loader}

/-- The loader has `target_socket` open and nothing else. -/
structure Owning (l : Loader) : Prop where
  owning : Proxy.Owning l.targetSocket l.attempts l.log
  target : ∀ fd, l.targetSocket = some fd → fd < l.attempts

/-- Everything that the loader opened is closed. -/
def Released (l : Loader) : Prop :=
  Proxy.Owning none l.attempts l.log

/-- A step which only adds to the log: quiet events, and uses of `target_socket`. -/
theorem Owning.append (h : l.Owning) {e : Event}
    (he : e.action = none ∨ e.action = l.targetSocket.map .used) :
    Proxy.Owning l.targetSocket l.attempts (l.log ++ [e]) := by
  rcases he with hquiet | hused
  · exact h.owning.quiet hquiet
  · cases htarget : l.targetSocket with
    | none => exact htarget ▸ h.owning.quiet (by simp [hused, htarget])
    | some fd =>
        exact (htarget ▸ h.owning).used (h.target fd htarget) (by simp [hused, htarget])

theorem Owning.emit (h : l.Owning) {e : Event}
    (he : e.action = none ∨ e.action = l.targetSocket.map .used) : (l.emit e).Owning :=
  ⟨h.append he, h.target⟩

theorem recv_action (fd : Option Nat) : (Event.recv fd).action = fd.map .used := by
  cases fd <;> rfl

theorem Owning.recv (h : l.Owning) : (l.emit (.recv l.targetSocket)).Owning :=
  h.emit (Or.inr (recv_action _))

theorem Owning.httpConnect (h : l.Released) : (l.httpConnect env).Owning := by
  unfold Loader.httpConnect
  split
  · exact ⟨h.connect, fun fd hfd => Option.some.inj hfd ▸ Nat.lt_succ_self _⟩
  · exact ⟨h.refused, nofun⟩

theorem Owning.requestSend (h : l.Owning) : l.requestSend.Owning := by
  unfold Loader.requestSend
  split
  · exact h
  · refine h.emit (Or.inr ?_)
    cases l.targetSocket <;> rfl

theorem Owning.send (h : l.Owning) {buffer : List Byte} : (l.send env buffer).Owning := by
  unfold Loader.send
  split
  · exact ⟨h.append (Or.inl rfl), h.target⟩
  · exact h

theorem Owning.closeTarget (h : l.Owning) : l.closeTarget.Released := by
  show Proxy.Owning none l.attempts (l.log ++ [.close l.targetSocket])
  cases htarget : l.targetSocket with
  | none => exact (htarget ▸ h.owning).quiet rfl
  | some fd => exact (htarget ▸ h.owning).close (h.target fd htarget)

theorem Owning.readStatusLine (h : l.Owning) : l.readStatusLine.2.Owning :=
  ⟨h.recv.owning, h.target⟩

theorem Owning.readResponse (h : l.Owning) : l.readResponse.Owning := by
  have hlog : l.readResponse.log =
      (((l.emit (.recv l.targetSocket)).emit (.statusLine (statusOf l.conn.bytes))).emit
        (.recv l.targetSocket)).log := by
    simp [readResponse_log, Loader.emit]
  have hall := ((h.recv.emit (e := .statusLine (statusOf l.conn.bytes)) (Or.inl rfl)).recv)
  exact ⟨hlog ▸ hall.owning, h.target⟩

theorem Owning.readBody (h : l.Owning) : l.readBody.2.Owning :=
  ⟨h.recv.owning, h.target⟩

theorem Owning.follow (h : l.Owning) (location : List Byte) : (l.follow env location).Owning :=
  Owning.httpConnect (l := { l.closeTarget with
    request := updateRequestFromLocation l.request location }) h.closeTarget

/-- The header loop: a followed redirect closes one descriptor and opens the next. -/
theorem Owning.headerLoop (n : Nat) (h : l.Owning) : (l.headerLoop env n).1.Owning := by
  refine headerLoop_induction env (motive := fun _ l result => l.Owning → result.1.Owning)
    ?_ ?_ ?_ ?_ ?_ ?_ n l h
  · exact fun _ h => h
  · exact fun _ _ _ h => h.readStatusLine
  · exact fun _ _ _ _ h => h.readResponse.send
  · exact fun _ _ _ _ h => h.readResponse
  · exact fun _ _ location _ _ _ h => h.readResponse.follow location
  · intro _ l location result _ _ _ ih h
    have hnext : (l.readResponse.follow env location).requestSend.Owning :=
      (h.readResponse.follow location).requestSend
    exact ih ⟨hnext.owning, hnext.target⟩

/-! ### The log only grows -/

theorem log_requestSend (l : Loader) : l.log <+: l.requestSend.log := by
  unfold requestSend
  split
  · exact List.prefix_rfl
  · exact List.prefix_append _ _

theorem log_send (env : Env) (l : Loader) (buffer : List Byte) :
    l.log <+: (l.send env buffer).log := by
  unfold send
  split
  · exact List.prefix_append _ _
  · exact List.prefix_rfl

theorem log_readResponse (l : Loader) : l.log ++ [.recv l.targetSocket] <+: l.readResponse.log := by
  rw [readResponse_log]
  exact (List.prefix_append_right_inj _).mpr (by simp)

theorem log_follow (env : Env) (l : Loader) (location : List Byte) :
    l.log <+: (l.follow env location).log := by
  unfold follow httpConnect
  split
  · simp only [closeTarget, List.append_assoc]
    exact List.prefix_append _ _
  · exact List.prefix_append _ _

/-- The header loop reads from `target_socket` before it does anything else. -/
theorem log_headerLoop (l : Loader) (env : Env) (n : Nat) :
    l.log <+: (l.headerLoop env n).1.log ∧
      (n ≠ 0 → l.log ++ [.recv l.targetSocket] <+: (l.headerLoop env n).1.log) := by
  have both {n : Nat} {l : Loader} {log : List Event}
      (h : l.log ++ [.recv l.targetSocket] <+: log) :
      l.log <+: log ∧ (n ≠ 0 → l.log ++ [.recv l.targetSocket] <+: log) :=
    ⟨(List.prefix_append _ _).trans h, fun _ => h⟩
  refine headerLoop_induction env
    (motive := fun n l result => l.log <+: result.1.log ∧
      (n ≠ 0 → l.log ++ [.recv l.targetSocket] <+: result.1.log)) ?_ ?_ ?_ ?_ ?_ ?_ n l
  · exact fun _ => ⟨List.prefix_rfl, fun h => absurd rfl h⟩
  · exact fun _ _ _ => both List.prefix_rfl
  · exact fun _ l _ _ => both (l.log_readResponse.trans (log_send env _ _))
  · exact fun _ l _ _ => both l.log_readResponse
  · exact fun _ l location _ _ _ => both (l.log_readResponse.trans (log_follow env _ location))
  · intro _ l location result _ _ _ ih
    have hnext : (l.readResponse.follow env location).log <+: (l.nextHop env location).log :=
      log_requestSend _
    exact both (l.log_readResponse.trans ((log_follow env _ location).trans (hnext.trans ih.1)))

end Loader

/-! ### The handlers -/

/-- The first connection is made, and `request_send` fails on it. -/
def SendFails (env : Env) (request : Request) : Prop :=
  (hostPort request).isSome = true ∧ (env.hop 0).reachable = true ∧
    ¬ ((buildRequest request).isSome = true ∧ (env.hop 0).takesRequest = true)

instance (env : Env) (request : Request) : Decidable (SendFails env request) :=
  inferInstanceAs (Decidable (_ ∧ _ ∧ ¬ _))

/-- What a run has done with upstream sockets. -/
inductive Stage
  | idle
  | connected
  | requested
  | reading
  | finished
  deriving DecidableEq

/-- How far a run is when it executes this statement next. -/
def Pc.stage : Pc → Stage
  | .failLockMap .connect | .failLock .connect | .failSet .connect | .failUnlock .connect
  | .failUnlockMap .connect | .requestSend => .connected
  | .failLockMap .send | .failLock .send | .failSet .send | .failUnlock .send
  | .failUnlockMap .send | .headerLoop => .requested
  | .listLock _ | .listAppend _ | .listUnlock _ _ | .wrlock _ _ | .unlockPrev _ _ | .bodyRead
  | .bodySend => .reading
  | .unlockCurrent _ | .doneLock | .doneSet | .doneUnlock | .removeLock | .removeFind _ _
  | .removeUnlink _ _ | .removeUnlock | .returned => .finished
  | _ => .idle

/-- The run has closed a descriptor and then used it. -/
def UsesClosed (l : Loader) : Prop :=
  ¬ NoUseAfterClose (upstream l.log)

theorem UsesClosed.mono {l l' : Loader} (hlog : l.log <+: l'.log) (h : UsesClosed l) :
    UsesClosed l' :=
  fun hsafe => h (NoUseAfterClose.of_prefix (hlog.filterMap _) hsafe)

/-- A run that has read a response: either it read from a closed descriptor, or it
keeps `P`. -/
def Responded (env : Env) (request : Request) (P : Loader → Prop) (l : Loader) : Prop :=
  if SendFails env request then UsesClosed l else P l

theorem Responded.grow {env : Env} {request : Request} {P Q : Loader → Prop} {l l' : Loader}
    (h : Responded env request P l) (hlog : l.log <+: l'.log) (hkeep : P l → Q l') :
    Responded env request Q l' := by
  unfold Responded at h ⊢
  split at h
  · next hfails => exact (if_pos hfails).symm ▸ h.mono hlog
  · next hsends => exact (if_neg hsends).symm ▸ hkeep h

/-- How a run that has this request and this upstream stands with its sockets. -/
def Accounts (env : Env) (request : Request) (t : Handler) : Prop :=
  match t.pc.stage with
  | .idle => t.loader = .start request
  | .connected => t.loader.Owning ∧ t.loader.request = request ∧
      t.loader.targetSocket =
        if (hostPort request).isSome && (env.hop 0).reachable then some 0 else none
  | .requested =>
      if SendFails env request then
        ∃ fd, t.loader.targetSocket = some fd ∧ .closed fd ∈ upstream t.loader.log
      else t.loader.Owning
  | .reading => Responded env request Loader.Owning t.loader
  | .finished =>
      if t.added = none then t.loader = .start request
      else Responded env request Loader.Released t.loader

/-- The result of the first `request_send`. -/
theorem requestSent_iff {env : Env} {l : Loader}
    (htarget : l.targetSocket =
      if (hostPort l.request).isSome && (env.hop 0).reachable then some 0 else none) :
    l.requestSent env = true ↔ l.targetSocket ≠ none ∧ ¬ SendFails env l.request := by
  unfold Loader.requestSent SendFails
  rw [htarget]
  cases (hostPort l.request).isSome <;> cases (env.hop 0).reachable <;>
    cases buildRequest l.request <;> simp

theorem Loader.targetSocket_requestSend (l : Loader) :
    l.requestSend.targetSocket = l.targetSocket := by
  unfold requestSend
  split <;> rfl

/-- A failed `request_send` is followed by `close`. -/
theorem Accounts.request {env : Env} {request : Request} {t : Handler} (henv : t.env = env)
    (hpc : t.pc = .requestSend) (h : Accounts env request t) :
    Accounts env request t.requestRound := by
  rw [Accounts, hpc] at h
  obtain ⟨howning, rfl, htarget⟩ := h
  subst henv
  have hsent := requestSent_iff htarget
  unfold Handler.requestRound
  by_cases hsend : t.loader.requestSent t.env = true
  · rw [if_pos hsend]
    show if SendFails t.env t.loader.request then _ else _
    rw [if_neg (hsent.mp hsend).2]
    exact howning.requestSend
  · rw [if_neg hsend]
    show if SendFails t.env t.loader.request then _ else _
    by_cases hfails : SendFails t.env t.loader.request
    · rw [if_pos hfails]
      have hzero : t.loader.requestSend.targetSocket = some 0 := by
        rw [Loader.targetSocket_requestSend, htarget]
        simp [hfails.1, hfails.2.1]
      refine ⟨0, hzero, ?_⟩
      simp [Loader.closeTarget, hzero, Event.action]
    · rw [if_neg hfails]
      -- There was no connection: `close(-1)` closes nothing.
      have hnone : t.loader.requestSend.targetSocket = none := by
        rw [Loader.targetSocket_requestSend]
        by_contra hsome
        exact hsend (hsent.mpr ⟨hsome, hfails⟩)
      have hreleased : t.loader.requestSend.closeTarget.Released := howning.requestSend.closeTarget
      refine ⟨?_, fun fd hfd => ?_⟩
      · show Proxy.Owning t.loader.requestSend.targetSocket _ _
        rw [hnone]
        exact hreleased
      · exact absurd (hnone.symm.trans hfd) (by simp)

/-- The header loop reads from what the failure branch has closed. -/
theorem Accounts.headers {env : Env} {request : Request} {t : Handler}
    (hpc : t.pc = .headerLoop) (h : Accounts env request t) :
    Accounts env request t.headerRound := by
  rw [Accounts, hpc] at h
  have hstage : t.headerRound.pc.stage = .reading := by
    unfold Handler.headerRound
    simp only
    split <;> rfl
  rw [Accounts, hstage]
  show if _ then UsesClosed (t.loader.headerLoop t.env maxRedirects).1
    else (t.loader.headerLoop t.env maxRedirects).1.Owning
  change if SendFails env request then _ else _ at h
  split at h
  · next hfails =>
    obtain ⟨fd, htarget, hclosed⟩ := h
    have hread := (t.loader.log_headerLoop t.env maxRedirects).2 (by decide)
    rw [if_pos hfails]
    intro hsafe
    have hsafe := NoUseAfterClose.of_prefix (hread.filterMap Event.action) hsafe
    change NoUseAfterClose (upstream (t.loader.log ++ [.recv t.loader.targetSocket])) at hsafe
    rw [upstream_append, htarget] at hsafe
    exact not_noUseAfterClose hclosed hsafe
  · next hsends =>
    rw [if_neg hsends]
    exact h.headerLoop maxRedirects

theorem Accounts.of_finished {env : Env} {request : Request} {t : Handler}
    (hstage : t.pc.stage = .finished) (hadded : t.added ≠ none)
    (h : Responded env request Loader.Released t.loader) : Accounts env request t := by
  rw [Accounts, hstage]
  simpa only [if_neg hadded] using h

/-- One round of the body loop; the last one closes. -/
theorem Accounts.body {env : Env} {request : Request} {t : Handler} (hadded : t.added ≠ none)
    (hpc : t.pc = .bodyRead) (h : Accounts env request t) :
    Accounts env request t.bodyRound := by
  rw [Accounts, hpc] at h
  have hresponded : Responded env request Loader.Owning t.loader := h
  unfold Handler.bodyRound
  split
  · refine .of_finished ?_ hadded (hresponded.grow ?_ fun howning => howning.readBody.closeTarget)
    · cases t.current <;> rfl
    · exact (List.prefix_append _ _).trans (List.prefix_append _ _)
  · have hread : Responded env request Loader.Owning t.loader.readBody.2 :=
      hresponded.grow (List.prefix_append _ _) fun howning => howning.readBody
    split <;> exact hread

/-- Outside the miss path a run goes from idle to finished only by returning from
the hit path. -/
theorem Pc.Follows.stage {pc next : Pc} (h : pc.Follows next) (hload : pc.role ≠ .load) :
    (pc.stage = .idle ∧ next.stage = .idle) ∨
      (pc.stage = .idle ∧ pc.role = .hit ∧ next.stage = .finished) ∨
      (pc.stage = .finished ∧ pc.role ≠ .lookup ∧ next.stage = .finished) := by
  cases h <;> simp_all [Pc.role, Pc.stage]

/-- The steps outside the miss path. -/
theorem Accounts.resume_of_not_load {env : Env} {request : Request} {memory : Memory} {t : Handler}
    (hload : t.pc.role ≠ .load) (hplaced : Placed memory t) (h : Accounts env request t) :
    Accounts env request (t.resume memory) := by
  have hloader : (t.resume memory).loader = t.loader := (t.frame memory).loader hload
  unfold Accounts at h ⊢
  rw [hloader]
  rcases (t.follows_resume memory).stage hload with ⟨hidle, hnext⟩ | ⟨hidle, hhit, hnext⟩ |
    ⟨hfinished, hlookup, hnext⟩
  · rw [hidle] at h
    rwa [hnext]
  · rw [hidle] at h
    have hadded : t.added = none := by
      rw [Placed, hhit] at hplaced
      exact hplaced.1
    have hsame : (t.resume memory).added = none := by
      rw [(t.frame memory).added fun hpc => by simp [hpc, Pc.role] at hhit, hadded]
    rw [hnext]
    simpa only [hsame, if_true] using h
  · rw [hfinished] at h
    rw [hnext, (t.frame memory).added fun hpc => by simp [hpc, Pc.role] at hlookup]
    exact h

/-- No step loses track of the sockets. -/
theorem Accounts.resume {env : Env} {request : Request} {memory : Memory} {t : Handler}
    (henv : t.env = env) (hplaced : Placed memory t) (h : Accounts env request t) :
    Accounts env request (t.resume memory) := by
  by_cases hload : t.pc.role = .load
  swap
  · exact h.resume_of_not_load hload hplaced
  have hadded : t.added ≠ none := by
    rw [Placed, hload] at hplaced
    simp [hplaced.1]
  -- Only the statements that call on a socket, or write to the log, ask for an argument.
  obtain ⟨pc, loader, tenv, stale, cacheNode, added, current, prev, chunk, sent⟩ := t
  cases pc <;> simp only [Pc.role, reduceCtorEq] at hload
  case requestSend => exact h.request henv rfl
  case headerLoop => exact h.headers rfl
  case bodyRead => exact h.body hadded rfl
  case connect =>
    obtain rfl : tenv = env := henv
    obtain rfl : loader = .start request := h
    have howning : ((Loader.start request).httpConnect tenv).Owning :=
      Loader.Owning.httpConnect ⟨.nil, fun _ ha => absurd ha List.not_mem_nil⟩
    have hspec : ((Loader.start request).httpConnect tenv).request = request ∧
        ((Loader.start request).httpConnect tenv).targetSocket =
          if (hostPort request).isSome && (tenv.hop 0).reachable then some 0 else none := by
      show (if (hostPort request).isSome && (tenv.hop 0).reachable then _ else _ : Loader).request =
          _ ∧ (if (hostPort request).isSome && (tenv.hop 0).reachable then _ else _ :
            Loader).targetSocket = _
      split <;> exact ⟨rfl, rfl⟩
    simp only [Handler.resume, Handler.connectRound]
    split <;> exact ⟨howning, hspec⟩
  case failSet f =>
    cases f with
    | connect => exact ⟨h.1.emit (Or.inl rfl), h.2⟩
    | send =>
        show if SendFails env request then _ else _
        change if SendFails env request then _ else _ at h
        split at h
        -- The socket was closed when the send failed; the log only grows.
        · next hfails =>
          rw [if_pos hfails]
          obtain ⟨fd, htarget, hclosed⟩ := h
          refine ⟨fd, htarget, ?_⟩
          show .closed fd ∈ upstream (loader.log ++ [.complete])
          rw [upstream_append]
          exact List.mem_append_left _ hclosed
        · next hsends =>
          rw [if_neg hsends]
          exact h.emit (Or.inl rfl)
  case failUnlockMap f => cases f <;> exact h
  case failLockMap f => cases f <;> exact h
  case failLock f => cases f <;> exact h
  case failUnlock f => cases f <;> exact h
  case listAppend site =>
    have hresponded : Responded env request Loader.Owning loader := h
    exact hresponded.grow (List.prefix_append _ _) fun howning => howning.emit (Or.inl rfl)
  case bodySend =>
    have hresponded : Responded env request Loader.Owning loader := h
    exact hresponded.grow (Loader.log_send _ _ _) fun howning => howning.send
  case wrlock site node => cases current <;> cases site <;> exact h
  case unlockPrev site node => cases site <;> exact h
  case doneSet =>
    have hresponded : Responded env request Loader.Released loader := by
      rw [Accounts] at h
      simpa only [Pc.stage, if_neg hadded] using h
    exact .of_finished rfl hadded
      (hresponded.grow (List.prefix_append _ _) fun hreleased => hreleased.quiet rfl)
  all_goals exact h

/-! ### Runs of the server -/

/-- A server whose `i`-th run gets this request and this upstream. -/
def Serves (request : Nat → Request) (env : Nat → Env) (s : State Nat Memory Handler) : Prop :=
  s.shared = .start ∧ ∀ i, ∃ stale, s.thread i = .start (request i) (env i) stale

section Runs

variable {request : Nat → Request} {env : Nat → Env} {s : State Nat Memory Handler}

/-- In every run, every handler can account for its sockets. -/
theorem accounts (hs : server.Reachable (Serves request env) s) (i : Nat) :
    (s.thread i).env = env i ∧ Accounts (env i) (request i) (s.thread i) := by
  have hstarts : ∀ s, Serves request env s → Starts s := fun s h =>
    ⟨h.1, fun i => ⟨request i, env i, h.2 i⟩⟩
  refine hs.forall_threads
    (L := fun i _ t => t.env = env i ∧ Accounts (env i) (request i) t) ?_ ?_ ?_ i
  · rintro s ⟨-, hthread⟩ i
    obtain ⟨stale, hi⟩ := hthread i
    rw [hi]
    exact ⟨rfl, rfl⟩
  · intro s i o memory hreach _ hall hop hexec
    obtain ⟨henv, haccounts⟩ := hall i
    have hplaced := (bounded_placed (hreach.mono hstarts fun _ _ h => h) i).2
    exact ⟨((s.thread i).frame s.shared).env.trans henv, haccounts.resume henv hplaced⟩
  · exact fun s i j o memory _ _ _ hall _ _ => hall j

theorem Accounts.noUseAfterClose {env : Env} {request : Request} {t : Handler}
    (hsends : ¬ SendFails env request) (h : Accounts env request t) :
    NoUseAfterClose (upstream t.loader.log) := by
  have hstart : NoUseAfterClose (upstream (Loader.start request).log) := List.Pairwise.nil
  unfold Accounts at h
  cases hstage : t.pc.stage <;> rw [hstage] at h
  case idle => exact (h : t.loader = .start request) ▸ hstart
  case connected => exact h.1.owning.owns.safe
  case requested =>
    have howning : t.loader.Owning := by simpa only [if_neg hsends] using h
    exact howning.owning.owns.safe
  case reading =>
    have howning : t.loader.Owning := by simpa only [Responded, if_neg hsends] using h
    exact howning.owning.owns.safe
  case finished =>
    by_cases hadded : t.added = none
    · have hloader : t.loader = .start request := by simpa only [if_pos hadded] using h
      exact hloader ▸ hstart
    · have hreleased : t.loader.Released := by
        simpa only [Responded, if_neg hadded, if_neg hsends] using h
      exact hreleased.owns.safe

/-- A run never uses an upstream descriptor that it has closed, and has closed each
exactly once when it returns, unless it makes its first connection and
`request_send` fails on it; such a run breaks the discipline. -/
theorem socketDiscipline_iff (hs : server.Reachable (Serves request env) s) (i : Nat) :
    (¬ SendFails (env i) (request i) → NoUseAfterClose (upstream (s.thread i).loader.log)) ∧
      ((s.thread i).pc = .returned → (Disciplined (upstream (s.thread i).loader.log) ↔
        ((s.thread i).added = none ∨ ¬ SendFails (env i) (request i)))) := by
  have haccounts := (accounts hs i).2
  refine ⟨fun hsends => haccounts.noUseAfterClose hsends, fun hreturned => ?_⟩
  rw [Accounts, hreturned] at haccounts
  simp only [Pc.stage] at haccounts
  by_cases hadded : (s.thread i).added = none
  · rw [if_pos hadded] at haccounts
    simp only [hadded, true_or, iff_true, haccounts]
    exact Owns.nil.disciplined
  · rw [if_neg hadded, Responded] at haccounts
    by_cases hfails : SendFails (env i) (request i)
    · rw [if_pos hfails] at haccounts
      simpa [hadded, hfails] using fun h : Disciplined _ => haccounts h.noUseAfterClose
    · rw [if_neg hfails] at haccounts
      simpa [hfails] using haccounts.owns.disciplined

end Runs

/-- Reach a state of a concrete server by a schedule, and test it. -/
theorem exists_serves_runIf {request : Nat → Request} {env : Nat → Env} {schedule : List Nat}
    (goal : State Nat Memory Handler → Prop) [DecidablePred goal]
    (h : (server.runIf (fun _ _ => true) (serving request env) schedule).any
      (fun s => goal s) = true) :
    ∃ s ∈ server.runIf (fun _ _ => true) (serving request env) schedule,
      server.Reachable (Serves request env) s ∧ goal s := by
  have hserves : Serves request env (serving request env) := ⟨rfl, fun _ => ⟨.closed, rfl⟩⟩
  exact (Program.ReachableUnder.start hserves).exists_runIf (fun _ _ _ => trivial) goal h

/-- A run that follows a redirect. -/
theorem socketDiscipline_iff_redirect :
    let start := serving (fun _ => plainRequest) fun _ => redirecting movedResponse plainResponse
    ∃ s ∈ server.runIf (fun _ _ => true) start (List.replicate 23 0),
      (s.thread 0).pc = .returned ∧ .opened 1 ∈ upstream (s.thread 0).loader.log ∧
        Disciplined (upstream (s.thread 0).loader.log) := by
  intro start
  obtain ⟨s, hrun, hs, hreturned, hopened⟩ := exists_serves_runIf
    (fun s => (s.thread 0).pc = .returned ∧ .opened 1 ∈ upstream (s.thread 0).loader.log)
    (by decide +kernel : (server.runIf (fun _ _ => true) start (List.replicate 23 0)).any _ = true)
  exact ⟨s, hrun, hreturned, hopened,
    ((socketDiscipline_iff hs 0).2 hreturned).mpr (Or.inr (by decide +kernel))⟩

/-- A peer that accepts the connection but not the request: its descriptor is closed,
read from and closed again. -/
theorem socketDiscipline_sendFails :
    let env : Env := ⟨fun _ => ⟨true, false, .closed⟩, fun _ => 1⟩
    ∃ s ∈ server.runIf (fun _ _ => true) (serving (fun _ => plainRequest) fun _ => env)
        (List.replicate 16 0),
      server.Reachable (Serves (fun _ => plainRequest) fun _ => env) s ∧
        (s.thread 0).pc = .returned ∧
        upstream (s.thread 0).loader.log =
          [.opened 0, .used 0, .closed 0, .used 0, .used 0, .closed 0] ∧
        ¬ Disciplined (upstream (s.thread 0).loader.log) := by
  intro env
  obtain ⟨s, hrun, hs, hreturned, htrace⟩ := exists_serves_runIf (fun s =>
      (s.thread 0).pc = .returned ∧ upstream (s.thread 0).loader.log =
        [.opened 0, .used 0, .closed 0, .used 0, .used 0, .closed 0])
    (by decide +kernel : (server.runIf (fun _ _ => true)
      (serving (fun _ => plainRequest) fun _ => env) (List.replicate 16 0)).any _ = true)
  refine ⟨s, hrun, hs, hreturned, htrace, fun hdisciplined => ?_⟩
  have honce := hdisciplined.closedOnce 0 (by simp [htrace])
  simp [htrace] at honce

end Proxy
end OperatingSystems
