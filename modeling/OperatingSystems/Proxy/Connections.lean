import OperatingSystems.Proxy.AcceptLoop
import OperatingSystems.Proxy.Redirects
import OperatingSystems.Proxy.Server

/-!
# Handlers and connections

`AcceptLoop.Connection.next` is `client_handler` with its decisions left open, and `Handler.resume`
is the same function with the data that decide.  Whatever a handler does is something that its
connection can do, with the same calls on the same descriptors.

* `Connection.Leads` — the calls on the way from one state of a connection to another.
* `Performs` — a piece of the miss path is such a way.
* `handler_leads` — so is what a handler of the server has done so far.

A call of `read_line` or `read_body` is one call here, however often it calls `recv`; and
`Connection` has its descriptors from the operating system, where a `Loader` has the number of the
`http_connect`: `fd` says which is which.
-/

namespace OperatingSystems
namespace Proxy

open Threads

/-! ### The calls of a connection -/

namespace AcceptLoop

/-- A call on a descriptor. -/
inductive Call
  | opened (fd : Nat)
  | used (fd : Option Nat)
  | closed (fd : Option Nat)
  | usedClient
  | closedClient

namespace Connection

/-- The call that a statement makes. -/
def call (c : Connection) : Effect → List Call
  | .nothing | .wait | .post => []
  | .useClient => [.usedClient]
  | .closeClient => [.closedClient]
  | .useTarget => [.used c.targetSocket]
  | .closeTarget => [.closed c.targetSocket]
  | .opened fd => [.opened fd]

/-- The calls on the way from one state to another. -/
inductive Leads (c : Connection) : List Call → Connection → Prop
  | start : Leads c [] c
  | next {calls : List Call} {c' c'' : Connection} {o : Outcome} {e : Effect} :
      Leads c calls c' → c'.next o = some (e, c'') → Leads c (calls ++ c'.call e) c''

theorem Leads.trans {c c' c'' : Connection} {calls more : List Call} (h : c.Leads calls c')
    (h' : c'.Leads more c'') : c.Leads (calls ++ more) c'' := by
  induction h' with
  | start => rwa [List.append_nil]
  | next _ hnext ih =>
      rw [← List.append_assoc]
      exact ih.next hnext

/-- A connection whose request has been read. -/
def received (clientSocket : Nat) : Connection :=
  (start clientSocket).goto .find

theorem leads_received (clientSocket : Nat) :
    (start clientSocket).Leads [.usedClient] (received clientSocket) := by
  let c := start clientSocket
  have hwait : c.next .done = some (.wait, c.goto .malloc) := rfl
  have hmalloc : (c.goto .malloc).next .done = some (.nothing, c.goto .create) := rfl
  have hcreate : (c.goto .create).next .done = some (.nothing, c.goto .readHeader) := rfl
  have hread : (c.goto .readHeader).next .done = some (.useClient, c.goto .checkMethod) := rfl
  have hmethod : (c.goto .checkMethod).next .done = some (.nothing, received clientSocket) := rfl
  exact ((((Leads.start.next hwait).next hmalloc).next hcreate).next hread).next hmethod

end Connection
end AcceptLoop

open AcceptLoop (Call Connection Effect)

/-! ### The miss path -/

/-- The calls that an event stands for. -/
def Event.calls (fd : Nat → Nat) : Event → List Call
  | .connect k => [.opened (fd k)]
  | .sendRequest k _ | .recv k => [.used (k.map fd)]
  | .close k => [.closed (k.map fd)]
  | .sendClient _ => [.usedClient]
  | .statusLine _ | .listAdd _ | .complete => []

namespace Loader

variable (fd : Nat → Nat) (client : Nat)

/-- The calls of the miss path so far. -/
def calls (l : Loader) : List Call :=
  l.log.flatMap (Event.calls fd)

/-- The connection at a statement. -/
def connection (l : Loader) (pc : AcceptLoop.Pc) (redirects : Nat) : Connection :=
  ⟨pc, client, l.targetSocket.map fd, l.clientAlive, redirects⟩

/-- A piece of the miss path, between two statements, is something that the connection can do. -/
def Performs (l : Loader) (pc : AcceptLoop.Pc) (redirects : Nat) (l' : Loader)
    (pc' : AcceptLoop.Pc) (redirects' : Nat) : Prop :=
  ∃ calls, l'.calls fd = l.calls fd ++ calls ∧
    (l.connection fd client pc redirects).Leads calls (l'.connection fd client pc' redirects')

variable {fd client} {env : Env} {l l' l'' : Loader} {pc pc' pc'' : AcceptLoop.Pc}
  {redirects redirects' redirects'' : Nat}

@[simp] theorem calls_emit (e : Event) : (l.emit e).calls fd = l.calls fd ++ e.calls fd := by
  simp [calls, emit]

@[simp] theorem calls_closeTarget :
    l.closeTarget.calls fd = l.calls fd ++ [.closed (l.targetSocket.map fd)] := by
  simp [calls, closeTarget, Event.calls]

namespace Performs

theorem trans (h : Performs fd client l pc redirects l' pc' redirects')
    (h' : Performs fd client l' pc' redirects' l'' pc'' redirects'') :
    Performs fd client l pc redirects l'' pc'' redirects'' := by
  obtain ⟨calls, hcalls, hleads⟩ := h
  obtain ⟨more, hcalls', hmore⟩ := h'
  exact ⟨calls ++ more, by rw [hcalls', hcalls, List.append_assoc], hleads.trans hmore⟩

/-- One statement. -/
theorem next {e : Effect} (o : AcceptLoop.Outcome)
    (hnext : (l.connection fd client pc redirects).next o =
      some (e, l'.connection fd client pc' redirects'))
    (hcalls : l'.calls fd = l.calls fd ++ (l.connection fd client pc redirects).call e) :
    Performs fd client l pc redirects l' pc' redirects' :=
  ⟨_, by rw [hcalls, List.nil_append], Connection.Leads.start.next hnext⟩

/-- One statement without a call. -/
theorem silent (o : AcceptLoop.Outcome)
    (hnext : (l.connection fd client pc redirects).next o =
      some (.nothing, l.connection fd client pc' redirects')) :
    Performs fd client l pc redirects l pc' redirects' :=
  next o hnext (List.append_nil _).symm

end Performs

/-- `http_connect` and the test of its result. -/
theorem performs_httpConnect : Performs fd client l .connect redirects (l.httpConnect env)
    .buildRequest redirects := by
  unfold httpConnect
  split
  · exact .next (.descriptor (fd l.attempts)) rfl (by simp [calls, Event.calls, Connection.call])
  · exact .next .failed rfl (by simp [calls, Connection.call])

theorem performs_httpConnect_again : Performs fd client l .follow redirects (l.httpConnect env)
    (if (l.httpConnect env).targetSocket.isNone then .readBody else .resend) redirects := by
  unfold httpConnect
  split
  · exact .next (.descriptor (fd l.attempts)) rfl (by simp [calls, Event.calls, Connection.call])
  · exact .next .failed rfl (by simp [calls, Connection.call])

/-- `request_send` for a redirect. -/
theorem performs_requestSend_again : Performs fd client l .resend redirects
    { l.requestSend with redirects := l.requestSend.redirects + 1 } .readStatus
    (redirects + 1) := by
  unfold requestSend
  cases buildRequest l.request with
  | none => exact .next .failed rfl (by simp [calls, Connection.call])
  | some text =>
      exact .next .done rfl (by simp [calls, emit, Event.calls, Connection.call, connection])

/-- `close(target_socket)` in front of another statement. -/
theorem performs_closeTarget
    (hnext : (l.connection fd client pc redirects).next .done =
      some (.closeTarget, l.connection fd client pc' redirects)) :
    Performs fd client l pc redirects l.closeTarget pc' redirects :=
  .next .done hnext calls_closeTarget

theorem isSome_targetSocket_of_requestSent (h : l.requestSent env = true) :
    l.targetSocket.isSome = true ∧ (buildRequest l.request).isSome = true := by
  unfold requestSent at h
  split at h
  · next htext htarget => simp [htext, htarget]
  · cases h

/-- The first `request_send` and its failure branch. -/
theorem performs_requestSend : Performs fd client l .buildRequest redirects
    (if l.requestSent env then l.requestSend else l.requestSend.closeTarget) .readStatus
    redirects := by
  cases htext : buildRequest l.request with
  | none =>
      have hsent : ¬ l.requestSent env = true := fun h => by
        simpa [htext] using (isSome_targetSocket_of_requestSent h).2
      have hsend : l.requestSend = l := by rw [requestSend, htext]
      have hbuild : Performs fd client l .buildRequest redirects l .failClose redirects :=
        .silent .failed rfl
      rw [if_neg hsent, hsend]
      exact hbuild.trans (performs_closeTarget rfl)
  | some text =>
      have hbuild : Performs fd client l .buildRequest redirects l .requestSend redirects :=
        .silent .done rfl
      have hsend : l.requestSend = l.emit (.sendRequest l.targetSocket text) := by
        rw [requestSend, htext]
      have hcalls : (l.emit (.sendRequest l.targetSocket text)).calls fd =
          l.calls fd ++ [.used (l.targetSocket.map fd)] := calls_emit _
      rw [hsend]
      refine hbuild.trans ?_
      split
      case isTrue hsent =>
          have htarget := (isSome_targetSocket_of_requestSent hsent).1
          have hnext : (l.connection fd client .requestSend redirects).next .done =
              some (.useTarget, l.connection fd client .readStatus redirects) := by
            simp [Connection.next, connection, Option.isSome_map, htarget, Connection.goto]
          exact .next .done hnext hcalls
      case isFalse =>
          have hfails : Performs fd client l .requestSend redirects
              (l.emit (.sendRequest l.targetSocket text)) .failClose redirects :=
            .next .failed rfl hcalls
          exact hfails.trans (performs_closeTarget rfl)

/-! ### The header loop and the body loop -/

/-- `if (client_alive) { if (send(...) <= 0) client_alive = 0; }` -/
theorem performs_send (hpc : pc = .sendHeaders ∨ pc = .sendBody) (buffer : List Byte) :
    Performs fd client l pc redirects (l.send env buffer) .readBody redirects := by
  have hnext (o : AcceptLoop.Outcome) : (l.connection fd client pc redirects).next o =
      (l.connection fd client pc redirects).sendOn o := by
    rcases hpc with rfl | rfl <;> rfl
  unfold send
  split
  case isFalse hgone =>
      refine .silent .done ?_
      rw [hnext]
      simp [Connection.sendOn, connection, hgone, Connection.goto]
  case isTrue halive =>
      by_cases hreply : 0 < env.reply l.sends
      · have hdone : (l.connection fd client pc redirects).next .done =
            some (.useClient, l.connection fd client .readBody redirects) := by
          rw [hnext]
          simp [Connection.sendOn, connection, halive, Connection.goto]
        simp only [hreply]
        exact .next .done (by simpa [connection, halive] using hdone) (calls_emit _)
      · have hfailed : (l.connection fd client pc redirects).next .failed =
            some (.useClient, { l.connection fd client .readBody redirects with
              clientAlive := false }) := by
          rw [hnext]
          simp [Connection.sendOn, connection, halive]
        exact .next .failed (by simpa [connection, halive, hreply] using hfailed) (calls_emit _)

/-- `read_line` for the status line, in a round that the limit on redirects allows. -/
theorem performs_readStatusLine (hmore : redirects < maxRedirects) :
    Performs fd client l .readStatus redirects l.readStatusLine.2 .readBody redirects ∧
      Performs fd client l .readStatus redirects l.readStatusLine.2 .readHeaders redirects := by
  have hcalls : l.readStatusLine.2.calls fd = l.calls fd ++ [.used (l.targetSocket.map fd)] :=
    calls_emit _
  have hfailed : (l.connection fd client .readStatus redirects).next .failed =
      some (.useTarget, l.connection fd client .readBody redirects) := by
    simp [Connection.next, connection, hmore, Connection.goto]
  have hdone : (l.connection fd client .readStatus redirects).next .done =
      some (.useTarget, l.connection fd client .readHeaders redirects) := by
    simp [Connection.next, connection, hmore, Connection.goto]
  exact ⟨.next .failed hfailed hcalls, .next .done hdone hcalls⟩

/-- The whole header block. -/
theorem performs_readResponse (hmore : redirects < maxRedirects) :
    Performs fd client l .readStatus redirects l.readResponse .redirect redirects := by
  refine (performs_readStatusLine hmore).2.trans (.next .done rfl ?_)
  simp [calls, readResponse, readHead, Event.calls, Connection.call, connection]

/-- `close`, `update_request_from_location` and `http_connect` -/
theorem performs_follow {location : List Byte}
    (hpc : pc = if (l.follow env location).targetSocket.isNone then .readBody else .resend) :
    Performs fd client l .closeHop redirects (l.follow env location) pc redirects := by
  have hclose : Performs fd client l .closeHop redirects
      { l.closeTarget with request := updateRequestFromLocation l.request location } .follow
      redirects :=
    .next .done rfl calls_closeTarget
  rw [hpc]
  exact hclose.trans performs_httpConnect_again

/-- The header loop with `n` rounds left. -/
theorem performs_headerLoop (n : Nat) (hrounds : redirects + n = maxRedirects) :
    ∃ redirects', Performs fd client l .readStatus redirects (l.headerLoop env n).1 .readBody
      redirects' := by
  refine headerLoop_induction env (motive := fun n l r => ∀ redirects,
    redirects + n = maxRedirects → ∃ redirects',
      Performs fd client l .readStatus redirects r.1 .readBody redirects')
    ?rounds ?closed ?answered ?noLocation ?unreachable ?followed n l redirects hrounds
  case rounds =>
      rintro l redirects rfl
      have hlimit : (l.connection fd client .readStatus maxRedirects).next .done =
          some (.nothing, l.connection fd client .readBody maxRedirects) := by
        simp [Connection.next, connection, Connection.goto]
      exact ⟨maxRedirects, .silent .done hlimit⟩
  case closed =>
      intro n l _ redirects hrounds
      exact ⟨redirects, (performs_readStatusLine (by omega)).1⟩
  case answered =>
      intro n l _ _ redirects hrounds
      have hfinal : Performs fd client l.readResponse .redirect redirects l.readResponse
          .sendHeaders redirects := .silent .done rfl
      exact ⟨redirects, ((performs_readResponse (by omega)).trans hfinal).trans
        (performs_send (.inl rfl) _)⟩
  case noLocation =>
      intro n l _ _ redirects hrounds
      exact ⟨redirects, (performs_readResponse (by omega)).trans (.silent .failed rfl)⟩
  case unreachable =>
      intro n l location _ _ htarget redirects hrounds
      have hfollow : Performs fd client l.readResponse .closeHop redirects
          (l.readResponse.follow env location) .readBody redirects :=
        performs_follow (by simp [htarget])
      have hclose : Performs fd client l.readResponse .redirect redirects l.readResponse
          .closeHop redirects := .silent .again rfl
      exact ⟨redirects, ((performs_readResponse (by omega)).trans hclose).trans hfollow⟩
  case followed =>
      intro n l location result _ _ htarget ih redirects hrounds
      have hfollow : Performs fd client l.readResponse .closeHop redirects
          (l.readResponse.follow env location) .resend redirects :=
        performs_follow (by simp [htarget])
      have hclose : Performs fd client l.readResponse .redirect redirects l.readResponse
          .closeHop redirects := .silent .again rfl
      have hnext : Performs fd client l .readStatus redirects (l.nextHop env location)
          .readStatus (redirects + 1) :=
        (((performs_readResponse (by omega)).trans hclose).trans hfollow).trans
          performs_requestSend_again
      obtain ⟨redirects', hrest⟩ := ih (redirects + 1) (by omega)
      exact ⟨redirects', hnext.trans hrest⟩

end Loader

/-! ### The handlers -/

/-- The statement of the connection that comes next. -/
def Pc.statement : Pc → AcceptLoop.Pc
  | .lockMap | .find _ => .find
  | .foundUnlock | .readFirst | .waitLock | .waitCheck | .waitSleep | .waitAsleep => .stream
  | .waitRelock | .waitReturn _ | .rdlock _ | .send _ | .rdunlock _ true => .stream
  | .stateLock _ | .stateRead _ | .stateUnlock _ _ => .stream
  | .mapAdd | .addedUnlock | .connect => .connect
  | .failLockMap .connect | .failLock .connect | .failSet .connect | .failUnlock .connect
  | .failUnlockMap .connect | .requestSend => .buildRequest
  | .failLockMap .send | .failLock .send | .failSet .send | .failUnlock .send
  | .failUnlockMap .send | .headerLoop => .readStatus
  | .listLock .headers | .listAppend .headers | .listUnlock .headers _ | .wrlock .headers _
  | .unlockPrev .headers _ | .bodyRead => .readBody
  | .listLock .body | .listAppend .body | .listUnlock .body _ | .wrlock .body _
  | .unlockPrev .body _ | .bodySend => .sendBody
  | .rdunlock _ false | .unlockCurrent _ | .doneLock | .doneSet | .doneUnlock => .closeClient
  | .removeLock | .removeFind _ _ | .removeUnlink _ _ | .removeUnlock | .returned => .closeClient

/-- Nothing was sent to the client on the hit path. -/
def AcceptLoop.Pc.unsent : AcceptLoop.Pc → Bool
  | .stream | .closeClient => false
  | _ => true

/-- No redirect has been followed yet. -/
def AcceptLoop.Pc.early : AcceptLoop.Pc → Bool
  | .find | .connect | .buildRequest | .readStatus => true
  | _ => false

namespace Handler

variable (fd : Nat → Nat) (client : Nat)

/-- The calls of a handler so far: on the hit path only the `send`s count. -/
def calls (t : Handler) : List Call :=
  t.loader.calls fd ++ t.sent.map fun _ => .usedClient

/-- What a handler has done is something that its connection can do. -/
structure Led (t : Handler) : Prop where
  sent : t.pc.statement.unsent = true → t.sent = []
  leads : ∃ redirects, (t.pc.statement.early = true → redirects = 0) ∧
    (Connection.received client).Leads (t.calls fd)
      (t.loader.connection fd client t.pc.statement redirects)

variable {fd client} {t t' : Handler}

namespace Led

theorem start (request : Request) (env : Env) (stale : Socket) :
    Led fd client (.start request env stale) :=
  ⟨fun _ => rfl, 0, fun _ => rfl, .start⟩

/-- Statements that are one for the connection. -/
theorem stay (h : Led fd client t) (hpc : t'.pc.statement = t.pc.statement)
    (htarget : t'.loader.targetSocket = t.loader.targetSocket)
    (halive : t'.loader.clientAlive = t.loader.clientAlive)
    (hcalls : t'.loader.calls fd = t.loader.calls fd) (hsent : t'.sent = t.sent) :
    Led fd client t' := by
  obtain ⟨hunsent, redirects, hearly, hleads⟩ := h
  refine ⟨by rwa [hpc, hsent], redirects, by rwa [hpc], ?_⟩
  rw [Handler.calls, hcalls, hsent, Loader.connection, hpc, htarget, halive]
  exact hleads

/-- A piece of the miss path. -/
theorem performs (h : Led fd client t) (hpc : t.pc.statement.unsent = true)
    (hsent : t'.sent = t.sent)
    (hperforms : ∀ redirects, (t.pc.statement.early = true → redirects = 0) →
      ∃ redirects', (t'.pc.statement.early = true → redirects' = 0) ∧
        Loader.Performs fd client t.loader t.pc.statement redirects t'.loader t'.pc.statement
          redirects') : Led fd client t' := by
  obtain ⟨hunsent, redirects, hearly, hleads⟩ := h
  have hnil := hunsent hpc
  obtain ⟨redirects', hearly', calls, hcalls, hmore⟩ := hperforms redirects hearly
  refine ⟨fun _ => hsent.trans hnil, redirects', hearly', ?_⟩
  rw [Handler.calls, hnil, List.map_nil, List.append_nil] at hleads
  rw [Handler.calls, hsent, hnil, List.map_nil, List.append_nil, hcalls]
  exact hleads.trans hmore

/-- One statement of the connection, in front of the miss path. -/
theorem next (h : Led fd client t) (o : AcceptLoop.Outcome) (e : Effect)
    (hnext : ∀ redirects, (t.loader.connection fd client t.pc.statement redirects).next o =
      some (e, t'.loader.connection fd client t'.pc.statement redirects))
    (hcalls : ∀ redirects, t'.calls fd =
      t.calls fd ++ (t.loader.connection fd client t.pc.statement redirects).call e)
    (hsent : t'.pc.statement.unsent = true → t'.sent = [])
    (hearly : t'.pc.statement.early = true → t.pc.statement.early = true) :
    Led fd client t' := by
  obtain ⟨-, redirects, hredirects, hleads⟩ := h
  refine ⟨hsent, redirects, fun hlate => hredirects (hearly hlate), ?_⟩
  rw [hcalls redirects]
  exact hleads.next (hnext redirects)

/-- The head of the streaming loop, and the places from which it is reached. -/
theorem streamFrom (h : Led fd client t) (hpc : t.pc.statement = .stream)
    (current : Option Nat) : Led fd client (t.streamFrom current) := by
  refine h.stay ?_ rfl rfl rfl rfl
  rw [hpc]
  cases current <;> rfl

/-- The end of the streaming loop. -/
theorem finish (h : Led fd client t) (hpc : t.pc.statement = .stream) :
    Led fd client { t with pc := .returned } := by
  refine h.next .done .nothing (fun redirects => ?_) (fun _ => (List.append_nil _).symm)
    (fun hunsent => absurd hunsent Bool.false_ne_true)
    (fun hearly => absurd hearly Bool.false_ne_true)
  rw [hpc]
  rfl

/-- A `send` on the hit path. -/
theorem sendNode (h : Led fd client t) (hpc : t.pc.statement = .stream) (c : Cache) (node : Nat) :
    Led fd client (t.sendNode c node) := by
  have hcalls : (t.sendNode c node).calls fd = t.calls fd ++ [.usedClient] := by
    simp [Handler.calls, Handler.sendNode]
  by_cases hreply : t.env.reply t.sent.length = -1
  · have hlast : (t.sendNode c node).pc.statement = .closeClient := by
      simp [Handler.sendNode, hreply, Pc.statement]
    refine h.next .failed .useClient (fun redirects => ?_) (fun _ => hcalls)
      (by simp [hlast, AcceptLoop.Pc.unsent]) (by simp [hlast, AcceptLoop.Pc.early])
    rw [hpc, hlast]
    rfl
  · have hmore : (t.sendNode c node).pc.statement = .stream := by
      simp [Handler.sendNode, hreply, Pc.statement]
    refine h.next .again .useClient (fun redirects => ?_) (fun _ => hcalls)
      (by simp [hmore, AcceptLoop.Pc.unsent]) (by simp [hmore, AcceptLoop.Pc.early])
    rw [hpc, hmore]
    rfl

/-- `read_body` -/
theorem bodyRound (h : Led fd client t) (hpc : t.pc = .bodyRead) :
    Led fd client t.bodyRound := by
  have hstatement : t.pc.statement = .readBody := by rw [hpc]; rfl
  have hcalls : t.loader.readBody.2.calls fd =
      t.loader.calls fd ++ [.used (t.loader.targetSocket.map fd)] := Loader.calls_emit _
  unfold Handler.bodyRound
  split
  · refine h.performs (by rw [hstatement]; rfl) rfl fun redirects _ => ?_
    have hlast : Loader.Performs fd client t.loader .readBody redirects t.loader.readBody.2
        .closeTarget redirects := .next .failed rfl hcalls
    refine ⟨redirects, ?_, ?_⟩
    · cases t.current <;> exact fun hearly => absurd hearly Bool.false_ne_true
    · rw [hstatement]
      cases t.current <;> exact hlast.trans (Loader.performs_closeTarget rfl)
  · refine h.performs (by rw [hstatement]; rfl) rfl fun redirects _ => ?_
    have hmore : Loader.Performs fd client t.loader .readBody redirects t.loader.readBody.2
        .sendBody redirects := .next .done rfl hcalls
    refine ⟨redirects, ?_, ?_⟩
    · dsimp only
      split <;> exact fun hearly => absurd hearly Bool.false_ne_true
    · rw [hstatement]
      dsimp only
      split <;> exact hmore

theorem resume (h : Led fd client t) (memory : Memory) : Led fd client (t.resume memory) := by
  obtain ⟨pc, loader, env, stale, cacheNode, added, current, prev, chunk, sent⟩ := t
  cases pc <;> simp only [Handler.resume]
  all_goals try exact h.stay rfl rfl rfl rfl rfl
  case find cursor =>
      cases cursor with
      | none =>
          exact h.next .failed .nothing (fun _ => rfl) (fun _ => (List.append_nil _).symm)
            (fun _ => h.sent rfl) fun _ => rfl
      | some e =>
          simp only [findRound]
          split
          · exact h.next .done .nothing (fun _ => rfl) (fun _ => (List.append_nil _).symm)
              (fun hunsent => absurd hunsent Bool.false_ne_true)
              (fun hearly => absurd hearly Bool.false_ne_true)
          · exact h.stay rfl rfl rfl rfl rfl
  case readFirst => exact h.streamFrom rfl _
  case waitCheck =>
      simp only [waitRound]
      split
      · exact h.stay rfl rfl rfl rfl rfl
      · split <;> exact h.stay rfl rfl rfl rfl rfl
  case waitReturn more =>
      cases more with
      | true => exact h.streamFrom rfl _
      | false => exact h.finish rfl
  case send node => exact h.sendNode rfl _ _
  case rdunlock node ok => cases ok <;> exact h.stay rfl rfl rfl rfl rfl
  case stateUnlock next isComplete =>
      split
      · exact h.finish rfl
      · exact h.streamFrom rfl _
  case connect =>
      refine h.performs rfl rfl fun redirects hearly => ⟨redirects, fun _ => hearly rfl, ?_⟩
      simp only [connectRound]
      split <;> exact Loader.performs_httpConnect
  case requestSend =>
      refine h.performs rfl ?_ fun redirects hearly => ⟨redirects, fun _ => hearly rfl, ?_⟩
      · simp only [requestRound]
        split <;> rfl
      · have hsend : Loader.Performs fd client loader .buildRequest redirects
            (if loader.requestSent env then loader.requestSend else loader.requestSend.closeTarget)
            .readStatus redirects := Loader.performs_requestSend
        simp only [requestRound]
        split
        case isTrue hsent =>
            rw [if_pos hsent] at hsend
            exact hsend
        case isFalse hsent =>
            rw [if_neg hsent] at hsend
            exact hsend
  case failSet f =>
      cases f <;> exact h.stay rfl rfl rfl (by simp [Event.calls]) rfl
  case headerLoop =>
      refine h.performs rfl rfl fun redirects hearly => ?_
      have hrounds : redirects + maxRedirects = maxRedirects := by
        rw [hearly rfl, Nat.zero_add]
      obtain ⟨redirects', hloop⟩ : ∃ redirects', Loader.Performs fd client loader .readStatus
          redirects (loader.headerLoop env maxRedirects).1 .readBody redirects' :=
        Loader.performs_headerLoop maxRedirects hrounds
      refine ⟨redirects', ?_, ?_⟩
      · simp only [headerRound]
        split <;> exact fun hearly => absurd hearly Bool.false_ne_true
      · simp only [headerRound]
        split <;> exact hloop
  case listAppend site =>
      cases site <;> exact h.stay rfl rfl rfl (by simp [Event.calls]) rfl
  case wrlock site node =>
      cases current <;> cases site <;> exact h.stay rfl rfl rfl rfl rfl
  case bodyRead => exact h.bodyRound rfl
  case bodySend =>
      exact h.performs rfl rfl fun redirects _ =>
        ⟨redirects, fun hearly => absurd hearly Bool.false_ne_true,
          Loader.performs_send (.inr rfl) _⟩
  case doneSet => exact h.stay rfl rfl rfl (by simp [Event.calls]) rfl
  case doneUnlock => split <;> exact h.stay rfl rfl rfl rfl rfl
  case removeFind prev cursor =>
      cases cursor with
      | none => exact h.stay rfl rfl rfl rfl rfl
      | some e =>
          simp only [removeRound]
          split <;> exact h.stay rfl rfl rfl rfl rfl
  case failLockMap f => cases f <;> exact h.stay rfl rfl rfl rfl rfl
  case failLock f => cases f <;> exact h.stay rfl rfl rfl rfl rfl
  case failUnlock f => cases f <;> exact h.stay rfl rfl rfl rfl rfl
  case failUnlockMap f => cases f <;> exact h.stay rfl rfl rfl rfl rfl
  case listLock site => cases site <;> exact h.stay rfl rfl rfl rfl rfl
  case listUnlock site node => cases site <;> exact h.stay rfl rfl rfl rfl rfl
  case unlockPrev site prev => cases site <;> exact h.stay rfl rfl rfl rfl rfl

end Led

end Handler

/-- In every run of the server, what a handler has done so far with its descriptors, behind
`read_header`, is something that its connection can do up to the statement it has reached. -/
theorem handler_leads {ok : State Nat Memory Handler → Nat → Prop} {s : State Nat Memory Handler}
    (hs : server.ReachableUnder Starts ok s) (fd : Nat → Nat) (client i : Nat) :
    ∃ redirects, (Connection.start client).Leads (.usedClient :: (s.thread i).calls fd)
      ((s.thread i).loader.connection fd client (s.thread i).pc.statement redirects) := by
  have hled : Handler.Led fd client (s.thread i) :=
    serverThreads (L := fun _ _ t => Handler.Led fd client t)
      (fun _ request env stale => .start request env stale)
      (fun s i _ _ _ _ hall _ _ => (hall i).resume s.shared)
      (fun _ _ j _ _ _ _ _ hall _ _ => hall j) hs i
  obtain ⟨redirects, -, hleads⟩ := hled.leads
  exact ⟨redirects, (Connection.leads_received client).trans hleads⟩

end Proxy
end OperatingSystems
