import Mathlib.Data.Finset.Card
import Mathlib.Data.Finset.Range
import OperatingSystems.Library.Descriptors
import OperatingSystems.Library.Machine
import OperatingSystems.Proxy.Reading

/-!
# Permits and client sockets

`start_proxy_server` and `client_handler` as far as they concern the semaphore and the
descriptors.  Whatever decides a branch from outside is an input: the results of
`accept`, `malloc`, `pthread_create` and of the calls on sockets, what the requests and
responses say, and which thread goes on.  The handlers of `Server.lean`, in which requests and
responses are what decides, take no way that a `Connection` cannot take (`handler_leads`).

A descriptor is a number, and the operating system hands out a number again once it is
closed: `Server.descriptor` says what a number stands for at present.  The trace
records what is done to the accepted sockets, each named by its connection: a call which
the code makes on the socket of its own connection counts for that connection, and a call
on any number also counts for the connection whose socket the number stands for.

* `permits` — the semaphore and the permits held add up to `MAX_THREADS`.
* `Sound` — every handler knows what its descriptors stand for.
* `permits_and_sockets` — besides, every accepted socket is closed exactly once and not touched
  afterwards, as long as no `request_send` on a new upstream socket fails.
-/

namespace OperatingSystems
namespace Proxy
namespace AcceptLoop

open Descriptors

/-- `MAX_THREADS`. -/
def maxThreads : Nat := 1000

/-! ### One connection -/

/-- The statement that is executed next for a connection. -/
inductive Pc
  -- `start_proxy_server`, behind `accept`
  | semWait
  | malloc
  | mallocPost
  | mallocClose
  | create
  | createClose
  | createPost
  -- `client_handler`
  | readHeader
  | checkMethod
  | notAllowed
  | find
  | stream
  | connect
  | buildRequest
  | requestSend
  | failClose
  | readStatus
  | readHeaders
  | redirect
  | sendHeaders
  | closeHop
  | follow
  | resend
  | readBody
  | sendBody
  | closeTarget
  | closeClient
  | semPost
  | returned
  deriving DecidableEq

/-- What the outside world answers: the loop goes on, the call succeeds, the call fails,
the call returns a descriptor. -/
inductive Outcome
  | again
  | done
  | failed
  | descriptor (fd : Nat)
  deriving DecidableEq

/-- What a statement does to the semaphore and to the descriptors. -/
inductive Effect
  | nothing
  | wait
  | post
  | useClient
  | closeClient
  | useTarget
  | closeTarget
  | opened (fd : Nat)
  deriving DecidableEq

/-- The local variables of `client_handler` that matter here. -/
structure Connection where
  pc : Pc
  clientSocket : Nat
  targetSocket : Option Nat
  clientAlive : Bool
  redirects : Nat

/-- A connection that has just been accepted. -/
def Connection.start (clientSocket : Nat) : Connection :=
  ⟨.semWait, clientSocket, none, true, 0⟩

/-- Move on to a statement. -/
def Connection.goto (c : Connection) (pc : Pc) : Connection :=
  { c with pc := pc }

/-- `if (client_alive) { if (send(...) <= 0) client_alive = 0; }`, then read on. -/
def Connection.sendOn (c : Connection) : Outcome → Option (Effect × Connection)
  | .done => some (if c.clientAlive then .useClient else .nothing, c.goto .readBody)
  | .failed =>
      if c.clientAlive then some (.useClient, { c with clientAlive := false, pc := .readBody })
      else none
  | _ => none

/-- The next statement of a connection. -/
def Connection.next (c : Connection) (o : Outcome) : Option (Effect × Connection) :=
  match c.pc, o with
  | .semWait, .done => some (.wait, c.goto .malloc)
  | .malloc, .done => some (.nothing, c.goto .create)
  | .malloc, .failed => some (.nothing, c.goto .mallocPost)
  | .mallocPost, .done => some (.post, c.goto .mallocClose)
  | .mallocClose, .done => some (.closeClient, c.goto .returned)
  | .create, .done => some (.nothing, c.goto .readHeader)
  | .create, .failed => some (.nothing, c.goto .createClose)
  | .createClose, .done => some (.closeClient, c.goto .createPost)
  | .createPost, .done => some (.post, c.goto .returned)
  -- `read_header`; no request, or one without a URL
  | .readHeader, .again => some (.useClient, c)
  | .readHeader, .done => some (.useClient, c.goto .checkMethod)
  | .readHeader, .failed => some (.useClient, c.goto .closeClient)
  | .checkMethod, .done => some (.nothing, c.goto .find)
  | .checkMethod, .failed => some (.nothing, c.goto .notAllowed)
  | .notAllowed, .done => some (.useClient, c.goto .closeClient)
  | .find, .done => some (.nothing, c.goto .stream)
  | .find, .failed => some (.nothing, c.goto .connect)
  -- the hit path: a `send` that succeeds or fails, and the two `break` statements
  | .stream, .again => some (.useClient, c)
  | .stream, .failed => some (.useClient, c.goto .closeClient)
  | .stream, .done => some (.nothing, c.goto .closeClient)
  -- the miss path: `http_connect`, `request_send` and its failure branch
  | .connect, .descriptor fd =>
      some (.opened fd, { c with targetSocket := some fd, pc := .buildRequest })
  | .connect, .failed => some (.nothing, { c with targetSocket := none, pc := .buildRequest })
  | .buildRequest, .done => some (.nothing, c.goto .requestSend)
  | .buildRequest, .failed => some (.nothing, c.goto .failClose)
  | .requestSend, .done =>
      if c.targetSocket.isSome then some (.useTarget, c.goto .readStatus) else none
  | .requestSend, .failed => some (.useTarget, c.goto .failClose)
  -- There is no `return` in the failure branch.
  | .failClose, .done => some (.closeTarget, c.goto .readStatus)
  -- the header loop
  | .readStatus, o =>
      if c.redirects < maxRedirects then
        match o with
        | .again => some (.useTarget, c)
        | .done => some (.useTarget, c.goto .readHeaders)
        | .failed => some (.useTarget, c.goto .readBody)
        | .descriptor _ => none
      else if o = .done then some (.nothing, c.goto .readBody)
      else none
  | .readHeaders, .again => some (.useTarget, c)
  | .readHeaders, .done => some (.useTarget, c.goto .redirect)
  -- no redirect, a redirect without a `Location`, and one that is followed
  | .redirect, .done => some (.nothing, c.goto .sendHeaders)
  | .redirect, .failed => some (.nothing, c.goto .readBody)
  | .redirect, .again => some (.nothing, c.goto .closeHop)
  | .sendHeaders, o => c.sendOn o
  | .closeHop, .done => some (.closeTarget, c.goto .follow)
  | .follow, .descriptor fd => some (.opened fd, { c with targetSocket := some fd, pc := .resend })
  | .follow, .failed => some (.nothing, { c with targetSocket := none, pc := .readBody })
  -- the result of `request_send` is not looked at; it may fail before its `send`
  | .resend, .done =>
      some (.useTarget, { c with redirects := c.redirects + 1, pc := .readStatus })
  | .resend, .failed =>
      some (.nothing, { c with redirects := c.redirects + 1, pc := .readStatus })
  -- the body loop
  | .readBody, .again => some (.useTarget, c)
  | .readBody, .done => some (.useTarget, c.goto .sendBody)
  | .readBody, .failed => some (.useTarget, c.goto .closeTarget)
  | .sendBody, o => c.sendOn o
  | .closeTarget, .done => some (.closeTarget, c.goto .closeClient)
  -- every way out
  | .closeClient, .done => some (.closeClient, c.goto .semPost)
  | .semPost, .done => some (.post, c.goto .returned)
  | _, _ => none

/-- The statement belongs to the accept loop. -/
def Pc.accepting : Pc → Bool
  | .semWait | .malloc | .mallocPost | .mallocClose | .create | .createClose | .createPost => true
  | _ => false

/-- The connection is past `sem_wait` and has not posted. -/
def Pc.holdsPermit : Pc → Bool
  | .semWait | .mallocClose | .returned => false
  | _ => true

/-- `close(client_socket)` is still to come. -/
def Pc.holdsClient : Pc → Bool
  | .createPost | .semPost | .returned => false
  | _ => true

/-- `close(target_socket)` is still to come. -/
def Pc.holdsTarget : Pc → Bool
  | .buildRequest | .requestSend | .failClose | .readStatus | .readHeaders | .redirect
  | .sendHeaders | .closeHop | .resend | .readBody | .sendBody | .closeTarget => true
  | _ => false

/-! ### The server -/

/-- What a descriptor number stands for. -/
inductive Owner
  | client (i : Nat)
  | upstream (i : Nat)
  | other
  deriving DecidableEq

/-- The state of the server.  `busy` is the connection that the accept loop is working
on, `accepted` the number of connections so far. -/
structure Server where
  sem : Nat
  descriptor : Nat → Option Owner
  busy : Option Nat
  accepted : Nat
  connection : Nat → Connection
  trace : List (Action Nat)

/-- What happens next: `accept` returns, or a connection goes on. -/
inductive Input
  | accept (fd : Option Nat)
  | advance (i : Nat) (o : Outcome)

namespace Server

/-- The connections that a call on a number counts for: the one whose socket the number
stands for, and the one whose socket the code means. -/
def touched (s : Server) (n : Nat) (own : List Nat) : List Nat :=
  match s.descriptor n with
  | some (.client j) => if j ∈ own then own else own ++ [j]
  | _ => own

/-- A call on a descriptor. -/
def use (s : Server) (n : Nat) (own : List Nat) : Server :=
  { s with trace := s.trace ++ (s.touched n own).map .used }

/-- `close`. -/
def close (s : Server) (n : Nat) (own : List Nat) : Server :=
  { s with
    trace := s.trace ++ (s.touched n own).map .closed
    descriptor := Function.update s.descriptor n none }

/-- The effect of a statement of connection `i`; `none` while it blocks.  A call on the
descriptor `-1` does nothing. -/
def apply (s : Server) (i : Nat) (c : Connection) : Effect → Option Server
  | .nothing => some s
  | .wait => if 0 < s.sem then some { s with sem := s.sem - 1 } else none
  | .post => some { s with sem := s.sem + 1 }
  | .useClient => some (s.use c.clientSocket [i])
  | .closeClient => some (s.close c.clientSocket [i])
  | .useTarget => some (c.targetSocket.elim s fun n => s.use n [])
  | .closeTarget => some (c.targetSocket.elim s fun n => s.close n [])
  | .opened fd =>
      if s.descriptor fd = none then
        some { s with descriptor := Function.update s.descriptor fd (some (.upstream i)) }
      else none

/-- Connection `i` has moved on. -/
def moved (s : Server) (i : Nat) (c : Connection) : Server :=
  { s with
    connection := Function.update s.connection i c
    busy := if s.busy = some i ∧ c.pc.accepting = false then none else s.busy }

/-- `accept` has returned a descriptor. -/
def admitted (s : Server) (fd : Nat) : Server :=
  { s with
    descriptor := Function.update s.descriptor fd (some (.client s.accepted))
    busy := some s.accepted
    accepted := s.accepted + 1
    connection := Function.update s.connection s.accepted (.start fd)
    trace := s.trace ++ [.opened s.accepted] }

/-- The connections that hold a permit. -/
def held (s : Server) : Finset Nat :=
  (Finset.range s.accepted).filter fun i => (s.connection i).pc.holdsPermit = true

end Server

/-- The server: the accept loop and its handlers. -/
def acceptLoop : Machine Server Input where
  step s
    | .accept none => if s.busy = none then some s else none
    | .accept (some fd) =>
        if s.busy = none ∧ s.descriptor fd = none then some (s.admitted fd) else none
    | .advance i o =>
        if i < s.accepted then
          ((s.connection i).next o).bind fun p =>
            (s.apply i (s.connection i) p.1).map fun s' => s'.moved i p.2
        else none

/-- A server that has accepted nothing yet. -/
def Starts (s : Server) : Prop :=
  s.sem = maxThreads ∧ s.busy = none ∧ s.accepted = 0 ∧ s.trace = [] ∧
    ∀ n, s.descriptor n = none ∨ s.descriptor n = some .other

/-! ### What a statement does -/

/-- What a statement does to the permit of its connection and to what it has open. -/
structure Connection.Moves (c : Connection) (e : Effect) (c' : Connection) : Prop where
  clientSocket : c'.clientSocket = c.clientSocket
  wait : e = .wait → c.pc.holdsPermit = false ∧ c'.pc.holdsPermit = true
  post : e = .post → c.pc.holdsPermit = true ∧ c'.pc.holdsPermit = false
  permit : e ≠ .wait → e ≠ .post → c'.pc.holdsPermit = c.pc.holdsPermit
  closeClient : e = .closeClient → c.pc.holdsClient = true ∧ c'.pc.holdsClient = false
  client : e ≠ .closeClient → c'.pc.holdsClient = c.pc.holdsClient
  useClient : e = .useClient → c.pc.holdsClient = true
  opened : ∀ fd, e = .opened fd → c'.targetSocket = some fd
  useTarget : e = .useTarget → c.pc.holdsTarget = true
  closeTarget : e = .closeTarget → c.pc.holdsTarget = true ∧
    (c'.pc.holdsTarget = true → c.pc = .failClose)
  target : (∀ fd, e ≠ .opened fd) → c'.pc.holdsTarget = true →
    c'.targetSocket = none ∨ (c.pc.holdsTarget = true ∧ c'.targetSocket = c.targetSocket)
  failing : c'.pc = .failClose → (c.pc = .buildRequest ∨ c.pc = .requestSend) ∧
    c'.targetSocket = c.targetSocket

/-- Move on without opening or closing anything. -/
theorem Connection.Moves.stay {c c' : Connection} {e : Effect}
    (he : e = .nothing ∨ (e = .useClient ∧ c.pc.holdsClient = true) ∨
      (e = .useTarget ∧ c.pc.holdsTarget = true))
    (hclientSocket : c'.clientSocket = c.clientSocket)
    (hpermit : c'.pc.holdsPermit = c.pc.holdsPermit)
    (hclient : c'.pc.holdsClient = c.pc.holdsClient)
    (htarget : c'.pc.holdsTarget = true →
      c'.targetSocket = none ∨ (c.pc.holdsTarget = true ∧ c'.targetSocket = c.targetSocket))
    (hfailing : c'.pc ≠ .failClose) : c.Moves e c' := by
  rcases he with rfl | ⟨rfl, hholds⟩ | ⟨rfl, hholds⟩ <;>
    exact ⟨hclientSocket, by simp, by simp, fun _ _ => hpermit, by simp, fun _ => hclient,
      by simp [*], by simp, by simp [*], by simp, fun _ => htarget, fun h => absurd h hfailing⟩

theorem Connection.moves_sendOn {c c' : Connection} {o : Outcome} {e : Effect}
    (hpc : c.pc = .sendHeaders ∨ c.pc = .sendBody) (h : c.sendOn o = some (e, c')) :
    c.Moves e c' := by
  have hheld : c.pc.holdsPermit = true ∧ c.pc.holdsClient = true ∧ c.pc.holdsTarget = true := by
    rcases hpc with hpc | hpc <;> rw [hpc] <;> exact ⟨rfl, rfl, rfl⟩
  obtain ⟨hpermit, hclient, htarget⟩ := hheld
  cases o with
  | done =>
      obtain ⟨rfl, rfl⟩ := Prod.mk.inj (Option.some.inj h)
      refine .stay ?_ rfl hpermit.symm hclient.symm (fun _ => Or.inr ⟨htarget, rfl⟩)
        (by simp [goto])
      split
      · exact Or.inr (Or.inl ⟨rfl, hclient⟩)
      · exact Or.inl rfl
  | failed =>
      simp only [sendOn] at h
      split at h
      · obtain ⟨rfl, rfl⟩ := Prod.mk.inj (Option.some.inj h)
        exact .stay (Or.inr (Or.inl ⟨rfl, hclient⟩)) rfl hpermit.symm hclient.symm
          (fun _ => Or.inr ⟨htarget, rfl⟩) (by simp)
      · simp at h
  | again => simp [sendOn] at h
  | descriptor fd => simp [sendOn] at h

/-- The header loop, as far as redirects are allowed. -/
theorem Connection.next_readStatus {c : Connection} (hpc : c.pc = .readStatus) (o : Outcome) :
    c.next o =
      if c.redirects < maxRedirects then
        match o with
        | .again => some (.useTarget, c)
        | .done => some (.useTarget, c.goto .readHeaders)
        | .failed => some (.useTarget, c.goto .readBody)
        | .descriptor _ => none
      else if o = .done then some (.nothing, c.goto .readBody)
      else none := by
  obtain ⟨pc, clientSocket, targetSocket, clientAlive, redirects⟩ := c
  cases hpc
  rfl

theorem Connection.moves_readStatus {c c' : Connection} {o : Outcome} {e : Effect}
    (hpc : c.pc = .readStatus) (h : c.next o = some (e, c')) : c.Moves e c' := by
  have hto (pc : Pc) (hnext : pc = .readStatus ∨ pc = .readHeaders ∨ pc = .readBody)
      (he : e = .nothing ∨ e = .useTarget) (hc : c' = c.goto pc) : c.Moves e c' := by
    have htarget : c.pc.holdsTarget = true := by rw [hpc]; rfl
    subst hc
    refine .stay ?_ rfl ?_ ?_ (fun _ => Or.inr ⟨htarget, rfl⟩) ?_
    · exact he.imp_right fun huse => Or.inr ⟨huse, htarget⟩
    · rw [hpc]
      rcases hnext with rfl | rfl | rfl <;> rfl
    · rw [hpc]
      rcases hnext with rfl | rfl | rfl <;> rfl
    · rcases hnext with rfl | rfl | rfl <;> simp [goto]
  rw [next_readStatus hpc] at h
  split at h
  · cases o <;> simp only [Option.some.injEq, Prod.mk.injEq, reduceCtorEq] at h
    · exact hto .readStatus (Or.inl rfl) (Or.inr h.1.symm) (by rw [← h.2, ← hpc]; rfl)
    · exact hto .readHeaders (Or.inr (Or.inl rfl)) (Or.inr h.1.symm) h.2.symm
    · exact hto .readBody (Or.inr (Or.inr rfl)) (Or.inr h.1.symm) h.2.symm
  · split at h
    · obtain ⟨rfl, rfl⟩ := Prod.mk.inj (Option.some.inj h)
      exact hto .readBody (Or.inr (Or.inr rfl)) (Or.inl rfl) rfl
    · simp at h

/-- Every statement takes and gives back what it should. -/
theorem Connection.moves_next {c c' : Connection} {o : Outcome} {e : Effect}
    (h : c.next o = some (e, c')) : c.Moves e c' := by
  obtain ⟨pc, clientSocket, targetSocket, clientAlive, redirects⟩ := c
  cases pc
  case readStatus => exact moves_readStatus rfl h
  case sendHeaders => exact moves_sendOn (Or.inl rfl) h
  case sendBody => exact moves_sendOn (Or.inr rfl) h
  all_goals cases o
  case requestSend.done =>
    obtain ⟨-, hmoves⟩ := Option.ite_none_right_eq_some.mp h
    cases hmoves
    constructor <;> simp [goto, Pc.holdsPermit, Pc.holdsClient, Pc.holdsTarget]
  -- The other statements have one effect for each outcome that they allow.
  all_goals cases h
  all_goals constructor <;> simp [goto, Pc.holdsPermit, Pc.holdsClient, Pc.holdsTarget]

/-- The failure branch is entered by a `request_send` that fails. -/
theorem Connection.failed_of_failClose {c c' : Connection} {o : Outcome} {e : Effect}
    (h : c.next o = some (e, c')) (hpc : c'.pc = .failClose) : o = .failed := by
  have hfailing := (moves_next h).failing hpc
  obtain ⟨pc, clientSocket, targetSocket, clientAlive, redirects⟩ := c
  rcases hfailing with ⟨hbuild | hsend, -⟩
  · cases hbuild
    cases o
    case failed => rfl
    all_goals cases h
    cases hpc
  · cases hsend
    cases o
    case failed => rfl
    case done =>
      obtain ⟨-, hdone⟩ := Option.ite_none_right_eq_some.mp h
      cases hdone
      cases hpc
    all_goals cases h

/-! ### Permits -/

/-- Connection `i` goes on. -/
theorem acceptLoop_advance {s s' : Server} {i : Nat} {o : Outcome}
    (h : acceptLoop.step s (.advance i o) = some s') :
    i < s.accepted ∧ ∃ e c' next, (s.connection i).next o = some (e, c') ∧
      s.apply i (s.connection i) e = some next ∧ s' = next.moved i c' := by
  simp only [acceptLoop, Option.ite_none_right_eq_some, Option.bind_eq_some_iff,
    Option.map_eq_some_iff] at h
  obtain ⟨hi, ⟨e, c'⟩, hnext, next, happly, rfl⟩ := h
  exact ⟨hi, e, c', next, hnext, happly, rfl⟩

/-- A connection is accepted. -/
theorem acceptLoop_accept {s s' : Server} {fd : Option Nat}
    (h : acceptLoop.step s (.accept fd) = some s') :
    s' = s ∨ ∃ n, fd = some n ∧ s.descriptor n = none ∧ s' = s.admitted n := by
  cases fd with
  | none =>
      simp only [acceptLoop, Option.ite_none_right_eq_some, Option.some.injEq] at h
      exact Or.inl h.2.symm
  | some n =>
      simp only [acceptLoop, Option.ite_none_right_eq_some, Option.some.injEq] at h
      exact Or.inr ⟨n, rfl, h.1.2, h.2.symm⟩

namespace Server

variable {s next : Server} {i : Nat} {c c' : Connection} {e : Effect}

/-- The effect of a statement on the semaphore, the other fields of the server aside. -/
theorem apply_sem (h : s.apply i c e = some next) :
    (next.accepted = s.accepted ∧ next.connection = s.connection) ∧
      (e = .wait → s.sem = next.sem + 1) ∧ (e = .post → next.sem = s.sem + 1) ∧
      (e ≠ .wait → e ≠ .post → next.sem = s.sem) := by
  cases e with
  | wait =>
      simp only [apply, Option.ite_none_right_eq_some, Option.some.injEq] at h
      obtain ⟨hpos, rfl⟩ := h
      exact ⟨⟨rfl, rfl⟩, fun _ => (Nat.sub_add_cancel hpos).symm, by simp, by simp⟩
  | opened fd =>
      simp only [apply, Option.ite_none_right_eq_some, Option.some.injEq] at h
      obtain ⟨-, rfl⟩ := h
      exact ⟨⟨rfl, rfl⟩, by simp, by simp, fun _ _ => rfl⟩
  | useTarget =>
      obtain rfl := Option.some.inj h
      cases c.targetSocket <;> exact ⟨⟨rfl, rfl⟩, by simp, by simp, fun _ _ => rfl⟩
  | closeTarget =>
      obtain rfl := Option.some.inj h
      cases c.targetSocket <;> exact ⟨⟨rfl, rfl⟩, by simp, by simp, fun _ _ => rfl⟩
  | post =>
      obtain rfl := Option.some.inj h
      exact ⟨⟨rfl, rfl⟩, by simp, fun _ => rfl, by simp⟩
  | nothing | useClient | closeClient =>
      obtain rfl := Option.some.inj h
      exact ⟨⟨rfl, rfl⟩, by simp, by simp, fun _ _ => rfl⟩

theorem mem_held : i ∈ s.held ↔ i < s.accepted ∧ (s.connection i).pc.holdsPermit = true := by
  simp [held]

/-- A connection that moves on takes a permit, gives one back or does neither. -/
theorem held_moved (hi : i < s.accepted) :
    (s.moved i c).held = if c.pc.holdsPermit = true then insert i s.held else s.held.erase i := by
  ext j
  rw [mem_held]
  by_cases hji : j = i
  · subst hji
    cases hheld : c.pc.holdsPermit <;> simp [moved, hi, hheld]
  · cases c.pc.holdsPermit <;> simp [moved, hji, mem_held]

/-- A new connection holds no permit. -/
theorem held_admitted (fd : Nat) : (s.admitted fd).held = s.held := by
  ext j
  rw [mem_held, mem_held]
  by_cases hj : j = s.accepted
  · subst hj
    simp [admitted, Connection.start, Pc.holdsPermit]
  · have hlt : j < s.accepted + 1 ↔ j < s.accepted := by omega
    simp [admitted, hj, hlt]

end Server

/-- In every state the semaphore and the permits held add up. -/
theorem permits {s : Server} (hs : acceptLoop.Reachable Starts s) :
    s.sem + s.held.card = maxThreads := by
  refine hs.induction (I := fun s => s.sem + s.held.card = maxThreads) ?_ ?_
  · rintro s ⟨hsem, -, haccepted, -, -⟩
    simp [Server.held, hsem, haccepted]
  · rintro s (fd | ⟨i, o⟩) s' hcount - hstep
    · rcases acceptLoop_accept hstep with rfl | ⟨n, -, -, rfl⟩
      · exact hcount
      · rw [Server.held_admitted]
        exact hcount
    obtain ⟨hi, e, c', next, hnext, happly, rfl⟩ := acceptLoop_advance hstep
    have hmoves := Connection.moves_next hnext
    obtain ⟨⟨haccepted, hconnection⟩, hwait, hpost, hother⟩ := Server.apply_sem happly
    have hsame : next.held = s.held := by
      rw [Server.held, Server.held, haccepted, hconnection]
    have hmem : i ∈ s.held ↔ (s.connection i).pc.holdsPermit = true := by
      rw [Server.mem_held]
      exact and_iff_right hi
    show next.sem + _ = _
    rw [Server.held_moved (haccepted.symm ▸ hi), hsame]
    by_cases hew : e = .wait
    · obtain ⟨hbefore, hafter⟩ := hmoves.wait hew
      have hnot : i ∉ s.held := by simp [hmem, hbefore]
      have hsem := hwait hew
      rw [if_pos hafter, Finset.card_insert_of_notMem hnot]
      omega
    by_cases hep : e = .post
    · obtain ⟨hbefore, hafter⟩ := hmoves.post hep
      have hcard := Finset.card_erase_add_one (hmem.mpr hbefore)
      have hsem := hpost hep
      rw [if_neg (by simp [hafter])]
      omega
    · rw [hother hew hep, hmoves.permit hew hep]
      split
      · next hheld => rwa [Finset.insert_eq_of_mem (hmem.mpr hheld)]
      · next hheld => rwa [Finset.erase_eq_of_notMem fun h => hheld (hmem.mp h)]

/-! ### Client sockets -/

/-- No `request_send` on the socket of a first `http_connect` fails. -/
def requestsSent (s : Server) : Input → Bool
  | .advance i .failed =>
      match (s.connection i).pc with
      | .buildRequest | .requestSend => (s.connection i).targetSocket.isNone
      | _ => true
  | _ => true

/-- Every handler knows what its descriptors stand for, and the accepted sockets were
treated as they should be so far. -/
structure Sound (s : Server) : Prop where
  client : ∀ i < s.accepted, (s.connection i).pc.holdsClient = true →
    s.descriptor (s.connection i).clientSocket = some (.client i)
  target : ∀ i < s.accepted, (s.connection i).pc.holdsTarget = true →
    ∀ n, (s.connection i).targetSocket = some n → s.descriptor n = some (.upstream i)
  failing : ∀ i < s.accepted, (s.connection i).pc = .failClose →
    (s.connection i).targetSocket = none
  closed : ∀ i < s.accepted,
    s.trace.count (.closed i) = if (s.connection i).pc.holdsClient = true then 0 else 1
  fresh : ∀ a ∈ s.trace, a.descriptor < s.accepted
  safe : NoUseAfterClose s.trace

/-- What is done to the accepted socket of a connection by one of its statements. -/
inductive Treats (i : Nat) (c c' : Connection) (trace : List (Action Nat)) :
    List (Action Nat) → Prop
  | nothing : c'.pc.holdsClient = c.pc.holdsClient → Treats i c c' trace trace
  | used : c.pc.holdsClient = true → c'.pc.holdsClient = true →
      Treats i c c' trace (trace ++ [.used i])
  | closed : c.pc.holdsClient = true → c'.pc.holdsClient = false →
      Treats i c c' trace (trace ++ [.closed i])

/-- What a statement of connection `i` does to the descriptors. -/
structure Tidy (s next : Server) (i : Nat) (c c' : Connection) : Prop where
  others : ∀ n j, j ≠ i →
    (s.descriptor n = some (.client j) ∨ s.descriptor n = some (.upstream j)) →
      next.descriptor n = s.descriptor n
  client : c'.pc.holdsClient = true → next.descriptor c.clientSocket = some (.client i)
  target : c'.pc.holdsTarget = true → ∀ n, c'.targetSocket = some n →
    next.descriptor n = some (.upstream i)
  treats : Treats i c c' s.trace next.trace

section Statement

variable {s next : Server} {i : Nat} {e : Effect} {c' : Connection}

theorem touched_client {n : Nat} (hclient : s.descriptor n = some (.client i)) :
    s.touched n [i] = [i] := by
  simp [Server.touched, hclient]

theorem touched_upstream {n : Nat} (hupstream : s.descriptor n = some (.upstream i)) :
    s.touched n [] = [] := by
  simp [Server.touched, hupstream]

/-- The rest of the descriptors when one number is written. -/
theorem Tidy.others_update {n m j : Nat} {owner : Option Owner}
    (hn : s.descriptor n = none ∨ s.descriptor n = some (.client i) ∨
      s.descriptor n = some (.upstream i)) (hj : j ≠ i)
    (hm : s.descriptor m = some (.client j) ∨ s.descriptor m = some (.upstream j)) :
    Function.update s.descriptor n owner m = s.descriptor m := by
  refine Function.update_of_ne (fun heq => ?_) _ _
  subst heq
  rcases hn with hn | hn | hn <;> rcases hm with hm | hm <;> simp_all

/-- A statement that leaves the descriptors alone. -/
theorem Sound.tidy_same (h : Sound s) (hi : i < s.accepted) (hmoves : (s.connection i).Moves e c')
    (hopened : ∀ fd, e ≠ .opened fd) (hclose : e ≠ .closeClient)
    (hdescriptor : next.descriptor = s.descriptor)
    (htreats : Treats i (s.connection i) c' s.trace next.trace) :
    Tidy s next i (s.connection i) c' := by
  refine ⟨fun _ _ _ _ => by rw [hdescriptor], fun hclient => ?_, fun htarget n hn => ?_, htreats⟩
  · rw [hdescriptor]
    exact h.client i hi (hmoves.client hclose ▸ hclient)
  · rw [hdescriptor]
    rcases hmoves.target hopened htarget with hnone | ⟨hbefore, hsame⟩
    · simp [hnone] at hn
    · exact h.target i hi hbefore n (hsame ▸ hn)

theorem Sound.tidy (h : Sound s) (hi : i < s.accepted) (hmoves : (s.connection i).Moves e c')
    (happly : s.apply i (s.connection i) e = some next) : Tidy s next i (s.connection i) c' := by
  cases e with
  | nothing =>
      obtain rfl := Option.some.inj happly
      exact h.tidy_same hi hmoves (by simp) (by simp) rfl (.nothing (hmoves.client (by simp)))
  | post =>
      obtain rfl := Option.some.inj happly
      exact h.tidy_same hi hmoves (by simp) (by simp) rfl (.nothing (hmoves.client (by simp)))
  | wait =>
      simp only [Server.apply, Option.ite_none_right_eq_some, Option.some.injEq] at happly
      obtain ⟨-, rfl⟩ := happly
      exact h.tidy_same hi hmoves (by simp) (by simp) rfl (.nothing (hmoves.client (by simp)))
  -- The effects on a socket: it is open by the invariant, and no other socket is touched.
  | useClient =>
      obtain rfl := Option.some.inj happly
      have hclient := hmoves.useClient rfl
      refine h.tidy_same hi hmoves (by simp) (by simp) rfl ?_
      simp only [Server.use, touched_client (h.client i hi hclient)]
      exact .used hclient ((hmoves.client (by simp)).trans hclient)
  | closeClient =>
      obtain rfl := Option.some.inj happly
      obtain ⟨hbefore, hafter⟩ := hmoves.closeClient rfl
      have hclient := h.client i hi hbefore
      refine ⟨fun n j hj hn => Tidy.others_update (Or.inr (Or.inl hclient)) hj hn,
        fun hholds => ?_, fun htarget n hn => ?_, ?_⟩
      · simp [hafter] at hholds
      · rcases hmoves.target (by simp) htarget with hnone | ⟨hheld, hsame⟩
        · simp [hnone] at hn
        · have hupstream := h.target i hi hheld n (hsame ▸ hn)
          -- The client's socket is not the upstream one: they are open for different peers.
          have hne : n ≠ (s.connection i).clientSocket := by
            rintro rfl
            simp [hclient] at hupstream
          exact (Function.update_of_ne hne _ _).trans hupstream
      · simp only [Server.close, touched_client hclient]
        exact .closed hbefore hafter
  | useTarget =>
      obtain rfl := Option.some.inj happly
      have hheld := hmoves.useTarget rfl
      cases htarget : (s.connection i).targetSocket with
      | none =>
          exact h.tidy_same hi hmoves (by simp) (by simp) rfl (.nothing (hmoves.client (by simp)))
      | some n =>
          refine h.tidy_same hi hmoves (by simp) (by simp) rfl ?_
          simp only [Option.elim_some, Server.use, touched_upstream (h.target i hi hheld n htarget),
            List.map_nil, List.append_nil]
          exact .nothing (hmoves.client (by simp))
  | closeTarget =>
      obtain rfl := Option.some.inj happly
      obtain ⟨hheld, hstays⟩ := hmoves.closeTarget rfl
      cases htarget : (s.connection i).targetSocket with
      | none =>
          exact h.tidy_same hi hmoves (by simp) (by simp) rfl (.nothing (hmoves.client (by simp)))
      | some n =>
          have hupstream := h.target i hi hheld n htarget
          refine ⟨fun m j hj hm => Tidy.others_update (Or.inr (Or.inr hupstream)) hj hm,
            fun hclient => ?_, fun hafter => ?_, ?_⟩
          · have hsocket := h.client i hi (hmoves.client (by simp) ▸ hclient)
            have hne : (s.connection i).clientSocket ≠ n := by
              rintro rfl
              simp [hsocket] at hupstream
            exact (Function.update_of_ne hne _ _).trans hsocket
          · -- Only the failure branch goes on with a closed socket.
            simp [h.failing i hi (hstays hafter)] at htarget
          · simp only [Option.elim_some, Server.close, touched_upstream hupstream, List.map_nil,
              List.append_nil]
            exact .nothing (hmoves.client (by simp))
  | opened fd =>
      simp only [Server.apply, Option.ite_none_right_eq_some, Option.some.injEq] at happly
      obtain ⟨hfree, rfl⟩ := happly
      refine ⟨fun m j hj hm => Tidy.others_update (Or.inl hfree) hj hm, fun hclient => ?_,
        fun _ n hn => ?_, .nothing (hmoves.client (by simp))⟩
      -- A descriptor that the system hands out was closed before, so it is not the client's.
      · have hsocket := h.client i hi (hmoves.client (by simp) ▸ hclient)
        have hne : (s.connection i).clientSocket ≠ fd := by
          rintro rfl
          simp [hsocket] at hfree
        exact (Function.update_of_ne hne _ _).trans hsocket
      · obtain rfl := Option.some.inj ((hmoves.opened fd rfl).symm.trans hn)
        exact Function.update_self ..

/-- The accepted sockets after a statement of connection `i`. -/
theorem Treats.spec {c c' : Connection} {trace trace' : List (Action Nat)}
    (h : Treats i c c' trace trace') (hclosed : trace.count (.closed i) =
      if c.pc.holdsClient = true then 0 else 1) (hsafe : NoUseAfterClose trace) :
    (trace'.count (.closed i) = if c'.pc.holdsClient = true then 0 else 1) ∧
      (∀ j ≠ i, trace'.count (.closed j) = trace.count (.closed j)) ∧
      NoUseAfterClose trace' ∧ ∀ a ∈ trace', a ∈ trace ∨ a.descriptor = i := by
  cases h with
  | nothing hsame =>
      rw [hsame]
      exact ⟨hclosed, fun _ _ => rfl, hsafe, fun _ ha => Or.inl ha⟩
  | used hbefore hafter =>
      rw [if_pos hbefore] at hclosed
      refine ⟨?_, fun j _ => by simp, hsafe.append (List.count_eq_zero.mp hclosed), fun a ha => ?_⟩
      · simp [hafter, hclosed]
      · rcases List.mem_append.mp ha with ha | ha
        · exact Or.inl ha
        · exact Or.inr (by simp_all [Action.descriptor])
  | closed hbefore hafter =>
      rw [if_pos hbefore] at hclosed
      refine ⟨?_, fun j hj => ?_, hsafe.append (List.count_eq_zero.mp hclosed), fun a ha => ?_⟩
      · simp [hafter, hclosed]
      · simp [Ne.symm hj]
      · rcases List.mem_append.mp ha with ha | ha
        · exact Or.inl ha
        · exact Or.inr (by simp_all [Action.descriptor])

/-- A connection goes on. -/
theorem Sound.advance {o : Outcome} (h : Sound s) (hok : requestsSent s (.advance i o) = true)
    (hi : i < s.accepted) (hnext : (s.connection i).next o = some (e, c'))
    (happly : s.apply i (s.connection i) e = some next) : Sound (next.moved i c') := by
  have hmoves := Connection.moves_next hnext
  obtain ⟨⟨haccepted, hconnection⟩, -⟩ := Server.apply_sem happly
  obtain ⟨hothers, hclient, htarget, htreats⟩ := h.tidy hi hmoves happly
  obtain ⟨hclosed, hcount, hsafe, hnames⟩ := htreats.spec (h.closed i hi) h.safe
  have hself : (next.moved i c').connection i = c' := Function.update_self ..
  have hother {j : Nat} (hj : j ≠ i) : (next.moved i c').connection j = s.connection j := by
    rw [← hconnection]
    exact Function.update_of_ne hj _ _
  have hlt {j : Nat} (hj : j < (next.moved i c').accepted) : j < s.accepted := haccepted ▸ hj
  refine ⟨fun j hj hholds => ?_, fun j hj hholds n hn => ?_, fun j hj hpc => ?_, fun j hj => ?_,
    fun a ha => ?_, hsafe⟩
  · by_cases hji : j = i
    · subst hji
      rw [hself] at hholds ⊢
      rw [hmoves.clientSocket]
      exact hclient hholds
    · rw [hother hji] at hholds ⊢
      have hsocket := h.client j (hlt hj) hholds
      exact (hothers _ j hji (Or.inl hsocket)).trans hsocket
  · by_cases hji : j = i
    · subst hji
      rw [hself] at hholds hn
      exact htarget hholds n hn
    · rw [hother hji] at hholds hn
      have hsocket := h.target j (hlt hj) hholds n hn
      exact (hothers _ j hji (Or.inr hsocket)).trans hsocket
  · by_cases hji : j = i
    · subst hji
      rw [hself] at hpc ⊢
      -- The request was not sent, so that there is no socket left to close.
      obtain ⟨hbefore, hsame⟩ := hmoves.failing hpc
      obtain rfl := Connection.failed_of_failClose hnext hpc
      rw [hsame]
      rcases hbefore with hbefore | hbefore <;> simpa [requestsSent, hbefore] using hok
    · rw [hother hji] at hpc ⊢
      exact h.failing j (hlt hj) hpc
  · by_cases hji : j = i
    · subst hji
      rw [hself]
      exact hclosed
    · rw [hother hji]
      exact (hcount j hji).trans (h.closed j (hlt hj))
  · show a.descriptor < next.accepted
    rw [haccepted]
    rcases hnames a ha with hold | hnew
    · exact h.fresh a hold
    · exact hnew ▸ hi

/-- A connection is accepted. -/
theorem Sound.admitted {fd : Nat} (h : Sound s) (hfree : s.descriptor fd = none) :
    Sound (s.admitted fd) := by
  have hself : (s.admitted fd).connection s.accepted = .start fd := Function.update_self ..
  have hother {j : Nat} (hj : j < s.accepted) : (s.admitted fd).connection j = s.connection j :=
    Function.update_of_ne (Nat.ne_of_lt hj) _ _
  have hkeep {n : Nat} {owner : Owner} (hn : s.descriptor n = some owner) :
      (s.admitted fd).descriptor n = some owner := by
    have hne : n ≠ fd := by
      rintro rfl
      simp [hfree] at hn
    exact (Function.update_of_ne hne _ _).trans hn
  have hcases {j : Nat} (hj : j < (s.admitted fd).accepted) : j < s.accepted ∨ j = s.accepted :=
    Nat.lt_succ_iff_lt_or_eq.mp hj
  -- The number of the connection is new, so that nothing was done to it yet.
  have hnew : Action.closed s.accepted ∉ s.trace := fun hmem =>
    absurd (h.fresh _ hmem) (Nat.lt_irrefl _)
  refine ⟨fun j hj hholds => ?_, fun j hj hholds n hn => ?_, fun j hj hpc => ?_, fun j hj => ?_,
    fun a ha => ?_, ?_⟩
  · rcases hcases hj with hlt | rfl
    · rw [hother hlt] at hholds ⊢
      exact hkeep (h.client j hlt hholds)
    · rw [hself]
      exact Function.update_self ..
  · rcases hcases hj with hlt | rfl
    · rw [hother hlt] at hholds hn
      exact hkeep (h.target j hlt hholds n hn)
    · rw [hself] at hholds
      simp [Connection.start, Pc.holdsTarget] at hholds
  · rcases hcases hj with hlt | rfl
    · rw [hother hlt] at hpc ⊢
      exact h.failing j hlt hpc
    · rw [hself]
      rfl
  · show (s.trace ++ [Action.opened s.accepted]).count _ = _
    rw [List.count_append]
    rcases hcases hj with hlt | rfl
    · rw [hother hlt, h.closed j hlt]
      simp
    · rw [hself, List.count_eq_zero.mpr hnew]
      simp [Connection.start, Pc.holdsClient]
  · show a.descriptor < s.accepted + 1
    rcases List.mem_append.mp ha with ha | ha
    · exact Nat.lt_succ_of_lt (h.fresh a ha)
    · obtain rfl := List.mem_singleton.mp ha
      exact Nat.lt_succ_self _
  · exact h.safe.append hnew

end Statement

/-- In every run in which no `request_send` on a new upstream socket fails, every
handler knows what its descriptors stand for. -/
theorem sound {s : Server}
    (hs : acceptLoop.ReachableUnder Starts (fun s a => requestsSent s a) s) : Sound s := by
  refine hs.induction (I := Sound) ?_ ?_
  · rintro s ⟨-, -, haccepted, htrace, -⟩
    have hnone {j : Nat} (hj : j < s.accepted) : False := by omega
    refine ⟨fun j hj => (hnone hj).elim, fun j hj => (hnone hj).elim,
      fun j hj => (hnone hj).elim, fun j hj => (hnone hj).elim, ?_, ?_⟩
    · simp [htrace]
    · rw [htrace]
      exact List.Pairwise.nil
  · rintro s (fd | ⟨i, o⟩) s' h hok hstep
    · rcases acceptLoop_accept hstep with rfl | ⟨n, -, hfree, rfl⟩
      · exact h
      · exact h.admitted hfree
    · obtain ⟨hi, e, c', next, hnext, happly, rfl⟩ := acceptLoop_advance hstep
      exact h.advance hok hi hnext happly

/-- In every run the semaphore and the permits held add up to `MAX_THREADS`.  In every
run in which no `request_send` on a new upstream socket fails, every accepted client
socket has been closed once if its `close` was executed and not at all before, and was
not touched after it was closed. -/
theorem permits_and_sockets {s : Server} (hs : acceptLoop.Reachable Starts s) :
    s.sem + s.held.card = maxThreads ∧
      (acceptLoop.ReachableUnder Starts (fun s a => requestsSent s a) s →
        NoUseAfterClose s.trace ∧ ∀ i < s.accepted, s.trace.count (.closed i) =
          if (s.connection i).pc.holdsClient = true then 0 else 1) :=
  ⟨permits hs, fun hsent => ⟨(sound hsent).safe, (sound hsent).closed⟩⟩

/-! ### Two runs -/

/-- A server that has only its standard descriptors and its listening socket open. -/
def idle : Server where
  sem := maxThreads
  descriptor := fun n => if n ≤ 3 then some .other else none
  busy := none
  accepted := 0
  connection := fun _ => .start 0
  trace := []

theorem starts_idle : Starts idle := by
  refine ⟨rfl, rfl, rfl, rfl, fun n => ?_⟩
  by_cases hn : n ≤ 3 <;> simp [idle, hn]

/-- A connection is accepted with this descriptor, and its handler reads a request. -/
def requested (i fd : Nat) : List Input :=
  .accept (some fd) :: [.done, .done, .done, .done, .done].map (.advance i)

/-- One connection is served through a redirect, and the number of its client socket is
handed out again. -/
theorem permits_and_sockets_redirect :
    ∃ s ∈ acceptLoop.run requestsSent idle (requested 0 4 ++
        ([.failed, .descriptor 5, .done, .done, .done, .done, .again, .done, .descriptor 5, .done,
          .done, .done, .done, .done, .failed, .done, .done, .done].map (.advance 0)) ++
        [.accept (some 4)]),
      s.sem + s.held.card = maxThreads ∧ s.trace.count (.closed 0) = 1 ∧
        s.trace.count (.closed 1) = 0 ∧ NoUseAfterClose s.trace := by
  obtain ⟨s, hrun, hs, haccepted, hreturned, hnew⟩ :=
    (Machine.ReachableUnder.start starts_idle).exists_run (fun _ _ => id)
      (fun s => s.accepted = 2 ∧ (s.connection 0).pc = .returned ∧ (s.connection 1).pc = .semWait)
      (by decide +kernel : (acceptLoop.run requestsSent idle (requested 0 4 ++
        ([.failed, .descriptor 5, .done, .done, .done, .done, .again, .done, .descriptor 5, .done,
          .done, .done, .done, .done, .failed, .done, .done, .done].map (.advance 0)) ++
        [.accept (some 4)])).any _ = true)
  obtain ⟨hpermits, hsockets⟩ := permits_and_sockets hs.reachable
  obtain ⟨hsafe, hclosed⟩ := hsockets hs
  refine ⟨s, hrun, hpermits, ?_, ?_, hsafe⟩
  · simpa [hreturned, Pc.holdsClient] using hclosed 0 (by omega)
  · simpa [hnew, Pc.holdsClient] using hclosed 1 (by omega)

/-- The first connection closes its upstream socket in the failure branch, the second
one is accepted with the same number, and the first one closes it again. -/
theorem closed_twice :
    ∃ s ∈ acceptLoop.run (fun _ _ => true) idle (requested 0 4 ++
        ([.failed, .descriptor 5, .done, .failed, .done].map (.advance 0)) ++ requested 1 5 ++
        ([.failed, .failed, .done].map (.advance 0)) ++
        [.advance 1 .done, .advance 1 .failed, .advance 1 .done]),
      acceptLoop.Reachable Starts s ∧ s.trace.count (.closed 1) = 2 ∧
        ¬ NoUseAfterClose s.trace := by
  refine (Machine.ReachableUnder.start starts_idle).exists_run (fun _ _ _ => trivial)
    (fun s => s.trace.count (.closed 1) = 2 ∧ ¬ NoUseAfterClose s.trace) ?_
  decide +kernel

end AcceptLoop
end Proxy
end OperatingSystems
