import OperatingSystems.Proxy.Fetch

/-!
# Redirect chains

`trail` follows the `Location` values of the upstream responses, without any of
the state of `client_handler`, and `Loader.headerLoop` is described by where the
trail ends:

* `headerLoop_answered` — at a response which is no redirect, within
  `MAX_REDIRECTS` rounds: its header block is handed on, and only the
  `buffer_size` still depends on the responses before it.
* `headerLoop_abandoned` — anywhere else: nothing is handed on or cached.
* `fetch_answered`, `finalOk_fetch_iff`, `fetch_needToCache_iff` — the same for the whole
  miss path.
-/

namespace OperatingSystems
namespace Proxy

/-! ### The trail of a request -/

/-- What the upstream socket delivers after the `k`-th `http_connect` of a run,
made for `request`.  A failed `request_send` closes the first connection; on the
later ones its result is ignored. -/
def streamAt (env : Env) : Nat → Request → List Byte
  | 0, request => if Connected env request then (env.hop 0).response.bytes else []
  | k + 1, request =>
      if (hostPort request).isSome && (env.hop (k + 1)).reachable then
        (env.hop (k + 1)).response.bytes
      else []

/-- Where a chain of redirects ends: how many connections were made before the
last one, the request it was made for, and the header lines of all responses
that were followed. -/
structure Trail where
  hops : Nat
  request : Request
  lines : List (List Byte)

/-- Follow at most `n` redirects from the response of the `k`-th connection. -/
def trail (env : Env) : Nat → Nat → Request → Trail
  | 0, k, request => ⟨k, request, []⟩
  | n + 1, k, request =>
      match locationOf (streamAt env k request) with
      | none => ⟨k, request, []⟩
      | some location =>
          let rest := trail env n (k + 1) (updateRequestFromLocation request location)
          { rest with lines := fieldLines (streamAt env k request) ++ rest.lines }

/-- The response at the end of a trail. -/
def Trail.stream (env : Env) (t : Trail) : List Byte :=
  streamAt env t.hops t.request

/-- The trail ends at a response which the header loop forwards: one that is
there, is no redirect, and comes before `limit` connections are used up. -/
def Trail.Answered (env : Env) (limit : Nat) (t : Trail) : Prop :=
  t.hops < limit ∧ t.stream env ≠ [] ∧ isRedirect (statusOf (t.stream env)) = false

instance (env : Env) (limit : Nat) (t : Trail) : Decidable (t.Answered env limit) :=
  inferInstanceAs (Decidable (_ ∧ _ ∧ _))

theorem trail_of_locationOf_none {env : Env} {k : Nat} {request : Request}
    (h : locationOf (streamAt env k request) = none) (n : Nat) :
    trail env n k request = ⟨k, request, []⟩ := by
  cases n with
  | zero => rfl
  | succ n => simp [trail, h]

/-- Only redirect responses have a `Location` that is looked at. -/
theorem locationOf_eq_none_of_not_isRedirect {stream : List Byte}
    (h : isRedirect (statusOf stream) = false) : locationOf stream = none := by
  have hline : ∀ line, locationLine (statusOf stream) line = none := by
    intro line
    simp [locationLine, h]
  simp [locationOf, lastSet, hline]

@[simp] theorem isRedirect_statusOf_nil : isRedirect (statusOf []) = false := by
  decide

/-- A redirect response is not empty. -/
theorem ne_nil_of_isRedirect {stream : List Byte} (h : isRedirect (statusOf stream) = true) :
    stream ≠ [] := by
  rintro rfl
  simp at h

/-- A trail without a stream at its start ends there. -/
theorem trail_of_stream_nil {env : Env} {k : Nat} {request : Request}
    (h : streamAt env k request = []) (n : Nat) :
    trail env n k request = ⟨k, request, []⟩ := by
  refine trail_of_locationOf_none ?_ n
  rw [h]
  exact locationOf_eq_none_of_not_isRedirect isRedirect_statusOf_nil

/-- The trail of a whole run. -/
def finalTrail (env : Env) (request : Request) : Trail :=
  trail env maxRedirects 0 request

/-- The `buffer_size` that the followed responses leave behind. -/
def Trail.carriedBuffer (t : Trail) : Int :=
  (lastSet contentLengthLine t.lines).getD bufferSize

/-- `buffer_size` in the body loop: the last `Content-Length` of the response,
otherwise the last one of the responses before it. -/
def Trail.bodyBuffer (env : Env) (t : Trail) : Int :=
  (declaredBuffer (t.stream env)).getD t.carriedBuffer

/-- The part of the response that the body loop reads. -/
def Trail.body (env : Env) (t : Trail) : List Byte :=
  if 0 < t.bodyBuffer env then bodyOf (t.stream env) else []

namespace Loader

variable {env : Env} {l : Loader} {location : List Byte} {k : Nat}

/-! ### One followed redirect -/

@[simp] theorem readResponse_request : l.readResponse.request = l.request := rfl

@[simp] theorem readResponse_attempts : l.readResponse.attempts = l.attempts := rfl

@[simp] theorem readResponse_clientAlive : l.readResponse.clientAlive = l.clientAlive := rfl

@[simp] theorem finalStatus_readResponse :
    finalStatus l.readResponse.log = some (statusOf l.conn.bytes) := by
  simp [readResponse_log, finalStatus]

@[simp] theorem handed_readResponse : handed l.readResponse.log = handed l.log := by
  simp [readResponse_log, handed]

@[simp] theorem listAdds_readResponse : listAdds l.readResponse.log = listAdds l.log := by
  simp [readResponse_log, listAdds]

/-- The next peer of a followed redirect is reached. -/
def nextReached (env : Env) (l : Loader) (location : List Byte) : Bool :=
  (hostPort (updateRequestFromLocation l.request location)).isSome &&
    (env.hop l.attempts).reachable

theorem follow_of_reached (h : l.nextReached env location = true) :
    l.readResponse.follow env location =
      { l.readResponse with
        request := updateRequestFromLocation l.request location
        targetSocket := some l.attempts
        conn := (env.hop l.attempts).response
        attempts := l.attempts + 1
        log := l.readResponse.log ++ [.close l.targetSocket] ++ [.connect l.attempts] } :=
  if_pos h

theorem follow_of_not_reached (h : l.nextReached env location = false) :
    l.readResponse.follow env location =
      { l.readResponse with
        request := updateRequestFromLocation l.request location
        targetSocket := none
        conn := .closed
        attempts := l.attempts + 1
        log := l.readResponse.log ++ [.close l.targetSocket] } :=
  if_neg (Bool.not_eq_true _ ▸ h)

theorem follow_targetSocket_eq_none_iff :
    (l.readResponse.follow env location).targetSocket = none ↔
      l.nextReached env location = false := by
  cases h : l.nextReached env location with
  | true => simp [follow_of_reached h]
  | false => simp [follow_of_not_reached h]

/-- A redirect to a peer that is not reached only reads and closes. -/
theorem follow_of_targetSocket_eq_none
    (h : (l.readResponse.follow env location).targetSocket = none) :
    (l.readResponse.follow env location).request = updateRequestFromLocation l.request location ∧
      (l.readResponse.follow env location).needToCache =
        cacheAllowed (statusOf l.conn.bytes) ∧
      finalStatus (l.readResponse.follow env location).log = some (statusOf l.conn.bytes) ∧
      handed (l.readResponse.follow env location).log = handed l.log ∧
      listAdds (l.readResponse.follow env location).log = listAdds l.log := by
  rw [follow_of_not_reached (follow_targetSocket_eq_none_iff.mp h)]
  refine ⟨rfl, readResponse_needToCache, ?_, ?_, ?_⟩
  · exact (finalStatus_append_quiet _ rfl).trans finalStatus_readResponse
  · simp [handed, readResponse_log]
  · simp [listAdds, readResponse_log]

/-- Reading no status line leaves everything that is looked at later. -/
theorem readStatusLine_quiet :
    finalStatus l.readStatusLine.2.log = finalStatus l.log ∧
      handed l.readStatusLine.2.log = handed l.log ∧
      listAdds l.readStatusLine.2.log = listAdds l.log := by
  refine ⟨finalStatus_append_quiet _ rfl, ?_, ?_⟩
  · simp [readStatusLine, handed]
  · simp [readStatusLine, listAdds]

/-- What a round of the header loop starts from: the response of the `k`-th
connection, with no status line read from it yet. -/
structure StartsAt (env : Env) (k : Nat) (l : Loader) : Prop where
  bytes : l.conn.bytes = streamAt env k l.request
  attempts : l.attempts = k + 1
  status : finalStatus l.log = none

/-- What a followed redirect leaves alone, and what the round after it starts
from. -/
structure FollowedTo (l : Loader) (location : List Byte) (next : Loader) : Prop where
  request : next.request = updateRequestFromLocation l.request location
  bufferSize : next.bufferSize = (declaredBuffer l.conn.bytes).getD l.bufferSize
  needToCache : next.needToCache = false
  clientAlive : next.clientAlive = l.clientAlive
  handed : handed next.log = handed l.log
  listAdds : listAdds next.log = listAdds l.log

theorem requestSend_fields (l : Loader) :
    ∃ log, l.requestSend = { l with log := log } ∧ finalStatus log = finalStatus l.log ∧
      Proxy.handed log = Proxy.handed l.log ∧ Proxy.listAdds log = Proxy.listAdds l.log := by
  unfold requestSend
  cases buildRequest l.request with
  | none => exact ⟨l.log, rfl, rfl, rfl, rfl⟩
  | some text =>
      refine ⟨_, rfl, finalStatus_append_quiet _ rfl, ?_, ?_⟩
      · simp [Proxy.handed]
      · simp [Proxy.listAdds]

theorem nextHop_spec (hstart : l.StartsAt env k)
    (hredirect : isRedirect (statusOf l.conn.bytes) = true)
    (htarget : (l.readResponse.follow env location).targetSocket ≠ none) :
    (l.nextHop env location).StartsAt env (k + 1) ∧
      l.FollowedTo location (l.nextHop env location) := by
  have hreached : l.nextReached env location = true := by
    rw [Ne, follow_targetSocket_eq_none_iff, Bool.not_eq_false] at htarget
    exact htarget
  obtain ⟨log, hsend, hstatus, hhanded, hadds⟩ :=
    (l.readResponse.follow env location).requestSend_fields
  have hnext : l.nextHop env location =
      { (l.readResponse.follow env location) with
        log := log
        redirects := (l.readResponse.follow env location).redirects + 1 } := by
    rw [nextHop, hsend]
  rw [follow_of_reached hreached] at hstatus hhanded hadds hnext
  rw [nextReached, hstart.attempts] at hreached
  rw [hnext]
  refine ⟨⟨?_, ?_, ?_⟩, ⟨rfl, readResponse_bufferSize, ?_, rfl, ?_, ?_⟩⟩
  · simp only [streamAt, hreached, if_true, hstart.attempts]
  · exact congrArg (· + 1) hstart.attempts
  · exact hstatus.trans (finalStatus_append_connect _ _)
  · exact readResponse_needToCache.trans (cacheAllowed_of_isRedirect hredirect)
  · rw [hhanded]
    simp [Proxy.handed, readResponse_log]
  · rw [hadds]
    simp [Proxy.listAdds, readResponse_log]

/-- The trail goes on where a round of the header loop goes on. -/
theorem trail_of_locationOf (hstart : l.StartsAt env k)
    (hlocation : locationOf l.conn.bytes = some location) (n : Nat) :
    trail env (n + 1) k l.request =
      let rest := trail env n (k + 1) (updateRequestFromLocation l.request location)
      { rest with lines := fieldLines l.conn.bytes ++ rest.lines } := by
  rw [hstart.bytes] at hlocation ⊢
  simp [trail, hlocation]

/-- A redirect to a peer that is not reached ends the trail. -/
theorem trail_of_not_reached (hstart : l.StartsAt env k)
    (htarget : (l.readResponse.follow env location).targetSocket = none) (n : Nat) :
    trail env n (k + 1) (updateRequestFromLocation l.request location) =
        ⟨k + 1, updateRequestFromLocation l.request location, []⟩ ∧
      streamAt env (k + 1) (updateRequestFromLocation l.request location) = [] := by
  rw [follow_targetSocket_eq_none_iff, nextReached, hstart.attempts] at htarget
  have hnil : streamAt env (k + 1) (updateRequestFromLocation l.request location) = [] := by
    simp [streamAt, htarget]
  exact ⟨trail_of_stream_nil hnil n, hnil⟩

/-! ### The header loop, by its trail -/

/-- The header loop forwarded the response at the end of the trail. -/
structure Delivered (env : Env) (l : Loader) (t : Trail) (r : Loader × Option (List Byte)) :
    Prop where
  block : r.2 =
    if cacheAllowed (statusOf (t.stream env)) then some (headerBlock (t.stream env)) else none
  rest : r.1.conn.bytes = bodyOf (t.stream env)
  bufferSize : r.1.bufferSize =
    (declaredBuffer (t.stream env)).getD ((lastSet contentLengthLine t.lines).getD l.bufferSize)
  needToCache : r.1.needToCache = cacheAllowed (statusOf (t.stream env))
  status : finalStatus r.1.log = some (statusOf (t.stream env))
  clientAlive : (∀ k, 0 < env.reply k) → r.1.clientAlive = l.clientAlive
  handed : handed r.1.log =
    handed l.log ++ if l.clientAlive then [headerBlock (t.stream env)] else []
  listAdds : listAdds r.1.log = listAdds l.log

theorem headerLoop_answered {n : Nat} (hstart : l.StartsAt env k)
    (h : (trail env n k l.request).Answered env (k + n)) :
    Delivered env l (trail env n k l.request) (l.headerLoop env n) := by
  refine headerLoop_induction env
    (motive := fun n l r => ∀ k, l.StartsAt env k →
      (trail env n k l.request).Answered env (k + n) →
        Delivered env l (trail env n k l.request) r)
    ?_ ?_ ?_ ?_ ?_ ?_ n l k hstart h
  · rintro l k - ⟨hhops, -⟩
    exact absurd hhops (Nat.lt_irrefl k)
  -- A peer that answers nothing is not one that answered.
  · rintro n l hempty k hstart ⟨-, hstream, -⟩
    rw [hstart.bytes] at hempty
    rw [trail_of_stream_nil hempty] at hstream
    exact absurd hempty hstream
  -- The last response: its header block is handed over.
  · rintro n l - hfinal k hstart -
    rw [hstart.bytes] at hfinal
    rw [trail_of_locationOf_none (locationOf_eq_none_of_not_isRedirect hfinal), hstart.bytes]
    have hstream : (⟨k, l.request, []⟩ : Trail).stream env = l.conn.bytes := hstart.bytes.symm
    refine ⟨?_, ?_, ?_, ?_, ?_, ?_, ?_, ?_⟩ <;> simp only [hstream, ← hstart.bytes]
    · simp
    · simp [lastSet]
    · simp
    · simp
    · intro hreply
      simp [send_clientAlive hreply]
    · rw [handed_send, handed_readResponse]
      rfl
    · simp
  -- A redirect without a `Location`, or to a place that is not reached, ends without a final one.
  · rintro n l hredirect hlocation k hstart ⟨-, -, hfinal⟩
    rw [hstart.bytes] at hredirect hlocation
    rw [trail_of_locationOf_none hlocation] at hfinal
    exact absurd (hfinal.symm.trans hredirect) Bool.false_ne_true
  · rintro n l location - hlocation htarget k hstart ⟨-, hstream, -⟩
    obtain ⟨htrail, hnil⟩ := trail_of_not_reached hstart htarget n
    rw [trail_of_locationOf hstart hlocation, htrail] at hstream
    exact absurd hnil hstream
  · rintro n l location r hredirect hlocation htarget ih k hstart h
    -- The next hop; its lines come behind those read so far.
    obtain ⟨hnext, hto⟩ := nextHop_spec hstart hredirect htarget
    rw [trail_of_locationOf hstart hlocation] at h ⊢
    have hk : k + (n + 1) = k + 1 + n := by omega
    have hr := ih (k + 1) hnext (by rw [hto.request, ← hk]; exact h)
    rw [hto.request] at hr
    refine ⟨hr.block, hr.rest, ?_, hr.needToCache, hr.status, ?_, ?_, ?_⟩
    · rw [hr.bufferSize, hto.bufferSize, lastSet_append, declaredBuffer, declaredBuffer]
      cases lastSet contentLengthLine (trail env n (k + 1) _).lines <;> rfl
    · exact fun hreply => (hr.clientAlive hreply).trans hto.clientAlive
    · rw [hr.handed, hto.handed, hto.clientAlive]
      rfl
    · rw [hr.listAdds, hto.listAdds]

/-- The header loop gave up before it had a response to forward. -/
structure Abandoned (l : Loader) (r : Loader × Option (List Byte)) : Prop where
  block : r.2 = none
  notOk : ¬ FinalOk r.1.log
  handed : handed r.1.log = handed l.log
  listAdds : listAdds r.1.log = listAdds l.log

theorem headerLoop_abandoned {n : Nat} (hstart : l.StartsAt env k)
    (h : ¬ (trail env n k l.request).Answered env (k + n)) :
    Abandoned l (l.headerLoop env n) := by
  refine headerLoop_induction env
    (motive := fun n l r => ∀ k, l.StartsAt env k →
      ¬ (trail env n k l.request).Answered env (k + n) → Abandoned l r)
    ?_ ?_ ?_ ?_ ?_ ?_ n l k hstart h
  · intro l k hstart _
    exact ⟨rfl, by simp [FinalOk, hstart.status], rfl, rfl⟩
  · intro n l _ k hstart _
    obtain ⟨hstatus, hhanded, hadds⟩ := l.readStatusLine_quiet
    exact ⟨rfl, by simp [FinalOk, hstatus, hstart.status], hhanded, hadds⟩
  · intro n l hne hfinal k hstart h
    rw [hstart.bytes] at hne hfinal
    rw [trail_of_locationOf_none (locationOf_eq_none_of_not_isRedirect hfinal)] at h
    exact absurd ⟨by simp, hne, hfinal⟩ h
  · intro n l hredirect _ k _ _
    refine ⟨rfl, ?_, handed_readResponse, listAdds_readResponse⟩
    simp [FinalOk, cacheAllowed_of_isRedirect hredirect]
  · intro n l location hredirect _ htarget k _ _
    obtain ⟨-, -, hstatus, hhanded, hadds⟩ := follow_of_targetSocket_eq_none htarget
    refine ⟨rfl, ?_, hhanded, hadds⟩
    simp [FinalOk, hstatus, cacheAllowed_of_isRedirect hredirect]
  · intro n l location r hredirect hlocation htarget ih k hstart h
    obtain ⟨hnext, hto⟩ := nextHop_spec hstart hredirect htarget
    rw [trail_of_locationOf hstart hlocation] at h
    have hk : k + (n + 1) = k + 1 + n := by omega
    have hr := ih (k + 1) hnext (by rw [hto.request, ← hk]; exact h)
    exact ⟨hr.block, hr.notOk, hr.handed.trans hto.handed, hr.listAdds.trans hto.listAdds⟩

/-- The request of the loader is the request at the end of the trail. -/
theorem headerLoop_request {n : Nat} (hstart : l.StartsAt env k) :
    (l.headerLoop env n).1.request = (trail env n k l.request).request := by
  refine headerLoop_induction env
    (motive := fun n l r => ∀ k, l.StartsAt env k →
      r.1.request = (trail env n k l.request).request)
    ?_ ?_ ?_ ?_ ?_ ?_ n l k hstart
  · intro l k _
    rfl
  · intro n l hempty k hstart
    rw [hstart.bytes] at hempty
    rw [trail_of_stream_nil hempty]
    rfl
  · intro n l _ hfinal k hstart
    rw [hstart.bytes] at hfinal
    rw [trail_of_locationOf_none (locationOf_eq_none_of_not_isRedirect hfinal)]
    simp
  · intro n l _ hlocation k hstart
    rw [hstart.bytes] at hlocation
    rw [trail_of_locationOf_none hlocation]
    rfl
  · intro n l location _ hlocation htarget k hstart
    rw [trail_of_locationOf hstart hlocation, (trail_of_not_reached hstart htarget n).1]
    exact (follow_of_targetSocket_eq_none htarget).1
  · intro n l location r hredirect hlocation htarget ih k hstart
    obtain ⟨hnext, hto⟩ := nextHop_spec hstart hredirect htarget
    rw [trail_of_locationOf hstart hlocation, ih (k + 1) hnext, hto.request]

/-- `need_to_cache` after the header loop: the final response is cached, or no
status line was read and the flag kept its first value. -/
theorem headerLoop_needToCache {n : Nat} (hstart : l.StartsAt env k) :
    (l.headerLoop env n).1.needToCache = true ↔
      FinalOk (l.headerLoop env n).1.log ∨
        l.needToCache = true ∧ (n = 0 ∨ l.conn.bytes = []) := by
  refine headerLoop_induction env
    (motive := fun n l r => ∀ k, l.StartsAt env k →
      (r.1.needToCache = true ↔
        FinalOk r.1.log ∨ l.needToCache = true ∧ (n = 0 ∨ l.conn.bytes = [])))
    ?_ ?_ ?_ ?_ ?_ ?_ n l k hstart
  · intro l k hstart
    simp [FinalOk, hstart.status]
  · intro n l hempty k hstart
    simp only [FinalOk, l.readStatusLine_quiet.1, hstart.status, hempty, or_true, and_true]
    simp [readStatusLine]
  · intro n l hne hfinal k hstart
    simp [FinalOk, hne]
  · intro n l hredirect _ k hstart
    have hne := ne_nil_of_isRedirect hredirect
    simp [FinalOk, hne]
  · intro n l location hredirect _ htarget k hstart
    have hne := ne_nil_of_isRedirect hredirect
    obtain ⟨-, hneed, hstatus, -⟩ := follow_of_targetSocket_eq_none htarget
    simp [FinalOk, hneed, hstatus, hne]
  · intro n l location r hredirect hlocation htarget ih k hstart
    have hne := ne_nil_of_isRedirect hredirect
    obtain ⟨hnext, hto⟩ := nextHop_spec hstart hredirect htarget
    rw [ih (k + 1) hnext, hto.needToCache]
    simp [hne]

/-! ### The whole miss path, by its trail -/

section Fetch

variable {request : Request}

/-- The connection phase only makes a connection, or fails to. -/
theorem connectPhase_fields (env : Env) (request : Request) :
    ∃ target conn log, connectPhase env request =
        { start request with targetSocket := target, conn := conn, attempts := 1, log := log } ∧
      Proxy.handed log = [] ∧ Proxy.listAdds log = [] := by
  by_cases hconnected : Connected env request
  · obtain ⟨text, heq⟩ := connectPhase_connected hconnected
    exact ⟨_, _, _, heq, rfl, rfl⟩
  · obtain ⟨target, log, heq, -, hhanded, hadds⟩ := connectPhase_failed hconnected
    exact ⟨target, .closed, log, heq, hhanded, hadds⟩

@[simp] theorem connectPhase_request : (connectPhase env request).request = request := by
  obtain ⟨_, _, _, heq, -⟩ := connectPhase_fields env request
  rw [heq]
  rfl

@[simp] theorem connectPhase_needToCache : (connectPhase env request).needToCache = true := by
  obtain ⟨_, _, _, heq, -⟩ := connectPhase_fields env request
  rw [heq]
  rfl

@[simp] theorem connectPhase_clientAlive : (connectPhase env request).clientAlive = true := by
  obtain ⟨_, _, _, heq, -⟩ := connectPhase_fields env request
  rw [heq]
  rfl

@[simp] theorem connectPhase_bufferSize :
    (connectPhase env request).bufferSize = Proxy.bufferSize := by
  obtain ⟨_, _, _, heq, -⟩ := connectPhase_fields env request
  rw [heq]
  rfl

@[simp] theorem handed_connectPhase : Proxy.handed (connectPhase env request).log = [] := by
  obtain ⟨_, _, log, heq, hhanded, -⟩ := connectPhase_fields env request
  rw [heq]
  exact hhanded

@[simp] theorem listAdds_connectPhase : Proxy.listAdds (connectPhase env request).log = [] := by
  obtain ⟨_, _, log, heq, -, hadds⟩ := connectPhase_fields env request
  rw [heq]
  exact hadds

/-- The connection phase leaves the header loop at the start of the trail. -/
theorem connectPhase_startsAt (env : Env) (request : Request) :
    (connectPhase env request).StartsAt env 0 := by
  by_cases hconnected : Connected env request
  · obtain ⟨text, heq⟩ := connectPhase_connected hconnected
    rw [heq]
    exact ⟨(if_pos hconnected).symm, rfl, rfl⟩
  · obtain ⟨target, log, heq, hstatus, -⟩ := connectPhase_failed hconnected
    rw [heq]
    exact ⟨(if_neg hconnected).symm, rfl, hstatus⟩

/-- What the connection phase and the header loop leave for the body loop. -/
def headPhase (env : Env) (request : Request) : Loader :=
  addHeaders ((connectPhase env request).headerLoop env maxRedirects)

theorem fetch_eq (env : Env) (request : Request) :
    fetch env request =
      (((headPhase env request).bodyLoop env ((headPhase env request).conn.bytes.length + 1)
        ).closeTarget).emit .complete := by
  rw [fetch, headPhase]

theorem addHeaders_request (r : Loader × Option (List Byte)) :
    (addHeaders r).request = r.1.request := by
  obtain ⟨l, _ | headers⟩ := r <;> rfl

theorem addHeaders_needToCache (r : Loader × Option (List Byte)) :
    (addHeaders r).needToCache = r.1.needToCache := by
  obtain ⟨l, _ | headers⟩ := r <;> rfl

theorem finalStatus_addHeaders (r : Loader × Option (List Byte)) :
    finalStatus (addHeaders r).log = finalStatus r.1.log := by
  obtain ⟨l, _ | headers⟩ := r
  · rfl
  · exact finalStatus_append_quiet _ rfl

/-- The end of the miss path only closes the socket and sets `complete`. -/
theorem fetch_fields (env : Env) (request : Request) :
    let body := (headPhase env request).bodyLoop env
      ((headPhase env request).conn.bytes.length + 1)
    (fetch env request).needToCache = (headPhase env request).needToCache ∧
      (fetch env request).request = (headPhase env request).request ∧
      finalStatus (fetch env request).log = finalStatus (headPhase env request).log ∧
      Proxy.handed (fetch env request).log = Proxy.handed body.log ∧
      Proxy.listAdds (fetch env request).log = Proxy.listAdds body.log := by
  intro body
  obtain ⟨hneed, hrequest, hstatus⟩ := bodyLoop_keeps env (headPhase env request)
    ((headPhase env request).conn.bytes.length + 1)
  rw [fetch_eq]
  refine ⟨hneed, hrequest, ?_, ?_, ?_⟩
  · refine Eq.trans ?_ hstatus
    exact (finalStatus_append_quiet _ rfl).trans (finalStatus_append_quiet _ rfl)
  · simp [emit, closeTarget, Proxy.handed, body]
  · simp [emit, closeTarget, Proxy.listAdds, body]

/-- The state before the body loop of a run that ends at a response. -/
structure HeadAnswered (env : Env) (t : Trail) (l : Loader) : Prop where
  rest : l.conn.bytes = bodyOf (t.stream env)
  bufferSize : l.bufferSize = t.bodyBuffer env
  needToCache : l.needToCache = cacheAllowed (statusOf (t.stream env))
  status : finalStatus l.log = some (statusOf (t.stream env))
  clientAlive : (∀ k, 0 < env.reply k) → l.clientAlive = true
  handed : handed l.log = [headerBlock (t.stream env)]
  listAdds : listAdds l.log =
    if cacheAllowed (statusOf (t.stream env)) then [headerBlock (t.stream env)] else []

theorem headPhase_answered (h : (finalTrail env request).Answered env maxRedirects) :
    HeadAnswered env (finalTrail env request) (headPhase env request) := by
  have hr := headerLoop_answered (n := maxRedirects) (connectPhase_startsAt env request)
    (by rw [connectPhase_request, Nat.zero_add]; exact h)
  rw [connectPhase_request] at hr
  rw [headPhase]
  generalize (connectPhase env request).headerLoop env maxRedirects = r at hr ⊢
  obtain ⟨l, block⟩ := r
  obtain ⟨hblock, hrest, hbuffer, hneed, hstatus, hclient, hsent, hlist⟩ := hr
  simp only [connectPhase_bufferSize, connectPhase_clientAlive, handed_connectPhase,
    listAdds_connectPhase] at hblock hrest hbuffer hneed hstatus hclient hsent hlist
  show HeadAnswered env (trail env maxRedirects 0 request) _
  cases hallowed : cacheAllowed (statusOf ((trail env maxRedirects 0 request).stream env)) with
  | false =>
      rw [hallowed] at hblock
      obtain rfl : block = none := by simpa using hblock
      exact ⟨hrest, hbuffer, hneed, hstatus, hclient, by simpa [addHeaders] using hsent,
        by simpa [addHeaders, hallowed] using hlist⟩
  | true =>
      rw [hallowed] at hblock
      obtain rfl : block = some _ := by simpa using hblock
      refine ⟨hrest, hbuffer, hneed, (finalStatus_append_quiet _ rfl).trans hstatus, hclient,
        ?_, ?_⟩
      · simp only [addHeaders, emit, handed_append, hsent]
        rfl
      · simp only [addHeaders, emit, listAdds_append, hlist, hallowed]
        rfl

/-- The whole of what a run does that ends at a response. -/
structure FetchAnswered (env : Env) (t : Trail) (l : Loader) : Prop where
  needToCache : l.needToCache = cacheAllowed (statusOf (t.stream env))
  status : finalStatus l.log = some (statusOf (t.stream env))
  handed : (∀ k, 0 < env.reply k) →
    (handed l.log).flatten = headerBlock (t.stream env) ++ t.body env
  listAdds : (listAdds l.log).flatten =
    if cacheAllowed (statusOf (t.stream env)) then headerBlock (t.stream env) ++ t.body env else []

theorem fetch_answered (h : (finalTrail env request).Answered env maxRedirects) :
    FetchAnswered env (finalTrail env request) (fetch env request) := by
  obtain ⟨hrest, hbuffer, hneed, hstatus, hclient, hhanded, hadds⟩ := headPhase_answered h
  obtain ⟨hneed', -, hstatus', hhanded', hadds'⟩ := fetch_fields env request
  refine ⟨hneed'.trans hneed, hstatus'.trans hstatus, fun hreply => ?_, ?_⟩
  · rw [hhanded', Trail.body, ← hbuffer, ← hrest]
    by_cases hsize : 0 < (headPhase env request).bufferSize
    · rw [bodyLoop_handed hreply (hclient hreply) hsize (Nat.lt_succ_self _), hhanded, if_pos hsize]
      simp
    · rw [bodyLoop_of_nonpos (by omega), handed_readBody, hhanded, if_neg hsize]
      simp
  · rw [hadds', Trail.body, ← hbuffer, ← hrest]
    cases hallowed : cacheAllowed (statusOf ((finalTrail env request).stream env)) with
    | false =>
        rw [hallowed] at hneed hadds
        rw [bodyLoop_listAdds_of_not_need hneed, hadds]
        rfl
    | true =>
        rw [hallowed] at hneed hadds
        by_cases hsize : 0 < (headPhase env request).bufferSize
        · rw [bodyLoop_listAdds hneed hsize (Nat.lt_succ_self _), hadds, if_pos hsize]
          simp
        · rw [bodyLoop_of_nonpos (by omega), listAdds_readBody, hadds, if_neg hsize]
          simp

/-- A run is answered with a `2xx` status exactly when its trail ends at such a
response. -/
theorem finalOk_fetch_iff :
    FinalOk (fetch env request).log ↔
      (finalTrail env request).Answered env maxRedirects ∧
        cacheAllowed (statusOf ((finalTrail env request).stream env)) = true := by
  by_cases h : (finalTrail env request).Answered env maxRedirects
  · simp [FinalOk, (fetch_answered h).status, h]
  · have hr := headerLoop_abandoned (n := maxRedirects) (connectPhase_startsAt env request)
      (by rw [connectPhase_request, Nat.zero_add]; exact h)
    obtain ⟨-, -, hstatus, -⟩ := fetch_fields env request
    have hnotOk := hr.notOk
    rw [FinalOk, ← finalStatus_addHeaders, ← headPhase, ← hstatus] at hnotOk
    exact ⟨fun hok => absurd hok hnotOk, fun hok => absurd hok.1 h⟩

/-- The request after the fetch is the request at the end of the trail. -/
theorem fetch_request : (fetch env request).request = (finalTrail env request).request := by
  have hloop := headerLoop_request (n := maxRedirects) (connectPhase_startsAt env request)
  rw [connectPhase_request] at hloop
  rw [(fetch_fields env request).2.1, headPhase, addHeaders_request]
  exact hloop

/-- `need_to_cache` after the fetch: set for a `2xx` response, and left set when
there was no status line at all. -/
theorem fetch_needToCache_iff :
    (fetch env request).needToCache = true ↔
      FinalOk (fetch env request).log ∨ streamAt env 0 request = [] := by
  have hstart := connectPhase_startsAt env request
  have hloop := headerLoop_needToCache (n := maxRedirects) hstart
  obtain ⟨hneed, -, hstatus, -⟩ := fetch_fields env request
  rw [connectPhase_needToCache, hstart.bytes, connectPhase_request, FinalOk] at hloop
  rw [hneed, FinalOk, hstatus, headPhase, addHeaders_needToCache, finalStatus_addHeaders, hloop]
  simp [maxRedirects]

/-- Only a run with a first connection is answered. -/
theorem connected_of_answered (h : (finalTrail env request).Answered env maxRedirects) :
    Connected env request := by
  by_contra hconnected
  have hnil : streamAt env 0 request = [] := if_neg hconnected
  obtain ⟨-, hstream, -⟩ := h
  rw [finalTrail, trail_of_stream_nil hnil] at hstream
  exact hstream hnil

end Fetch

end Loader
end Proxy
end OperatingSystems
