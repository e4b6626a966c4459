import OperatingSystems.Library.Sends
import OperatingSystems.Proxy.Refinement
import OperatingSystems.Proxy.Sockets
import OperatingSystems.Proxy.Streaming

/-!
# Short sends

A `send` may take a part of its buffer only.  None of the callers looks at how
much was taken: the hit path and `send_to_client` compare the result with `-1`,
the miss path with `0`.

* `arrival` — the response that a run forwards, by the chain of redirects.
* `Relays` — what was handed to the client and added to the entry is a prefix of
  that response, statement by statement.
* `Delivers` — the results of the calls made so far.
* `noGaps` — as long as no handler sends behind a short `send`, repeats its entry
  or drops a header block, every client has received a prefix of the response; and
  `request_send` reports a request as sent of which the server has received a
  prefix, complete unless the `send` was short.
-/

namespace OperatingSystems
namespace Proxy

open Threads Sends

/-! ### `send_to_client` and `request_send` -/

/-- The loop of `send_to_client` from the block `package` on: the result and the
buffers passed to `send`. -/
def packageLoop (reply : Nat → Int) (data : List Byte) (packagesSize length : Nat) :
    Nat → Nat → Int × List (List Byte)
  | 0, _ => (0, [])
  | fuel + 1, package =>
      if package * packagesSize + packagesSize < length then
        let block := (data.drop (package * packagesSize)).take packagesSize
        if reply package = -1 then (-1, [block])
        else
          let rest := packageLoop reply data packagesSize length fuel (package + 1)
          (rest.1, block :: rest.2)
      else if package * packagesSize < length then
        (if reply package = -1 then -1 else 0,
          [(data.drop (package * packagesSize)).take (length - package * packagesSize)])
      else (if package = 0 then -1 else 0, [])

/-- `send_to_client`: the result and the buffers passed to `send`. -/
def sendToClient (reply : Nat → Int) (data : List Byte) (packagesSize length : Int) :
    Int × List (List Byte) :=
  if length ≤ 0 then (0, [])
  else if packagesSize ≤ 0 then (if reply 0 = -1 then -1 else 0, [data.take length.toNat])
  else packageLoop reply data packagesSize.toNat length.toNat length.toNat 0

/-- `request_send`: the result and the buffers passed to `send`. -/
def requestSend (reply : Nat → Int) (request : Request) : Int × List (List Byte) :=
  match buildRequest request with
  | none => (-1, [])
  | some text => sendToClient reply text 0 text.length

theorem buildRequest_ne_nil {request : Request} {text : List Byte}
    (htext : buildRequest request = some text) : text ≠ [] := by
  obtain ⟨version, -, rfl⟩ := Option.map_eq_some_iff.mp htext
  simp [bytes]

/-- `request_send` makes one call, and looks only whether it failed. -/
theorem requestSend_spec (reply : Nat → Int) {request : Request} {text : List Byte}
    (htext : buildRequest request = some text) :
    Sends.received reply (requestSend reply request).2 <+: text ∧
      ((requestSend reply request).1 = 0 →
        (Sends.received reply (requestSend reply request).2 = text ↔
          ¬ CutShort reply (requestSend reply request).2)) := by
  have hsend : requestSend reply request = sendToClient reply text 0 text.length := by
    rw [requestSend, htext]
  rw [hsend, sendToClient]
  have hempty := buildRequest_ne_nil htext
  have hpos := List.length_pos_iff.mpr hempty
  rw [if_neg (by omega), if_pos (le_refl 0), Int.toNat_natCast, List.take_length]
  have hone : Sends.received reply ([] ++ [text]) = [] ++ taken text (reply 0) :=
    received_append_singleton text
  rw [List.nil_append, List.nil_append] at hone
  rw [hone]
  refine ⟨taken_isPrefix _ _, fun hresult => ?_⟩
  have hok : reply 0 ≠ -1 := by
    intro hfail
    simp [hfail] at hresult
  rw [taken_eq_self_iff hempty]
  simp [CutShort, hok]

/-- A peer takes the request of a run exactly when `request_send` returns 0. -/
theorem Loader.requestSent_iff_requestSend {env : Env} {l : Loader} {fd : Nat}
    (reply : Nat → Int) (htarget : l.targetSocket = some fd)
    (htakes : (env.hop fd).takesRequest = true ↔ reply 0 ≠ -1) :
    l.requestSent env = true ↔ (Proxy.requestSend reply l.request).1 = 0 := by
  rw [requestSent, Proxy.requestSend, htarget]
  cases htext : buildRequest l.request with
  | none => simp
  | some text =>
      have hpos := List.length_pos_iff.mpr (buildRequest_ne_nil htext)
      simp only [sendToClient]
      rw [if_neg (by omega), if_pos (le_refl 0), htakes]
      simp

/-! ### The response that a run forwards -/

/-- Where a chain of redirects ends: how many rounds of the header loop are left,
and the response. -/
structure Arrival where
  rounds : Nat
  response : List Byte

/-- Follow redirects for `n` rounds from `stream`, which the `k`-th connection
delivers. -/
def arrival (env : Env) : Nat → Nat → Request → List Byte → Arrival
  | 0, _, _, stream => ⟨0, stream⟩
  | n + 1, k, request, stream =>
      match locationOf stream with
      | none => ⟨n + 1, stream⟩
      | some location =>
          let next := updateRequestFromLocation request location
          arrival env n (k + 1) next (streamAt env (k + 1) next)

/-- The header loop is left at `if (!location) break;`, where the header block has
been read and is not sent. -/
def Arrival.DropsHeader (a : Arrival) : Prop :=
  0 < a.rounds ∧ isRedirect (statusOf a.response) = true

instance (a : Arrival) : Decidable a.DropsHeader :=
  inferInstanceAs (Decidable (_ ∧ _))

/-- What the header loop starts to read: the response, or after a failed `request_send`
whatever the closed descriptor delivers, if there is one. -/
def firstBytes (request : Request) (env : Env) (stale : Socket) : List Byte :=
  if Connected env request then (env.hop 0).response.bytes
  else if (hostPort request).isSome && (env.hop 0).reachable then stale.bytes
  else []

/-- The response that a run forwards. -/
def arrivalOf (request : Request) (env : Env) (stale : Socket) : Arrival :=
  arrival env maxRedirects 0 request (firstBytes request env stale)

namespace Loader

variable {env : Env} {l : Loader}

/-- The results of the calls made so far: the `k`-th buffer handed to the client got
the `k`-th result, and a client that is alive took something every time. -/
structure Counts (env : Env) (l : Loader) : Prop where
  sends : l.sends = (handed l.log).length
  alive : l.clientAlive = true → ∀ k < l.sends, 0 < env.reply k

theorem Counts.congr {l' : Loader} (h : l.Counts env) (hsends : l'.sends = l.sends)
    (hhanded : handed l'.log = handed l.log) (halive : l'.clientAlive = l.clientAlive) :
    l'.Counts env := by
  obtain ⟨hlength, hreply⟩ := h
  refine ⟨?_, ?_⟩
  · rw [hsends, hhanded, hlength]
  · rw [hsends, halive]
    exact hreply

theorem Counts.send (h : l.Counts env) (buffer : List Byte) : (l.send env buffer).Counts env := by
  unfold Loader.send
  split
  · next halive =>
    refine ⟨?_, fun hreply k hk => ?_⟩
    · simp [handed, h.sends]
    · rcases Nat.lt_succ_iff_lt_or_eq.mp hk with hlt | rfl
      · exact h.alive halive k hlt
      · simpa using hreply
  · exact h

/-- What a followed redirect leads to. -/
theorem nextHop_fields {location : List Byte} {k : Nat} (hattempts : l.attempts = k + 1)
    (htarget : (l.readResponse.follow env location).targetSocket ≠ none) :
    (l.nextHop env location).request = updateRequestFromLocation l.request location ∧
      (l.nextHop env location).attempts = k + 2 ∧
      (l.nextHop env location).conn.bytes =
        streamAt env (k + 1) (updateRequestFromLocation l.request location) ∧
      (l.nextHop env location).clientAlive = l.clientAlive ∧
      (l.nextHop env location).sends = l.sends ∧
      handed (l.nextHop env location).log = handed l.log := by
  have hreached : l.nextReached env location = true := by
    rwa [Ne, follow_targetSocket_eq_none_iff, Bool.not_eq_false] at htarget
  obtain ⟨log, hsend, -, hhanded, -⟩ := (l.readResponse.follow env location).requestSend_fields
  rw [nextHop, hsend]
  rw [follow_of_reached hreached] at hhanded ⊢
  rw [nextReached, hattempts] at hreached
  refine ⟨rfl, ?_, ?_, rfl, rfl, ?_⟩
  · simp [hattempts]
  · simp only [streamAt, hreached, if_true, hattempts]
  · rw [hhanded]
    simp [handed, readResponse_log]

/-- What the header loop leaves behind. -/
structure Heads (env : Env) (a : Arrival) (r : Loader × Option (List Byte)) : Prop where
  counts : r.1.Counts env
  short : (handed r.1.log).length ≤ 1
  forwarded : ¬ a.DropsHeader → (handed r.1.log).flatten ++ r.1.conn.bytes <+: a.response
  stored : r.1.needToCache = true → r.2.getD [] ++ r.1.conn.bytes <+: a.response
  caches : r.2.isSome = true → r.1.needToCache = true

/-- The header loop reads along the chain of redirects. -/
theorem headerLoop_arrival (n k : Nat) (hattempts : l.attempts = k + 1)
    (hcounts : l.Counts env) (hhanded : handed l.log = []) (halive : l.clientAlive = true) :
    Heads env (arrival env n k l.request l.conn.bytes) (l.headerLoop env n) := by
  -- The number of the hop is the number of attempts, so it is carried along.
  refine headerLoop_induction env
    (motive := fun n l r => ∀ k, l.attempts = k + 1 → l.Counts env → handed l.log = [] →
      l.clientAlive = true → Heads env (arrival env n k l.request l.conn.bytes) r)
    ?_ ?_ ?_ ?_ ?_ ?_ n l k hattempts hcounts hhanded halive
  · intro l k _ hcounts hhanded _
    exact ⟨hcounts, by simp [hhanded], fun _ => by simp [hhanded, arrival],
      fun _ => by simp [arrival], by simp⟩
  · intro n l hempty k _ hcounts hhanded _
    have hsame : handed l.readStatusLine.2.log = [] := readStatusLine_quiet.2.1.trans hhanded
    have hnil : l.readStatusLine.2.conn.bytes = [] := by
      simp [readStatusLine_conn_bytes, hempty]
    exact ⟨hcounts.congr rfl (hsame.trans hhanded.symm) rfl, by simp [hsame],
      fun _ => by simp [hsame, hnil], fun _ => by simp [hnil], by simp⟩
  · intro n l _ hfinal k _ hcounts hhanded halive
    have hend : arrival env (n + 1) k l.request l.conn.bytes = ⟨n + 1, l.conn.bytes⟩ := by
      simp [arrival, locationOf_eq_none_of_not_isRedirect hfinal]
    have hsent : handed (l.readResponse.send env (headerBlock l.conn.bytes)).log =
        [headerBlock l.conn.bytes] := by
      simp [handed_send, hhanded, halive]
    have hresponse : l.readResponse.Counts env := hcounts.congr rfl handed_readResponse rfl
    rw [hend]
    refine ⟨hresponse.send _, by simp [hsent], fun _ => ?_, fun hneed => ?_, fun hblock => ?_⟩
    · simp [hsent, headerBlock_append_bodyOf]
    · have hallowed : cacheAllowed (statusOf l.conn.bytes) = true := by simpa using hneed
      simp [hallowed, headerBlock_append_bodyOf]
    · simpa using hblock
  · intro n l hredirect hlocation k _ hcounts hhanded _
    have hend : arrival env (n + 1) k l.request l.conn.bytes = ⟨n + 1, l.conn.bytes⟩ := by
      simp [arrival, hlocation]
    rw [hend]
    refine ⟨hcounts.congr rfl handed_readResponse rfl, by simp [hhanded], fun hkeeps => ?_,
      fun hneed => ?_, by simp⟩
    · exact absurd ⟨Nat.succ_pos n, hredirect⟩ hkeeps
    · simp [cacheAllowed_of_isRedirect hredirect] at hneed
  · intro n l location hredirect hlocation htarget k _ hcounts hhanded _
    have hreached := follow_targetSocket_eq_none_iff.mp htarget
    obtain ⟨-, hneed, -, hsame, -⟩ := follow_of_targetSocket_eq_none htarget
    rw [hhanded] at hsame
    have hnil : (l.readResponse.follow env location).conn.bytes = [] := by
      rw [follow_of_not_reached hreached]
      rfl
    refine ⟨hcounts.congr ?_ (hsame.trans hhanded.symm) ?_, by simp [hsame],
      fun _ => by simp [hsame, hnil], fun _ => by simp [hnil], by simp⟩
    · rw [follow_of_not_reached hreached]
      rfl
    · rw [follow_of_not_reached hreached]
      rfl
  · intro n l location r _ hlocation htarget ih k hattempts hcounts hhanded halive
    -- The next hop answers, and the chain goes on from there.
    obtain ⟨hrequest, hnext, hbytes, hclient, hsends, hsame⟩ := nextHop_fields hattempts htarget
    have hchain : arrival env (n + 1) k l.request l.conn.bytes =
        arrival env n (k + 1) (l.nextHop env location).request
          (l.nextHop env location).conn.bytes := by
      simp [arrival, hlocation, hrequest, hbytes]
    rw [hchain]
    exact ih (k + 1) hnext (hcounts.congr hsends hsame hclient) (hsame.trans hhanded)
      (hclient.trans halive)

end Loader

/-! ### What a handler forwards -/

/-- What has been read for the client and is not handed on yet. -/
def Handler.unsent (t : Handler) : List Byte :=
  match t.pc with
  | .listLock .body | .listAppend .body | .listUnlock .body _ | .wrlock .body _
  | .unlockPrev .body _ | .bodySend => t.chunk
  | _ => []

/-- What has been read for the entry and is not added yet. -/
def Handler.unlisted (t : Handler) : List Byte :=
  match t.pc with
  | .listLock _ | .listAppend _ => t.chunk
  | _ => []

/-- The response is relayed to the client and to the entry. -/
structure Relays (response : List Byte) (t : Handler) : Prop where
  client : Relayed response t.loader.clientAlive (handed t.loader.log) t.unsent
    t.loader.conn.bytes
  entry : Relayed response t.loader.needToCache (listAdds t.loader.log) t.unlisted
    t.loader.conn.bytes
  caches : (∃ site, t.pc = .listLock site ∨ t.pc = .listAppend site) →
    t.loader.needToCache = true

/-- A loader that has handed on and added nothing yet. -/
structure Loader.Unread (request : Request) (l : Loader) : Prop where
  request : l.request = request
  attempts : l.attempts = 1
  alive : l.clientAlive = true
  sends : l.sends = 0
  handed : handed l.log = []
  listAdds : listAdds l.log = []

/-- How a run stands with the response that it forwards. -/
def Forwards (request : Request) (env : Env) (t : Handler) : Prop :=
  match t.pc.stage with
  | .idle => t.loader = .start request
  | .connected => t.loader.Unread request ∧
      (t.loader.requestSent env = true ↔ Connected env request) ∧
      (Connected env request → t.loader.conn = (env.hop 0).response) ∧
      t.loader.targetSocket.isSome = ((hostPort request).isSome && (env.hop 0).reachable)
  | .requested => t.loader.Unread request ∧
      t.loader.conn.bytes = firstBytes request env t.stale
  | .reading | .finished => Relays (arrivalOf request env t.stale).response t

section Step

variable {request : Request} {env : Env} {memory : Memory} {t : Handler}

/-- A handler that has finished has nothing left to hand on or to add. -/
theorem Handler.pending_of_finished (hstage : t.pc.stage = .finished) :
    t.unsent = [] ∧ t.unlisted = [] ∧
      ¬ ∃ site, t.pc = .listLock site ∨ t.pc = .listAppend site := by
  unfold unsent unlisted
  revert hstage
  cases t.pc <;> simp [Pc.stage]

/-- A run that has not loaded anything. -/
theorem Relays.start (response : List Byte) (hloader : t.loader = .start request)
    (hstage : t.pc.stage = .finished) : Relays response t := by
  obtain ⟨hunsent, hunlisted, hsite⟩ := Handler.pending_of_finished hstage
  have hnothing (active : Bool) : Relayed response active [] [] [] :=
    ⟨List.nil_prefix, fun _ => List.nil_prefix⟩
  refine ⟨?_, ?_, fun h => absurd h hsite⟩
  · rw [hloader, hunsent]
    exact hnothing _
  · rw [hloader, hunlisted]
    exact hnothing _

/-- `complete = 1` hands nothing on and adds nothing. -/
theorem Loader.log_complete (l : Loader) :
    Proxy.handed (l.emit .complete).log = Proxy.handed l.log ∧
      Proxy.listAdds (l.emit .complete).log = Proxy.listAdds l.log :=
  ⟨(handed_append _ _).trans (List.append_nil _), (listAdds_append _ _).trans (List.append_nil _)⟩

/-- A step that only moves on. -/
theorem Relays.move {response : List Byte} {t' : Handler} (h : Relays response t)
    (hloader : t'.loader = t.loader) (hunsent : t'.unsent = t.unsent)
    (hunlisted : t'.unlisted = t.unlisted)
    (hsite : (∃ site, t'.pc = .listLock site ∨ t'.pc = .listAppend site) →
      ∃ site, t.pc = .listLock site ∨ t.pc = .listAppend site) : Relays response t' := by
  refine ⟨?_, ?_, fun hpc => ?_⟩
  · rw [hloader, hunsent]
    exact h.client
  · rw [hloader, hunlisted]
    exact h.entry
  · rw [hloader]
    exact h.caches (hsite hpc)

/-- `http_connect`. -/
theorem Forwards.connect (henv : t.env = env) (hpc : t.pc = .connect)
    (h : Forwards request env t) : Forwards request env t.connectRound := by
  rw [Forwards, hpc] at h
  obtain rfl := henv
  have hloader : t.loader = .start request := h
  have hunread : (t.loader.httpConnect t.env).Unread request ∧
      ((t.loader.httpConnect t.env).requestSent t.env = true ↔ Connected t.env request) ∧
      (Connected t.env request → (t.loader.httpConnect t.env).conn = (t.env.hop 0).response) ∧
      (t.loader.httpConnect t.env).targetSocket.isSome =
        ((hostPort request).isSome && (t.env.hop 0).reachable) := by
    rw [hloader]
    cases hhost : (hostPort request).isSome <;> cases hreach : (t.env.hop 0).reachable <;>
      cases htext : buildRequest request <;>
      simp [Loader.httpConnect, Loader.start, Loader.requestSent, Connected, hhost, hreach,
        htext] <;>
      exact ⟨rfl, rfl, rfl, rfl, rfl, rfl⟩
  unfold Handler.connectRound
  split <;> exact hunread

/-- `request_send`. -/
theorem Forwards.sendRequest (henv : t.env = env) (hpc : t.pc = .requestSend)
    (h : Forwards request env t) : Forwards request env t.requestRound := by
  rw [Forwards, hpc] at h
  obtain rfl := henv
  obtain ⟨hunread, hsent, hconn, hsocket⟩ := h
  obtain ⟨log, hsend, -, hhanded, hadds⟩ := t.loader.requestSend_fields
  rw [hunread.handed] at hhanded
  rw [hunread.listAdds] at hadds
  unfold Handler.requestRound
  by_cases hsucceeds : t.loader.requestSent t.env = true
  · rw [if_pos hsucceeds]
    have hconnected := hsent.mp hsucceeds
    refine ⟨?_, ?_⟩
    · show t.loader.requestSend.Unread request
      rw [hsend]
      exact ⟨hunread.request, hunread.attempts, hunread.alive, hunread.sends, hhanded, hadds⟩
    · show t.loader.requestSend.conn.bytes = _
      rw [hsend, firstBytes, if_pos hconnected, ← hconn hconnected]
  · rw [if_neg hsucceeds]
    refine ⟨?_, ?_⟩
    · show ({ t.loader.requestSend.closeTarget with conn := _ } : Loader).Unread request
      rw [hsend]
      refine ⟨hunread.request, hunread.attempts, hunread.alive, hunread.sends, ?_, ?_⟩
      · simpa [Loader.closeTarget, Proxy.handed] using hhanded
      · simpa [Loader.closeTarget, Proxy.listAdds] using hadds
    · show (if t.loader.targetSocket.isNone then Socket.closed else t.stale).bytes = _
      rw [firstBytes, if_neg fun hconnected => hsucceeds (hsent.mpr hconnected), ← hsocket]
      cases t.loader.targetSocket <;> rfl

/-- The header loop, unless it drops the header block. -/
theorem Forwards.headers (henv : t.env = env) (hpc : t.pc = .headerLoop)
    (hkeeps : ¬ (arrivalOf request env t.stale).DropsHeader) (h : Forwards request env t) :
    Forwards request env t.headerRound := by
  rw [Forwards, hpc] at h
  obtain rfl := henv
  obtain ⟨hunread, hbytes⟩ := h
  have hheads : Loader.Heads t.env _ _ := Loader.headerLoop_arrival maxRedirects 0 hunread.attempts
    ⟨by rw [hunread.sends, hunread.handed]; rfl, fun _ k hk => by rw [hunread.sends] at hk; omega⟩
    hunread.handed hunread.alive
  have hadds := (Loader.listAdds_headerLoop t.env maxRedirects t.loader).trans hunread.listAdds
  rw [hbytes, hunread.request] at hheads
  change Loader.Heads t.env (arrivalOf request t.env t.stale) _ at hheads
  have hforwarded := hheads.forwarded hkeeps
  have hfirst : t.headerRound.unsent = [] ∧
      t.headerRound.unlisted = (t.loader.headerLoop t.env maxRedirects).2.getD [] ∧
      t.headerRound.pc.stage = .reading ∧
      ((∃ site, t.headerRound.pc = .listLock site ∨ t.headerRound.pc = .listAppend site) →
        (t.loader.headerLoop t.env maxRedirects).2.isSome = true) := by
    cases hblock : (t.loader.headerLoop t.env maxRedirects).2 <;>
      simp [Handler.headerRound, hblock, Handler.unsent, Handler.unlisted, Pc.stage]
  obtain ⟨hunsent, hunlisted, hstage, hadding⟩ := hfirst
  rw [Forwards, hstage]
  refine ⟨⟨?_, fun _ => ?_⟩, ⟨?_, fun hneed => ?_⟩, fun hpc => hheads.caches (hadding hpc)⟩
  · exact (List.prefix_append _ _).trans hforwarded
  · rw [hunsent]
    exact hforwarded
  · show (listAdds (t.loader.headerLoop t.env maxRedirects).1.log).flatten <+: _
    rw [hadds]
    exact List.nil_prefix
  · show (listAdds (t.loader.headerLoop t.env maxRedirects).1.log).flatten ++ _ <+: _
    rw [hadds, hunlisted]
    exact hheads.stored hneed

/-- One round of the body loop. -/
theorem Forwards.body (hpc : t.pc = .bodyRead) (h : Forwards request env t) :
    Forwards request env t.bodyRound := by
  rw [Forwards, hpc] at h
  obtain ⟨hclient, hentry, -⟩ := (h : Relays _ t)
  have hunsent : t.unsent = [] := by simp [Handler.unsent, hpc]
  have hunlisted : t.unlisted = [] := by simp [Handler.unlisted, hpc]
  have hsplit : t.loader.conn.bytes = t.loader.readBody.1 ++ t.loader.readBody.2.conn.bytes := by
    simp
  rw [hunsent, hsplit] at hclient
  rw [hunlisted, hsplit] at hentry
  unfold Handler.bodyRound
  split
  · have hhanded : handed t.loader.readBody.2.closeTarget.log = handed t.loader.log := by
      rw [Loader.closeTarget, handed_append, Loader.handed_readBody]
      exact List.append_nil _
    have hadds : listAdds t.loader.readBody.2.closeTarget.log = listAdds t.loader.log := by
      rw [Loader.listAdds_closeTarget, Loader.listAdds_readBody]
    have hends (current : Option Nat) : Relays (arrivalOf request env t.stale).response
        { t with loader := t.loader.readBody.2.closeTarget, current := current,
                 pc := .doneLock } := by
      refine ⟨?_, ?_, ?_⟩
      · exact hhanded.symm ▸ hclient.read.stop _
      · exact hadds.symm ▸ hentry.read.stop _
      · rintro ⟨site, hsite | hsite⟩ <;> simp at hsite
    cases hcurrent : t.current with
    | none => exact hends none
    | some node =>
        refine ⟨(hends (some node)).client, (hends (some node)).entry, ?_⟩
        rintro ⟨site, hsite | hsite⟩ <;> simp at hsite
  · have hhanded := Loader.handed_readBody (l := t.loader)
    have hadds := Loader.listAdds_readBody (l := t.loader)
    cases hneed : t.loader.readBody.2.needToCache with
    | true =>
        refine ⟨?_, ?_, fun _ => hneed⟩
        · exact hhanded.symm ▸ hclient.read
        · exact hadds.symm ▸ hentry.read
    | false =>
        refine ⟨?_, ?_, ?_⟩
        · exact hhanded.symm ▸ hclient.read
        · show Relayed _ t.loader.readBody.2.needToCache _ _ _
          rw [hneed, hadds]
          exact hentry.leave _ _
        · rintro ⟨site, hsite | hsite⟩ <;> simp at hsite

/-- `list_add`. -/
theorem Relays.listAdd {response : List Byte} {site : Site} (hpc : t.pc = .listAppend site)
    (h : Relays response t) : Relays response (t.resume memory) := by
  obtain ⟨hclient, hentry, hcaches⟩ := h
  have hneed := hcaches ⟨site, Or.inr hpc⟩
  have hunlisted : t.unlisted = t.chunk := by simp [Handler.unlisted, hpc]
  rw [hneed, hunlisted] at hentry
  rw [Handler.resume, hpc]
  refine ⟨?_, ?_, ?_⟩
  · have hunsent : t.unsent = Handler.unsent { t with
        pc := .listUnlock site (memory.cache t.cacheNode).nodes.length } := by
      cases site <;> simp [Handler.unsent, hpc]
    show Relayed _ _ (handed (t.loader.log ++ [.listAdd t.chunk])) (Handler.unsent { t with
      pc := .listUnlock site (memory.cache t.cacheNode).nodes.length }) _
    rw [handed_append, ← hunsent]
    exact (List.append_nil (handed t.loader.log)).symm ▸ hclient
  · show Relayed _ _ (listAdds (t.loader.log ++ [.listAdd t.chunk])) [] _
    rw [listAdds_append]
    exact hentry.pass _
  · rintro ⟨site, hsite | hsite⟩ <;> simp at hsite

/-- The `send` of the body loop. -/
theorem Relays.sendBody {response : List Byte} (hpc : t.pc = .bodySend) (h : Relays response t) :
    Relays response (t.resume memory) := by
  obtain ⟨hclient, hentry, -⟩ := h
  have hunsent : t.unsent = t.chunk := by simp [Handler.unsent, hpc]
  have hunlisted : t.unlisted = [] := by simp [Handler.unlisted, hpc]
  rw [hunsent] at hclient
  rw [hunlisted] at hentry
  rw [Handler.resume, hpc]
  refine ⟨?_, ?_, ?_⟩
  · show Relayed _ (t.loader.send t.env t.chunk).clientAlive
      (handed (t.loader.send t.env t.chunk).log) [] (t.loader.send t.env t.chunk).conn.bytes
    rw [Loader.handed_send, Loader.send_conn]
    cases halive : t.loader.clientAlive with
    | true => exact (halive ▸ hclient).pass _
    | false =>
        rw [if_neg Bool.false_ne_true, List.append_nil]
        have hsame : (t.loader.send t.env t.chunk).clientAlive = false := by
          simp [Loader.send, halive]
        rw [hsame]
        exact hclient.leave _ _
  · show Relayed _ (t.loader.send t.env t.chunk).needToCache
      (listAdds (t.loader.send t.env t.chunk).log) [] (t.loader.send t.env t.chunk).conn.bytes
    rw [Loader.listAdds_send, Loader.send_conn, Loader.send_needToCache]
    exact hentry
  · rintro ⟨site, hsite | hsite⟩ <;> simp at hsite

/-- The steps outside the miss path. -/
theorem Forwards.resume_of_not_load (hload : t.pc.role ≠ .load) (h : Forwards request env t) :
    Forwards request env (t.resume memory) := by
  have hframe := t.frame memory
  have hloader : (t.resume memory).loader = t.loader := hframe.loader hload
  unfold Forwards at h ⊢
  rw [hloader, hframe.stale]
  rcases (t.follows_resume memory).stage hload with ⟨hidle, hnext⟩ | ⟨hidle, -, hnext⟩ |
    ⟨hfinished, -, hnext⟩
  · rw [hidle] at h
    rwa [hnext]
  · rw [hidle] at h
    rw [hnext]
    exact .start _ (hloader.trans h) hnext
  · rw [hfinished] at h
    rw [hnext]
    obtain ⟨hunsent, hunlisted, -⟩ := Handler.pending_of_finished hfinished
    obtain ⟨hunsent', hunlisted', hsite⟩ := Handler.pending_of_finished hnext
    exact Relays.move h hloader (hunsent'.trans hunsent.symm) (hunlisted'.trans hunlisted.symm)
      fun hpc => absurd hpc hsite

/-- No step loses anything of the response. -/
theorem Forwards.resume (henv : t.env = env)
    (hkeeps : t.pc = .headerLoop → ¬ (arrivalOf request env t.stale).DropsHeader)
    (h : Forwards request env t) : Forwards request env (t.resume memory) := by
  by_cases hload : t.pc.role = .load
  swap
  · exact h.resume_of_not_load hload
  obtain ⟨pc, loader, tenv, stale, cacheNode, added, current, prev, chunk, sent⟩ := t
  cases pc <;> simp only [Pc.role, reduceCtorEq] at hload
  case connect => exact h.connect henv rfl
  case requestSend => exact h.sendRequest henv rfl
  case headerLoop => exact h.headers henv rfl (hkeeps rfl)
  case bodyRead => exact h.body rfl
  case listAppend site => exact Relays.listAdd rfl h
  case bodySend => exact Relays.sendBody rfl h
  case failSet f =>
    obtain ⟨hhanded, hadds⟩ := loader.log_complete
    have hunread (h : loader.Unread request) : (loader.emit .complete).Unread request :=
      ⟨h.request, h.attempts, h.alive, h.sends, hhanded.trans h.handed, hadds.trans h.listAdds⟩
    cases f <;> exact ⟨hunread h.1, h.2⟩
  case doneSet =>
    have hrelays : Relays _ _ := h
    obtain ⟨hhanded, hadds⟩ := loader.log_complete
    refine ⟨?_, ?_, ?_⟩
    · exact hhanded.symm ▸ hrelays.client
    · exact hadds.symm ▸ hrelays.entry
    · rintro ⟨site, hsite | hsite⟩ <;> simp [Handler.resume] at hsite
  case failLockMap f => cases f <;> exact h
  case failLock f => cases f <;> exact h
  case failUnlock f => cases f <;> exact h
  case failUnlockMap f => cases f <;> exact h
  case addedUnlock => exact h
  case listLock site => cases site <;> exact Relays.move h rfl rfl rfl fun _ => ⟨_, Or.inl rfl⟩
  case listUnlock site node =>
    cases site <;> exact Relays.move h rfl rfl rfl (by simp [Handler.resume])
  case wrlock site node =>
    cases site <;> cases current <;>
      exact Relays.move h rfl rfl rfl (by simp [Handler.resume, Site.next])
  case unlockPrev site node =>
    cases site <;> exact Relays.move h rfl rfl rfl (by simp [Handler.resume, Site.next])
  all_goals exact Relays.move h rfl rfl rfl (by simp [Handler.resume])

/-! ### What the client of a handler has received -/

/-- The buffers passed to `send` for the client, on either path. -/
def Handler.sends (t : Handler) : List (List Byte) :=
  handed t.loader.log ++ t.sent

/-- What the client has received. -/
def Handler.received (t : Handler) : List Byte :=
  Sends.received t.env.reply t.sends

/-- The calls of `send` so far: none came behind a short one, and none behind a
failed one. -/
structure Delivers (t : Handler) : Prop where
  gapless : Gapless t.env.reply t.sends
  counts : t.loader.Counts t.env
  fresh : t.pc.role = .lookup → t.sent = []
  missed : t.added ≠ none → t.sent = []
  going : t.pc.role = .hit → (∀ node, t.pc ≠ .rdunlock node false) →
    ∀ k < t.sent.length, t.env.reply k ≠ -1

/-- A reader comes from the lookup, or from a `send` that did not fail. -/
theorem Handler.hit_of_resume (h : (t.resume memory).pc.role = .hit) :
    t.pc.role = .lookup ∨ (t.pc.role = .hit ∧ ∀ node, t.pc ≠ .rdunlock node false) := by
  have hfollows := t.follows_resume memory
  generalize (t.resume memory).pc = next at h hfollows
  generalize t.pc = pc at hfollows ⊢
  cases hfollows <;> simp_all [Pc.role]

/-- Only two statements of the miss path send to the client. -/
theorem Handler.client_resume (hheaders : t.pc ≠ .headerLoop) (hbody : t.pc ≠ .bodySend) :
    handed (t.resume memory).loader.log = handed t.loader.log ∧
      (t.resume memory).loader.sends = t.loader.sends ∧
      (t.resume memory).loader.clientAlive = t.loader.clientAlive := by
  by_cases hload : t.pc.role = .load
  swap
  · rw [(t.frame memory).loader hload]
    exact ⟨rfl, rfl, rfl⟩
  have hclose (l : Loader) : handed l.closeTarget.log = handed l.log :=
    (handed_append _ _).trans (List.append_nil _)
  obtain ⟨pc, loader, tenv, stale, cacheNode, added, current, prev, chunk, sent⟩ := t
  cases pc <;> simp only [Pc.role, reduceCtorEq] at hload
  case connect =>
    simp only [resume, connectRound, Loader.httpConnect]
    split
    · exact ⟨(handed_append _ _).trans (List.append_nil _), rfl, rfl⟩
    · exact ⟨rfl, rfl, rfl⟩
  case requestSend =>
    obtain ⟨log, hsend, -, hhanded, -⟩ := loader.requestSend_fields
    simp only [resume, requestRound]
    split
    · rw [hsend]
      exact ⟨hhanded, rfl, rfl⟩
    · rw [hsend]
      exact ⟨(hclose _).trans hhanded, rfl, rfl⟩
  case failSet f => exact ⟨loader.log_complete.1, rfl, rfl⟩
  case doneSet => exact ⟨loader.log_complete.1, rfl, rfl⟩
  case headerLoop => exact absurd rfl hheaders
  case bodySend => exact absurd rfl hbody
  case listAppend site => exact ⟨(handed_append _ _).trans (List.append_nil _), rfl, rfl⟩
  case bodyRead =>
    simp only [resume, bodyRound]
    split
    · exact ⟨(hclose _).trans Loader.handed_readBody, rfl, rfl⟩
    · exact ⟨Loader.handed_readBody, rfl, rfl⟩
  all_goals exact ⟨rfl, rfl, rfl⟩

/-- On the hit path only the nodes of the entry are sent. -/
theorem Delivers.sendNode {c : Cache} {node : Nat} (h : Delivers t) (hhit : t.pc = .send node)
    (hadded : t.added = none) (hhanded : handed t.loader.log = [])
    (hcut : ¬ CutShort t.env.reply t.sends) : Delivers (t.sendNode c node) := by
  have hsends : t.sends = t.sent := by rw [Handler.sends, hhanded, List.nil_append]
  have hgoing := h.going (by rw [hhit]; rfl) (by simp [hhit])
  have hwhole : Whole t.env.reply t.sent :=
    .of_not_cutShort (hsends ▸ hcut) hgoing
  refine ⟨?_, h.counts, fun hrole => ?_, fun hne => absurd hadded hne, fun _ hnode k hk => ?_⟩
  · show Gapless t.env.reply (handed t.loader.log ++ (t.sent ++ _))
    rw [hhanded, List.nil_append]
    exact hwhole.gapless_append _
  · simp [Handler.sendNode, Pc.role] at hrole
  · have hok : t.env.reply t.sent.length ≠ -1 := by
      simpa [Handler.sendNode] using hnode node
    rcases Nat.lt_succ_iff_lt_or_eq.mp (by simpa [Handler.sendNode] using hk) with hlt | rfl
    · exact hgoing k hlt
    · exact hok

/-- The `send` of the body loop. -/
theorem Delivers.sendBody (h : Delivers t) (hpc : t.pc = .bodySend) (hadded : t.added ≠ none)
    (hcut : t.loader.clientAlive = true → ¬ CutShort t.env.reply t.sends) :
    Delivers (t.resume memory) := by
  have hsends : t.sends = handed t.loader.log := by
    rw [Handler.sends, h.missed hadded, List.append_nil]
  have hgapless : Gapless t.env.reply (handed (t.loader.send t.env t.chunk).log) := by
    rw [Loader.handed_send]
    cases halive : t.loader.clientAlive with
    | true =>
        have hwhole : Whole t.env.reply (handed t.loader.log) :=
          .of_not_cutShort (hsends ▸ hcut halive) fun k hk => by
            have hpos := h.counts.alive halive k (h.counts.sends ▸ hk)
            omega
        exact hwhole.gapless_append _
    | false =>
        rw [if_neg Bool.false_ne_true, List.append_nil]
        exact hsends ▸ h.gapless
  rw [Handler.resume, hpc]
  refine ⟨?_, h.counts.send _, fun hrole => ?_, fun _ => h.missed hadded, fun hrole => ?_⟩
  · show Gapless t.env.reply (handed (t.loader.send t.env t.chunk).log ++ t.sent)
    rw [h.missed hadded, List.append_nil]
    exact hgapless
  · simp [Pc.role] at hrole
  · simp [Pc.role] at hrole

/-- The `send` of the header block is the first one. -/
theorem Delivers.headers {a : Arrival} (h : Delivers t) (hadded : t.added ≠ none)
    (hheads : Loader.Heads t.env a (t.loader.headerLoop t.env maxRedirects)) :
    Delivers t.headerRound := by
  have hpc' : t.headerRound.pc = .bodyRead ∨ t.headerRound.pc = .listLock .headers := by
    simp only [Handler.headerRound]
    split
    · exact Or.inl rfl
    · exact Or.inr rfl
  refine ⟨?_, hheads.counts, fun hrole => ?_, fun _ => h.missed hadded, fun hrole => ?_⟩
  · show Gapless t.env.reply (handed (t.loader.headerLoop t.env maxRedirects).1.log ++ t.sent)
    rw [h.missed hadded, List.append_nil]
    exact .of_length_le_one hheads.short
  · rcases hpc' with hpc' | hpc' <;> rw [hpc'] at hrole <;> simp [Pc.role] at hrole
  · rcases hpc' with hpc' | hpc' <;> rw [hpc'] at hrole <;> simp [Pc.role] at hrole

/-- The steps that send nothing. -/
theorem Delivers.quiet (h : Delivers t) (hsend : ∀ node, t.pc ≠ .send node)
    (hheaders : t.pc ≠ .headerLoop) (hbody : t.pc ≠ .bodySend) : Delivers (t.resume memory) := by
  have hframe := t.frame memory
  obtain ⟨hhanded, hsends, halive⟩ : handed (t.resume memory).loader.log = _ ∧ _ ∧ _ :=
    Handler.client_resume hheaders hbody
  have hsent := hframe.sent hsend
  refine ⟨?_, ?_, fun hrole => ?_, fun hadded => ?_, fun hrole _ k hk => ?_⟩
  · rw [Handler.sends, hframe.env, hhanded, hsent]
    exact h.gapless
  · rw [hframe.env]
    exact h.counts.congr hsends hhanded halive
  · exact hsent.trans (h.fresh (Handler.role_resume.1 hrole))
  · rw [hsent]
    by_cases hpc : t.pc = .mapAdd
    · exact h.fresh (by rw [hpc]; rfl)
    · exact h.missed (hframe.added hpc ▸ hadded)
  · rw [hsent] at hk
    rw [hframe.env]
    rcases Handler.hit_of_resume hrole with hlookup | ⟨hhit, hgoes⟩
    · simp [h.fresh hlookup] at hk
    · exact h.going hhit hgoes k hk

end Step

/-! ### Runs of the server -/

/-- The step of handler `i` leaves no gap: it does not send behind a short `send`, it
does not drop the header block, and a reader finds the node after the one it has
sent. -/
def uncut (s : State Nat Memory Handler) (i : Nat) : Bool :=
  findsNext s i &&
    match (s.thread i).pc with
    | .send _ => !decide (CutShort (s.thread i).env.reply (s.thread i).sends)
    | .bodySend =>
        !((s.thread i).loader.clientAlive &&
          decide (CutShort (s.thread i).env.reply (s.thread i).sends))
    | .headerLoop =>
        !decide (arrival (s.thread i).env maxRedirects 0 (s.thread i).loader.request
          (s.thread i).loader.conn.bytes).DropsHeader
    | _ => true

section Runs

variable {request : Nat → Request} {env : Nat → Env} {s : State Nat Memory Handler}

theorem Serves.starts (h : Serves request env s) : Starts s :=
  ⟨h.1, fun i => ⟨request i, env i, h.2 i⟩⟩

/-- In every run that leaves no gap, every handler forwards its response. -/
theorem forwards (hs : server.ReachableUnder (Serves request env) (fun s i => uncut s i) s)
    (i : Nat) : (s.thread i).env = env i ∧ Forwards (request i) (env i) (s.thread i) := by
  refine hs.forall_threads
    (L := fun i _ t => t.env = env i ∧ Forwards (request i) (env i) t) ?_ ?_ ?_ i
  · rintro s ⟨-, hthread⟩ i
    obtain ⟨stale, hi⟩ := hthread i
    rw [hi]
    exact ⟨rfl, rfl⟩
  · intro s i o memory _ hok hall _ _
    obtain ⟨henv, hforwards⟩ := hall i
    refine ⟨((s.thread i).frame s.shared).env.trans henv, hforwards.resume henv fun hpc => ?_⟩
    rw [Forwards, hpc] at hforwards
    obtain ⟨hunread, hbytes⟩ := hforwards
    have hkeeps : ¬ (arrival (s.thread i).env maxRedirects 0 (s.thread i).loader.request
        (s.thread i).loader.conn.bytes).DropsHeader := by
      simpa [uncut, hpc, findsNext] using hok
    rwa [henv, hunread.request, hbytes] at hkeeps
  · exact fun s i j o memory _ _ _ hall _ _ => hall j

/-- In every run that leaves no gap, no call of `send` comes behind a short one. -/
theorem delivers (hs : server.ReachableUnder (Serves request env) (fun s i => uncut s i) s)
    (i : Nat) : Delivers (s.thread i) := by
  refine hs.forall_threads (L := fun _ _ t => Delivers t) ?_ ?_ ?_ i
  · rintro s ⟨-, hthread⟩ i
    obtain ⟨stale, hi⟩ := hthread i
    rw [hi]
    exact ⟨.of_length_le_one (by simp [Handler.sends, Handler.start, Loader.start, handed]),
      ⟨rfl, fun _ k hk => absurd hk (Nat.not_lt_zero k)⟩, fun _ => rfl, fun _ => rfl,
      fun _ _ k hk => absurd hk (Nat.not_lt_zero k)⟩
  · intro s i o memory hreach hok hall hop hexec
    have hplaced := (bounded_placed (hreach.mono (fun _ => Serves.starts) fun _ _ h => h) i).2
    have hmiss (hload : (s.thread i).pc.role = .load) : (s.thread i).added ≠ none := by
      rw [Placed, hload] at hplaced
      simp [hplaced.1]
    by_cases hsend : ∃ node, (s.thread i).pc = .send node
    · obtain ⟨node, hpc⟩ := hsend
      have hhit : (s.thread i).pc.role = .hit := by rw [hpc]; rfl
      rw [Placed, hhit] at hplaced
      obtain ⟨henv, hforwards⟩ := forwards hreach i
      rw [Forwards, hpc] at hforwards
      have hloader : (s.thread i).loader = .start (request i) := hforwards
      change Delivers ((s.thread i).resume s.shared)
      rw [Handler.resume, hpc]
      refine (hall i).sendNode hpc hplaced.1 (by rw [hloader]; rfl) ?_
      simpa [uncut, hpc, findsNext] using hok
    by_cases hbody : (s.thread i).pc = .bodySend
    · refine (hall i).sendBody hbody (hmiss (by rw [hbody]; rfl)) fun halive => ?_
      simpa [uncut, hbody, findsNext, halive] using hok
    by_cases hheaders : (s.thread i).pc = .headerLoop
    · obtain ⟨henv, hforwards⟩ := forwards hreach i
      rw [Forwards, hheaders] at hforwards
      obtain ⟨hunread, -⟩ := hforwards
      change Delivers ((s.thread i).resume s.shared)
      rw [Handler.resume, hheaders]
      exact (hall i).headers (hmiss (by rw [hheaders]; rfl))
        (Loader.headerLoop_arrival maxRedirects 0 hunread.attempts (hall i).counts hunread.handed
          hunread.alive)
    exact (hall i).quiet (fun node hpc => hsend ⟨node, hpc⟩) hheaders hbody
  · exact fun s i j o memory _ _ _ hall _ _ => hall j

/-- Before the insertion, on the hit path and behind it the miss path is not used. -/
theorem Pc.stage_of_role (pc : Pc) :
    ((pc.role = .lookup ∨ pc.role = .hit) → pc.stage = .idle) ∧
      (pc.role = .done → pc.stage = .finished) := by
  cases pc <;> simp [Pc.role, Pc.stage]

/-- A handler that has no entry of its own has not used the miss path. -/
theorem loader_of_not_added (hs : server.Reachable (Serves request env) s) {i : Nat}
    (h : (s.thread i).added = none) : (s.thread i).loader = .start (request i) := by
  have haccounts := (accounts hs i).2
  have hplaced := (bounded_placed (hs.mono (fun _ => Serves.starts) fun _ _ h => h) i).2
  obtain ⟨hidle, hfinished⟩ := Pc.stage_of_role (s.thread i).pc
  unfold Accounts at haccounts
  unfold Placed at hplaced
  cases hrole : (s.thread i).pc.role <;> rw [hrole] at hplaced
  case lookup => rwa [hidle (Or.inl hrole)] at haccounts
  case hit => rwa [hidle (Or.inr hrole)] at haccounts
  case load => simp [h] at hplaced
  case finish => simp [h] at hplaced
  case done =>
    rw [hfinished hrole] at haccounts
    simpa only [h, if_true] using haccounts

/-- The nodes of an entry are what its loader has added. -/
theorem nodes_eq_listAdds (hs : server.Reachable (Serves request env) s) (i : Nat) :
    ∀ e, (s.thread i).added = some e →
      (s.shared.cache e).nodes = listAdds (s.thread i).loader.log := by
  refine hs.forall_threads (L := fun _ memory t => ∀ e, t.added = some e →
    (memory.cache e).nodes = listAdds t.loader.log) ?_ ?_ ?_ i
  · rintro s ⟨-, hthread⟩ i e he
    obtain ⟨stale, hi⟩ := hthread i
    simp [hi, Handler.start] at he
  · intro s i o memory hreach _ hall hop hexec e he
    have hstarts : server.Reachable Starts s :=
      hreach.mono (fun _ => Serves.starts) fun _ _ h => h
    change ((s.thread i).resume s.shared).added = some e at he
    change _ = listAdds ((s.thread i).resume s.shared).loader.log
    change (s.thread i).op = some o at hop
    by_cases hpc : (s.thread i).pc = .mapAdd
    · have hplaced := (bounded_placed hstarts i).2
      rw [Placed, hpc] at hplaced
      have hloader := loader_of_not_added hreach hplaced
      rw [Handler.op, hpc] at hop
      obtain rfl := Option.some.inj hop
      obtain rfl := Option.some.inj hexec
      rw [Handler.added_resume, if_pos hpc] at he
      obtain rfl := Option.some.inj he
      rw [Memory.cache_mapAdd_fresh, Handler.resume, hpc]
      show [] = listAdds (s.thread i).loader.log
      rw [hloader]
      rfl
    · rw [Handler.added_resume, if_neg hpc] at he
      obtain ⟨hnode, hlt⟩ := added_spec hstarts he
      by_cases happend : ∃ site, (s.thread i).pc = .listAppend site
      · obtain ⟨site, hsite⟩ := happend
        rw [Handler.op, hsite] at hop
        obtain rfl := Option.some.inj hop
        obtain rfl := Option.some.inj hexec
        rw [Handler.resume, hsite, hnode]
        simp [Memory.listAdd, Memory.cache_setCache, Loader.emit, hall i e he, listAdds]
      · rw [Handler.listAdds_resume fun site hsite => happend ⟨site, hsite⟩, ← hall i e he]
        exact Op.nodes_eq hexec hlt fun value ho => happend (Handler.op_listAdd (ho ▸ hop)).1
  · intro s i j o memory hreach _ hji hall hop hexec e he
    have hstarts : server.Reachable Starts s :=
      hreach.mono (fun _ => Serves.starts) fun _ _ h => h
    rw [nodes_of_added hstarts hji he hop hexec]
    exact hall j e he

/-- What was handed on and what was added is a prefix of the response. -/
theorem Forwards.isPrefix {request : Request} {env : Env} {t : Handler}
    (h : Forwards request env t) :
    (handed t.loader.log).flatten <+: (arrivalOf request env t.stale).response ∧
      (listAdds t.loader.log).flatten <+: (arrivalOf request env t.stale).response := by
  have hnone (hhanded : handed t.loader.log = []) (hadds : listAdds t.loader.log = []) :
      (handed t.loader.log).flatten <+: (arrivalOf request env t.stale).response ∧
        (listAdds t.loader.log).flatten <+: (arrivalOf request env t.stale).response := by
    rw [hhanded, hadds]
    exact ⟨List.nil_prefix, List.nil_prefix⟩
  have hrelays (h : Relays (arrivalOf request env t.stale).response t) :
      (handed t.loader.log).flatten <+: (arrivalOf request env t.stale).response ∧
        (listAdds t.loader.log).flatten <+: (arrivalOf request env t.stale).response :=
    ⟨h.client.passed, h.entry.passed⟩
  unfold Forwards at h
  cases hstage : t.pc.stage <;> rw [hstage] at h
  case idle =>
    have hloader : t.loader = .start request := h
    exact hnone (by rw [hloader]; rfl) (by rw [hloader]; rfl)
  case connected => exact hnone h.1.handed h.1.listAdds
  case requested => exact hnone h.1.handed h.1.listAdds
  case reading => exact hrelays h
  case finished => exact hrelays h

/-- In every run that leaves no gap a client has received a prefix of the response
which the loader of its entry forwards; the bytes an upstream server has received are
a prefix of the request, and all of it exactly if the `send` was not short. -/
theorem noGaps (hs : server.ReachableUnder (Serves request env) (fun s i => uncut s i) s) :
    (∀ i, (s.thread i).received = [] ∨
      ∃ j, (s.thread j).added = some (s.thread i).cacheNode ∧
        (s.thread i).received <+: (arrivalOf (request j) (env j) (s.thread j).stale).response) ∧
    ∀ (reply : Nat → Int) (built : Request) (text : List Byte), buildRequest built = some text →
      Sends.received reply (requestSend reply built).2 <+: text ∧
        ((requestSend reply built).1 = 0 →
          (Sends.received reply (requestSend reply built).2 = text ↔
            ¬ CutShort reply (requestSend reply built).2)) := by
  refine ⟨fun i => ?_, fun reply built text htext => requestSend_spec reply htext⟩
  have hreach := hs.reachable
  have hstarts : server.ReachableUnder Starts (fun s i => findsNext s i) s :=
    hs.mono (fun _ => Serves.starts) fun s i h => (Bool.and_eq_true _ _ ▸ h).1
  have hdelivers := delivers hs i
  have hreceived : (s.thread i).received <+: (s.thread i).sends.flatten :=
    hdelivers.gapless.received_prefix
  have hplaced := (bounded_placed hstarts i).2
  by_cases hadded : (s.thread i).added = none
  · have hloader := loader_of_not_added hreach hadded
    have hsends : (s.thread i).sends = (s.thread i).sent := by
      rw [Handler.sends, hloader]
      rfl
    by_cases hlookup : (s.thread i).pc.role = .lookup
    · left
      rw [Handler.received, hsends, hdelivers.fresh hlookup]
      rfl
    right
    obtain ⟨j, hj⟩ := exists_added hstarts (cacheNode_lt hstarts hlookup)
    refine ⟨j, hj, hreceived.trans ?_⟩
    have hnodes := nodes_eq_listAdds hreach j _ hj
    have hstream := (streams hstarts i).sent_prefix_nodes.flatten
    rw [hnodes] at hstream
    rw [hsends]
    exact hstream.trans (forwards hs j).2.isPrefix.2
  · right
    obtain ⟨e, he⟩ := Option.ne_none_iff_exists'.mp hadded
    refine ⟨i, he.trans (congrArg some (added_spec hstarts he).1.symm), hreceived.trans ?_⟩
    rw [Handler.sends, hdelivers.missed hadded, List.append_nil]
    exact (forwards hs i).2.isPrefix.1

end Runs

/-- Reach a state of a concrete server by a schedule whose steps leave no gap. -/
theorem exists_uncut_runIf {request : Nat → Request} {env : Nat → Env} {schedule : List Nat}
    (goal : State Nat Memory Handler → Prop) [DecidablePred goal]
    (h : (server.runIf uncut (serving request env) schedule).any (fun s => goal s) = true) :
    ∃ s ∈ server.runIf uncut (serving request env) schedule,
      server.ReachableUnder (Serves request env) (fun s i => uncut s i) s ∧ goal s := by
  have hserves : Serves request env (serving request env) := ⟨rfl, fun _ => ⟨.closed, rfl⟩⟩
  exact (Program.ReachableUnder.start hserves).exists_runIf (fun _ _ => id) goal h

/-- Two clients that take the header block and half of the body: one is served by the
loader, the other one from its entry. -/
theorem noGaps_half :
    let env : Env := ⟨(answering plainResponse).hop, fun k => if k = 0 then 19 else 1⟩
    ∃ s ∈ server.runIf uncut (serving (fun _ => plainRequest) fun _ => env)
        (List.replicate 23 0 ++ List.replicate 12 1),
      (s.thread 0).received = bytes "HTTP/1.1 200 OK\r\n\r\na" ∧
        (s.thread 1).received = bytes "HTTP/1.1 200 OK\r\n\r\na" ∧
        ∃ j, (s.thread j).added = some (s.thread 1).cacheNode ∧
          (s.thread 1).received <+: (arrivalOf plainRequest env (s.thread j).stale).response := by
  intro env
  obtain ⟨s, hrun, hs, hloader, hreader⟩ := exists_uncut_runIf
    (fun s => (s.thread 0).received = bytes "HTTP/1.1 200 OK\r\n\r\na" ∧
      (s.thread 1).received = bytes "HTTP/1.1 200 OK\r\n\r\na")
    (by decide +kernel : (server.runIf uncut (serving (fun _ => plainRequest) fun _ => env)
      (List.replicate 23 0 ++ List.replicate 12 1)).any _ = true)
  refine ⟨s, hrun, hloader, hreader, ((noGaps hs).1 1).resolve_left ?_⟩
  rw [hreader]
  decide

/-- A client whose first `send` takes one byte of the header block and whose second
takes the body: the rest of the header block is lost.  A server that takes one byte of
the request, and is reported to have it. -/
theorem shortSend_gap :
    let env : Env := ⟨(answering plainResponse).hop, fun k => if k = 0 then 1 else 2⟩
    (∃ s ∈ server.runIf (fun _ _ => true) (serving (fun _ => plainRequest) fun _ => env)
        (List.replicate 23 0),
      server.Reachable (Serves (fun _ => plainRequest) fun _ => env) s ∧
        (∀ p ∈ (s.thread 0).sends.zipIdx, 1 ≤ env.reply p.2 ∧ env.reply p.2 ≤ p.1.length) ∧
        (s.thread 0).received = bytes "Hab" ∧
        (arrivalOf plainRequest env (s.thread 0).stale).response = plainResponse ∧
        ¬ (s.thread 0).received <+: plainResponse) ∧
      (requestSend (fun _ => 1) plainRequest).1 = 0 ∧
        Sends.received (fun _ => 1) (requestSend (fun _ => 1) plainRequest).2 = bytes "G" ∧
        buildRequest plainRequest ≠ some (bytes "G") := by
  intro env
  refine ⟨exists_serves_runIf (fun s =>
    (∀ p ∈ (s.thread 0).sends.zipIdx, 1 ≤ env.reply p.2 ∧ env.reply p.2 ≤ p.1.length) ∧
      (s.thread 0).received = bytes "Hab" ∧
      (arrivalOf plainRequest env (s.thread 0).stale).response = plainResponse ∧
      ¬ (s.thread 0).received <+: plainResponse) (by decide +kernel), ?_⟩
  decide +kernel

end Proxy
end OperatingSystems
