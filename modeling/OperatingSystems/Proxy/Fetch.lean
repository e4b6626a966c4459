import OperatingSystems.Proxy.Loader

/-!
# What the pieces of the miss path do

One lemma for each piece of `Loader.fetch` and each part of the state that later
results look at: what was handed to the client, what was added to the entry, the
status of the final response.  The loops are described by the bytes that are
left on the upstream socket:

* `bodyLoop_handed`, `bodyLoop_listAdds` — the body loop hands on and caches the
  rest of the stream, unless `buffer_size` is not positive.
* `headerLoop_succ`, `headerLoop_induction` — the rounds of the header loop, by
  the response that is on the upstream socket.
* `connectPhase_connected`, `connectPhase_failed` — the two ends of the first
  connection.
-/

namespace OperatingSystems
namespace Proxy

/-! ### Statuses -/

/-- The status line read last, if no connection was made after it. -/
def finalStatus (log : List Event) : Option Int :=
  log.foldl (fun last e =>
    match e with
    | .connect _ => none
    | .statusLine status => some status
    | _ => last) none

/-- The final response began with a status line with a `2xx` status. -/
def FinalOk (log : List Event) : Prop :=
  ∃ status, finalStatus log = some status ∧ cacheAllowed status = true

/-- An event which is neither a connection nor a status line. -/
def Event.quiet : Event → Bool
  | .connect _ | .statusLine _ => false
  | _ => true

theorem finalStatus_append_quiet (log : List Event) {e : Event} (he : e.quiet = true) :
    finalStatus (log ++ [e]) = finalStatus log := by
  cases e <;> simp_all [finalStatus, Event.quiet]

@[simp] theorem finalStatus_append_connect (log : List Event) (fd : Nat) :
    finalStatus (log ++ [.connect fd]) = none := by
  simp [finalStatus]

/-- A redirect status is not a status that is cached. -/
theorem cacheAllowed_of_isRedirect {status : Int} (h : isRedirect status = true) :
    cacheAllowed status = false := by
  simp only [isRedirect, Bool.and_eq_true, decide_eq_true_eq] at h
  simp only [cacheAllowed, Bool.and_eq_false_iff, decide_eq_false_iff_not]
  omega

namespace Loader

variable {env : Env} {l : Loader} {buffer : List Byte}

/-! ### `send` to the client -/

@[simp] theorem send_conn : (l.send env buffer).conn = l.conn := by
  unfold send; split <;> rfl

@[simp] theorem send_bufferSize : (l.send env buffer).bufferSize = l.bufferSize := by
  unfold send; split <;> rfl

@[simp] theorem send_needToCache : (l.send env buffer).needToCache = l.needToCache := by
  unfold send; split <;> rfl

@[simp] theorem send_request : (l.send env buffer).request = l.request := by
  unfold send; split <;> rfl

@[simp] theorem listAdds_send : listAdds (l.send env buffer).log = listAdds l.log := by
  unfold send; split <;> simp [listAdds]

@[simp] theorem finalStatus_send :
    finalStatus (l.send env buffer).log = finalStatus l.log := by
  unfold send
  split
  · exact finalStatus_append_quiet _ rfl
  · rfl

theorem handed_send :
    handed (l.send env buffer).log = handed l.log ++ if l.clientAlive then [buffer] else [] := by
  unfold send; split <;> simp_all [handed]

theorem send_clientAlive (hreply : ∀ k, 0 < env.reply k) :
    (l.send env buffer).clientAlive = l.clientAlive := by
  unfold send; split <;> simp_all

/-! ### `read_body` and the body loop -/

@[simp] theorem readBody_fst : l.readBody.1 = l.conn.bytes.take l.bufferSize.toNat :=
  Proxy.readBody_fst _ _

@[simp] theorem readBody_conn_bytes :
    l.readBody.2.conn.bytes = l.conn.bytes.drop l.bufferSize.toNat :=
  Proxy.readBody_snd_bytes _ _

@[simp] theorem readBody_clientAlive : l.readBody.2.clientAlive = l.clientAlive := rfl

@[simp] theorem readBody_bufferSize : l.readBody.2.bufferSize = l.bufferSize := rfl

@[simp] theorem readBody_needToCache : l.readBody.2.needToCache = l.needToCache := rfl

@[simp] theorem readBody_request : l.readBody.2.request = l.request := rfl

@[simp] theorem handed_readBody : handed l.readBody.2.log = handed l.log := by
  simp [readBody, handed]

@[simp] theorem listAdds_readBody : listAdds l.readBody.2.log = listAdds l.log := by
  simp [readBody, listAdds]

@[simp] theorem finalStatus_readBody : finalStatus l.readBody.2.log = finalStatus l.log :=
  finalStatus_append_quiet _ rfl

/-- One round of the body loop before the `send`: the block is cached if the
response is. -/
def cacheBlock (l : Loader) (block : List Byte) : Loader :=
  if l.needToCache then l.emit (.listAdd block) else l

theorem bodyLoop_succ (env : Env) (fuel : Nat) (l : Loader) :
    l.bodyLoop env (fuel + 1) =
      if l.readBody.1 = [] then l.readBody.2
      else ((l.readBody.2.cacheBlock l.readBody.1).send env l.readBody.1).bodyLoop env fuel :=
  rfl

@[simp] theorem cacheBlock_conn : (l.cacheBlock buffer).conn = l.conn := by
  unfold cacheBlock; split <;> rfl

@[simp] theorem cacheBlock_bufferSize : (l.cacheBlock buffer).bufferSize = l.bufferSize := by
  unfold cacheBlock; split <;> rfl

@[simp] theorem cacheBlock_needToCache : (l.cacheBlock buffer).needToCache = l.needToCache := by
  unfold cacheBlock; split <;> rfl

@[simp] theorem cacheBlock_request : (l.cacheBlock buffer).request = l.request := by
  unfold cacheBlock; split <;> rfl

@[simp] theorem cacheBlock_clientAlive : (l.cacheBlock buffer).clientAlive = l.clientAlive := by
  unfold cacheBlock; split <;> rfl

@[simp] theorem handed_cacheBlock : handed (l.cacheBlock buffer).log = handed l.log := by
  unfold cacheBlock; split <;> simp [emit, handed]

@[simp] theorem finalStatus_cacheBlock :
    finalStatus (l.cacheBlock buffer).log = finalStatus l.log := by
  unfold cacheBlock
  split
  · exact finalStatus_append_quiet _ rfl
  · rfl

theorem listAdds_cacheBlock :
    listAdds (l.cacheBlock buffer).log =
      listAdds l.log ++ if l.needToCache then [buffer] else [] := by
  unfold cacheBlock; split <;> simp_all [emit, listAdds]

/-- The induction of the body loop: what is kept by a read that ends the loop
and by a round holds after the loop. -/
theorem bodyLoop_induction (env : Env) {motive : Loader → Loader → Prop}
    (stop : ∀ l, motive l l) (last : ∀ l, l.readBody.1 = [] → motive l l.readBody.2)
    (round : ∀ l l', l.readBody.1 ≠ [] →
      motive ((l.readBody.2.cacheBlock l.readBody.1).send env l.readBody.1) l' → motive l l')
    (fuel : Nat) (l : Loader) : motive l (l.bodyLoop env fuel) := by
  induction fuel generalizing l with
  | zero => exact stop l
  | succ fuel ih =>
      rw [bodyLoop_succ]
      by_cases hbody : l.readBody.1 = []
      · rw [if_pos hbody]
        exact last l hbody
      · rw [if_neg hbody]
        exact round l _ hbody (ih _)

/-- Without room in the buffer the body loop forwards and caches nothing. -/
theorem bodyLoop_of_nonpos (hsize : l.bufferSize ≤ 0) (fuel : Nat) :
    l.bodyLoop env (fuel + 1) = l.readBody.2 := by
  have hzero : l.bufferSize.toNat = 0 := by omega
  rw [bodyLoop_succ, if_pos (by simp [hzero])]

/-- A sink which every round of the body loop extends by its block receives the
rest of the stream; `keep` is what the loop must know about its state for that. -/
theorem bodyLoop_flatten (sink : Loader → List (List Byte)) (keep : Loader → Prop)
    (hread : ∀ l, sink l.readBody.2 = sink l)
    (hsink : ∀ l block, keep l →
      sink ((l.readBody.2.cacheBlock block).send env block) = sink l ++ [block])
    (hkeep : ∀ l block, keep l → keep ((l.readBody.2.cacheBlock block).send env block))
    (h : keep l) (hsize : 0 < l.bufferSize) {fuel : Nat} (hfuel : l.conn.bytes.length < fuel) :
    (sink (l.bodyLoop env fuel)).flatten = (sink l).flatten ++ l.conn.bytes := by
  induction fuel generalizing l with
  | zero => omega
  | succ fuel ih =>
      rw [bodyLoop_succ]
      by_cases hbody : l.readBody.1 = []
      · have hempty : l.conn.bytes = [] := by
          rcases List.take_eq_nil_iff.mp (readBody_fst ▸ hbody) with hzero | hnil
          · omega
          · exact hnil
        simp [hempty, hread]
      · have hlength : 0 < l.conn.bytes.length := by
          refine List.length_pos_iff.mpr fun hnil => ?_
          simp [hnil] at hbody
        rw [if_neg hbody, ih (hkeep l _ h) (by simpa using hsize)]
        · rw [hsink l _ h]
          simp
        · simp only [send_conn, cacheBlock_conn, readBody_conn_bytes, List.length_drop]
          omega

/-- The body loop hands the rest of the stream to a client that stays. -/
theorem bodyLoop_handed (hreply : ∀ k, 0 < env.reply k) (halive : l.clientAlive = true)
    (hsize : 0 < l.bufferSize) {fuel : Nat} (hfuel : l.conn.bytes.length < fuel) :
    (handed (l.bodyLoop env fuel).log).flatten = (handed l.log).flatten ++ l.conn.bytes := by
  refine bodyLoop_flatten (fun l => handed l.log) (fun l => l.clientAlive = true)
    (fun _ => handed_readBody) ?_ ?_ halive hsize hfuel
  · intro l block h
    simp [handed_send, h]
  · intro l block h
    simp [send_clientAlive hreply, h]

/-- The body loop caches the rest of the stream of a cached response. -/
theorem bodyLoop_listAdds (hneed : l.needToCache = true) (hsize : 0 < l.bufferSize)
    {fuel : Nat} (hfuel : l.conn.bytes.length < fuel) :
    (listAdds (l.bodyLoop env fuel).log).flatten =
      (listAdds l.log).flatten ++ l.conn.bytes := by
  refine bodyLoop_flatten (fun l => listAdds l.log) (fun l => l.needToCache = true)
    (fun _ => listAdds_readBody) ?_ ?_ hneed hsize hfuel
  · intro l block h
    simp [listAdds_cacheBlock, h]
  · intro l block h
    simpa using h

/-- A response that is not cached adds nothing. -/
theorem bodyLoop_listAdds_of_not_need (hneed : l.needToCache = false) (fuel : Nat) :
    listAdds (l.bodyLoop env fuel).log = listAdds l.log := by
  refine bodyLoop_induction env
    (motive := fun l l' => l.needToCache = false → listAdds l'.log = listAdds l.log)
    (fun _ _ => rfl) (fun l _ _ => listAdds_readBody) ?_ fuel l hneed
  intro l l' _ ih hneed
  rw [ih (by simpa using hneed)]
  simp [listAdds_cacheBlock, hneed]

/-- The body loop does not touch what later decisions read. -/
theorem bodyLoop_keeps (env : Env) (l : Loader) (fuel : Nat) :
    (l.bodyLoop env fuel).needToCache = l.needToCache ∧
      (l.bodyLoop env fuel).request = l.request ∧
      finalStatus (l.bodyLoop env fuel).log = finalStatus l.log := by
  refine bodyLoop_induction env
    (motive := fun l l' => l'.needToCache = l.needToCache ∧ l'.request = l.request ∧
      finalStatus l'.log = finalStatus l.log)
    (fun _ => ⟨rfl, rfl, rfl⟩) (fun l _ => ⟨rfl, rfl, finalStatus_readBody⟩) ?_ fuel l
  rintro l l' _ ⟨hneed, hrequest, hstatus⟩
  exact ⟨by simpa using hneed, by simpa using hrequest, by simpa using hstatus⟩

end Loader

/-! ### A response as the header loop sees it -/

/-- The first line of a response. -/
def statusLineOf (stream : List Byte) : List Byte :=
  firstLine (bufferSize - 1) stream

/-- The status that `parse_http_status` finds in the first line. -/
def statusOf (stream : List Byte) : Int :=
  parseHttpStatus (statusLineOf stream)

/-- The lines after the status line, up to the blank line. -/
def fieldLines (stream : List Byte) : List (List Byte) :=
  let rest := stream.drop (statusLineOf stream).length
  headLines (rest.length + 1) rest

/-- The header block: status line and field lines. -/
def headerBlock (stream : List Byte) : List Byte :=
  statusLineOf stream ++ (fieldLines stream).flatten

/-- What follows the header block. -/
def bodyOf (stream : List Byte) : List Byte :=
  stream.drop (headerBlock stream).length

/-- The `Location` of a redirect response. -/
def locationOf (stream : List Byte) : Option (List Byte) :=
  lastSet (locationLine (statusOf stream)) (fieldLines stream)

/-- The `buffer_size` that the `Content-Length` lines of a response set. -/
def declaredBuffer (stream : List Byte) : Option Int :=
  lastSet contentLengthLine (fieldLines stream)

theorem statusLineOf_eq_nil_iff (stream : List Byte) : statusLineOf stream = [] ↔ stream = [] :=
  firstLine_eq_nil_iff (by decide) stream

theorem firstLine_prefix_self (n : Nat) (stream : List Byte) : firstLine n stream <+: stream := by
  have h := readLineLoop_spec n ⟨stream, []⟩
  rw [h.1] at h
  exact ⟨_, h.2⟩

theorem flatten_headLines_prefix_self (fuel : Nat) (stream : List Byte) :
    (headLines fuel stream).flatten <+: stream :=
  ⟨_, (headerLines_spec fuel 0 ⟨stream, []⟩ ⟨[], none, 0⟩).2⟩

/-- A response is its header block followed by its body. -/
theorem headerBlock_append_bodyOf (stream : List Byte) :
    headerBlock stream ++ bodyOf stream = stream := by
  have hfirst : statusLineOf stream ++ stream.drop (statusLineOf stream).length = stream :=
    (List.prefix_iff_eq_append.mp (firstLine_prefix_self _ stream))
  have hblock : headerBlock stream <+: stream := by
    conv_rhs => rw [← hfirst]
    exact (List.prefix_append_right_inj _).mpr (flatten_headLines_prefix_self _ _)
  exact List.prefix_iff_eq_append.mp hblock

namespace Loader

variable {env : Env} {l : Loader}

/-- The state after the header block of a response has been read. -/
def readResponse (l : Loader) : Loader :=
  (l.readStatusLine.2.readHead l.readStatusLine.1).2

theorem readStatusLine_fst : l.readStatusLine.1 = statusLineOf l.conn.bytes :=
  readLine_fst _ _

theorem readStatusLine_conn_bytes :
    l.readStatusLine.2.conn.bytes = l.conn.bytes.drop (statusLineOf l.conn.bytes).length := by
  have h := readLine_append l.conn Proxy.bufferSize
  rw [readLine_fst] at h
  have hdrop := congrArg (List.drop (statusLineOf l.conn.bytes).length) h
  rw [statusLineOf, List.drop_left] at hdrop
  exact hdrop

/-- The header loop collects the header block and the last `Location`. -/
theorem readHead_fst :
    (l.readStatusLine.2.readHead l.readStatusLine.1).1 =
      { headers := headerBlock l.conn.bytes
        location := locationOf l.conn.bytes
        bufferSize := (declaredBuffer l.conn.bytes).getD l.bufferSize } := by
  unfold readHead
  simp only
  rw [(headerLines_spec _ _ _ _).1]
  simp only [readStatusLine_conn_bytes, readStatusLine_fst]
  rw [Head.mk.injEq]
  exact ⟨rfl, Option.or_none, rfl⟩

@[simp] theorem readResponse_conn_bytes : l.readResponse.conn.bytes = bodyOf l.conn.bytes := by
  have hlines : (fieldLines l.conn.bytes).flatten ++ l.readResponse.conn.bytes =
      l.conn.bytes.drop (statusLineOf l.conn.bytes).length := by
    have h := (headerLines_spec (l.readStatusLine.2.conn.bytes.length + 1)
      (parseHttpStatus l.readStatusLine.1) l.readStatusLine.2.conn
      ⟨l.readStatusLine.1, none, l.readStatusLine.2.bufferSize⟩).2
    have hconn : (headerLines (l.readStatusLine.2.conn.bytes.length + 1)
        (parseHttpStatus l.readStatusLine.1) l.readStatusLine.2.conn
        ⟨l.readStatusLine.1, none, l.readStatusLine.2.bufferSize⟩).2 = l.readResponse.conn := rfl
    rw [hconn, readStatusLine_conn_bytes] at h
    exact h
  have hfirst : statusLineOf l.conn.bytes ++
      l.conn.bytes.drop (statusLineOf l.conn.bytes).length = l.conn.bytes :=
    List.prefix_iff_eq_append.mp (firstLine_prefix_self _ _)
  have hall : headerBlock l.conn.bytes ++ l.readResponse.conn.bytes = l.conn.bytes := by
    rw [headerBlock, List.append_assoc, hlines, hfirst]
  exact List.append_cancel_left (hall.trans (headerBlock_append_bodyOf _).symm)

@[simp] theorem readResponse_bufferSize :
    l.readResponse.bufferSize = (declaredBuffer l.conn.bytes).getD l.bufferSize :=
  congrArg Head.bufferSize readHead_fst

@[simp] theorem readResponse_needToCache :
    l.readResponse.needToCache = cacheAllowed (statusOf l.conn.bytes) := by
  simp only [readResponse, readHead, readStatusLine_fst, statusOf]

theorem readResponse_log :
    l.readResponse.log =
      l.log ++ [.recv l.targetSocket, .statusLine (statusOf l.conn.bytes),
        .recv l.targetSocket] := by
  simp [readResponse, readHead, readStatusLine, statusOf, statusLineOf]

/-- The loader at the start of the round after a followed redirect. -/
def nextHop (env : Env) (l : Loader) (location : List Byte) : Loader :=
  { (l.readResponse.follow env location).requestSend with
    redirects := (l.readResponse.follow env location).redirects + 1 }

theorem readStatusLine_eq_nil (l : Loader) :
    (l.readStatusLine.1 = []) = (l.conn.bytes = []) := by
  rw [readStatusLine_fst, statusLineOf_eq_nil_iff]

theorem parseHttpStatus_readStatusLine (l : Loader) :
    parseHttpStatus l.readStatusLine.1 = statusOf l.conn.bytes := by
  rw [readStatusLine_fst, statusOf]

/-- One round of the header loop, by the response on the upstream socket. -/
theorem headerLoop_succ (env : Env) (n : Nat) (l : Loader) :
    l.headerLoop env (n + 1) =
      if l.conn.bytes = [] then (l.readStatusLine.2, none)
      else if isRedirect (statusOf l.conn.bytes) = false then
        (l.readResponse.send env (headerBlock l.conn.bytes),
          if cacheAllowed (statusOf l.conn.bytes) then some (headerBlock l.conn.bytes) else none)
      else
        match locationOf l.conn.bytes with
        | none => (l.readResponse, none)
        | some location =>
            if (l.readResponse.follow env location).targetSocket.isNone then
              (l.readResponse.follow env location, none)
            else headerLoop env n (l.nextHop env location) := by
  have hresponse : (l.readStatusLine.2.readHead l.readStatusLine.1).2 = l.readResponse := rfl
  conv_lhs => unfold headerLoop
  simp only [readStatusLine_eq_nil, parseHttpStatus_readStatusLine, hresponse, readHead_fst,
    send_needToCache, readResponse_needToCache, Bool.not_eq_true']
  rfl

/-- The induction of the header loop, with one case for each way a round ends. -/
theorem headerLoop_induction (env : Env)
    {motive : Nat → Loader → Loader × Option (List Byte) → Prop}
    (rounds : ∀ l, motive 0 l (l, none))
    (closed : ∀ n l, l.conn.bytes = [] → motive (n + 1) l (l.readStatusLine.2, none))
    (answered : ∀ n l, l.conn.bytes ≠ [] → isRedirect (statusOf l.conn.bytes) = false →
      motive (n + 1) l (l.readResponse.send env (headerBlock l.conn.bytes),
        if cacheAllowed (statusOf l.conn.bytes) then some (headerBlock l.conn.bytes) else none))
    (noLocation : ∀ n l, isRedirect (statusOf l.conn.bytes) = true →
      locationOf l.conn.bytes = none → motive (n + 1) l (l.readResponse, none))
    (unreachable : ∀ n l location, isRedirect (statusOf l.conn.bytes) = true →
      locationOf l.conn.bytes = some location →
      (l.readResponse.follow env location).targetSocket = none →
      motive (n + 1) l (l.readResponse.follow env location, none))
    (followed : ∀ n l location result, isRedirect (statusOf l.conn.bytes) = true →
      locationOf l.conn.bytes = some location →
      (l.readResponse.follow env location).targetSocket ≠ none →
      motive n (l.nextHop env location) result → motive (n + 1) l result)
    (n : Nat) (l : Loader) : motive n l (l.headerLoop env n) := by
  induction n generalizing l with
  | zero => exact rounds l
  | succ n ih =>
      rw [headerLoop_succ]
      by_cases hempty : l.conn.bytes = []
      · rw [if_pos hempty]
        exact closed n l hempty
      · rw [if_neg hempty]
        by_cases hredirect : isRedirect (statusOf l.conn.bytes) = false
        · rw [if_pos hredirect]
          exact answered n l hempty hredirect
        · rw [if_neg hredirect]
          rw [Bool.not_eq_false] at hredirect
          cases hlocation : locationOf l.conn.bytes with
          | none => exact noLocation n l hredirect hlocation
          | some location =>
              cases htarget : (l.readResponse.follow env location).targetSocket with
              | none => simpa [htarget] using unreachable n l location hredirect hlocation htarget
              | some fd =>
                  refine followed n l location _ hredirect hlocation (by simp [htarget]) ?_
                  simpa [htarget] using ih (l.nextHop env location)

end Loader

/-! ### The first connection -/

/-- The first connection is made and takes the request. -/
def Connected (env : Env) (request : Request) : Prop :=
  (hostPort request).isSome = true ∧ (env.hop 0).reachable = true ∧
    (buildRequest request).isSome = true ∧ (env.hop 0).takesRequest = true

instance (env : Env) (request : Request) : Decidable (Connected env request) :=
  inferInstanceAs (Decidable (_ ∧ _ ∧ _ ∧ _))

namespace Loader

variable {env : Env} {request : Request}

/-- After a successful connection phase the header loop starts on the response
of the first peer. -/
theorem connectPhase_connected (h : Connected env request) :
    ∃ text, connectPhase env request =
      { start request with
        targetSocket := some 0
        conn := (env.hop 0).response
        attempts := 1
        log := [.connect 0, .sendRequest (some 0) text] } := by
  obtain ⟨hhost, hreachable, hbuild, htakes⟩ := h
  obtain ⟨text, htext⟩ := Option.isSome_iff_exists.mp hbuild
  refine ⟨text, ?_⟩
  simp [connectPhase, httpConnect, start, hhost, hreachable, requestSent, requestSend, htext,
    htakes, emit]

/-- After a failed connection phase there is nothing to read. -/
theorem connectPhase_failed (h : ¬ Connected env request) :
    ∃ target log, connectPhase env request =
        { start request with targetSocket := target, attempts := 1, log := log } ∧
      finalStatus log = none ∧ handed log = [] ∧ listAdds log = [] := by
  unfold Connected at h
  by_cases hreach : (hostPort request).isSome = true ∧ (env.hop 0).reachable = true
  · obtain ⟨hhost, hreachable⟩ := hreach
    cases htext : buildRequest request with
    | none =>
        refine ⟨some 0, [.connect 0, .close (some 0), .complete], ?_, rfl, rfl, rfl⟩
        simp [connectPhase, httpConnect, start, hhost, hreachable, requestSent, requestSend,
          htext, emit, closeTarget]
    | some text =>
        have htakes : (env.hop 0).takesRequest = false := by
          simpa [hhost, hreachable, htext] using h
        refine ⟨some 0, [.connect 0, .sendRequest (some 0) text, .close (some 0), .complete],
          ?_, rfl, rfl, rfl⟩
        simp [connectPhase, httpConnect, start, hhost, hreachable, requestSent, requestSend,
          htext, htakes, emit, closeTarget]
  · have hfail : ((hostPort request).isSome && (env.hop 0).reachable) = false := by
      simpa [Bool.and_eq_true] using hreach
    cases htext : buildRequest request with
    | none =>
        refine ⟨none, [.complete, .close none, .complete], ?_, rfl, rfl, rfl⟩
        simp [connectPhase, httpConnect, start, hfail, requestSent, requestSend, htext, emit,
          closeTarget]
    | some text =>
        refine ⟨none, [.complete, .sendRequest none text, .close none, .complete],
          ?_, rfl, rfl, rfl⟩
        simp [connectPhase, httpConnect, start, hfail, requestSent, requestSend, htext, emit,
          closeTarget]

end Loader
end Proxy
end OperatingSystems
