import OperatingSystems.Proxy.Arrays
import OperatingSystems.Proxy.ReadHeader

/-!
# How the transport cuts the streams does not matter

Two runs of `client_handler` that differ in the cuts only: on the connection of the client and
on every connection to an upstream server.

* `Recut` — two states of the miss path with the same bytes left to read.  Every piece of the
  miss path keeps it, and does the same in both states.
* `serveWithin_recut` — the two runs parse the same request and do the same, or both store behind
  the end of an array.
* `segmentation_iff` — the first exactly when the arrays have room.
-/

namespace OperatingSystems
namespace Proxy

/-- The same outside world, with the responses cut in another way. -/
structure SameStreams (env env' : Env) : Prop where
  reachable : ∀ k, (env'.hop k).reachable = (env.hop k).reachable
  takesRequest : ∀ k, (env'.hop k).takesRequest = (env.hop k).takesRequest
  response : ∀ k, (env'.hop k).response.bytes = (env.hop k).response.bytes
  reply : ∀ k, env'.reply k = env.reply k

/-! ### The readers -/

section Readers

variable {s s' : Socket}

theorem readLine_recut (h : s'.bytes = s.bytes) (maxLen : Nat) :
    (readLine s' maxLen).1 = (readLine s maxLen).1 ∧
      (readLine s' maxLen).2.bytes = (readLine s maxLen).2.bytes := by
  have hfst : (readLine s' maxLen).1 = (readLine s maxLen).1 := by
    rw [readLine_fst, readLine_fst, h]
  have happend := readLine_append s maxLen
  rw [← h, ← readLine_append s' maxLen, hfst, List.append_cancel_left_eq] at happend
  exact ⟨hfst, happend.symm⟩

theorem readBody_recut (h : s'.bytes = s.bytes) (maxBuffer : Int) :
    (readBody s' maxBuffer).1 = (readBody s maxBuffer).1 ∧
      (readBody s' maxBuffer).2.bytes = (readBody s maxBuffer).2.bytes := by
  rw [readBody_fst, readBody_fst, readBody_snd_bytes, readBody_snd_bytes, h]
  exact ⟨rfl, rfl⟩

theorem headerLines_recut (h : s'.bytes = s.bytes) (fuel : Nat) (status : Int) (head : Head) :
    (headerLines fuel status s' head).1 = (headerLines fuel status s head).1 ∧
      (headerLines fuel status s' head).2.bytes = (headerLines fuel status s head).2.bytes := by
  obtain ⟨hhead, hbytes⟩ := headerLines_spec fuel status s head
  obtain ⟨hhead', hbytes'⟩ := headerLines_spec fuel status s' head
  rw [h] at hhead' hbytes'
  exact ⟨hhead'.trans hhead.symm, List.append_cancel_left (hbytes'.trans hbytes.symm)⟩

/-- The same request is parsed. -/
theorem readHeader_recut (h : s'.bytes = s.bytes) (version : Version) :
    (readHeader version s').1 = (readHeader version s).1 := by
  rw [readHeader_spec, readHeader_spec, h]

end Readers

/-! ### The miss path -/

namespace Loader

/-- The state `l'` is `l` with the bytes of its connection cut in another way. -/
def Recut (l l' : Loader) : Prop :=
  ∃ s : Socket, s.bytes = l.conn.bytes ∧ l' = { l with conn := s }

variable {env env' : Env} {l l' : Loader}

theorem Recut.refl (l : Loader) : l.Recut l :=
  ⟨l.conn, rfl, rfl⟩

theorem Recut.log (h : l.Recut l') : l'.log = l.log := by
  obtain ⟨s, -, rfl⟩ := h
  rfl

theorem Recut.bytes (h : l.Recut l') : l'.conn.bytes = l.conn.bytes := by
  obtain ⟨s, hs, rfl⟩ := h
  exact hs

theorem Recut.emit (h : l.Recut l') (e : Event) : (l.emit e).Recut (l'.emit e) := by
  obtain ⟨s, hs, rfl⟩ := h
  exact ⟨s, hs, rfl⟩

theorem Recut.send (h : l.Recut l') (henv : SameStreams env env') (buffer : List Byte) :
    (l.send env buffer).Recut (l'.send env' buffer) := by
  obtain ⟨s, hs, rfl⟩ := h
  unfold Loader.send
  split
  · exact ⟨s, hs, by simp [henv.reply]⟩
  · exact ⟨s, hs, rfl⟩

theorem Recut.requestSend (h : l.Recut l') : l.requestSend.Recut l'.requestSend := by
  obtain ⟨s, hs, rfl⟩ := h
  unfold Loader.requestSend
  cases buildRequest l.request with
  | none => exact ⟨s, hs, rfl⟩
  | some text => exact ⟨s, hs, rfl⟩

theorem Recut.requestSent (h : l.Recut l') (henv : SameStreams env env') :
    l'.requestSent env' = l.requestSent env := by
  obtain ⟨s, -, rfl⟩ := h
  unfold Loader.requestSent
  simp only [henv.takesRequest]

theorem Recut.closeTarget (h : l.Recut l') : l.closeTarget.Recut l'.closeTarget := by
  obtain ⟨s, -, rfl⟩ := h
  exact Recut.refl _

theorem Recut.httpConnect (h : l.Recut l') (henv : SameStreams env env') :
    (l.httpConnect env).Recut (l'.httpConnect env') := by
  obtain ⟨s, -, rfl⟩ := h
  unfold Loader.httpConnect
  simp only [henv.reachable]
  split
  · exact ⟨_, henv.response l.attempts, rfl⟩
  · exact Recut.refl _

theorem Recut.readStatusLine (h : l.Recut l') :
    l'.readStatusLine.1 = l.readStatusLine.1 ∧ l.readStatusLine.2.Recut l'.readStatusLine.2 := by
  obtain ⟨s, hs, rfl⟩ := h
  obtain ⟨hline, hrest⟩ := readLine_recut hs Proxy.bufferSize
  exact ⟨hline, _, hrest, rfl⟩

theorem Recut.readHead (h : l.Recut l') (statusLine : List Byte) :
    (l'.readHead statusLine).1 = (l.readHead statusLine).1 ∧
      (l.readHead statusLine).2.Recut (l'.readHead statusLine).2 := by
  obtain ⟨s, hs, rfl⟩ := h
  obtain ⟨hhead, hrest⟩ := headerLines_recut hs (l.conn.bytes.length + 1)
    (parseHttpStatus statusLine) ⟨statusLine, none, l.bufferSize⟩
  unfold Loader.readHead
  simp only [hs]
  exact ⟨hhead, _, hrest, by simp [hhead]⟩

theorem Recut.readBody (h : l.Recut l') :
    l'.readBody.1 = l.readBody.1 ∧ l.readBody.2.Recut l'.readBody.2 := by
  obtain ⟨s, hs, rfl⟩ := h
  obtain ⟨hbody, hrest⟩ := readBody_recut hs l.bufferSize
  exact ⟨hbody, _, hrest, rfl⟩

theorem Recut.follow (h : l.Recut l') (henv : SameStreams env env') (location : List Byte) :
    (l.follow env location).Recut (l'.follow env' location) := by
  obtain ⟨s, -, rfl⟩ := h
  exact (Recut.refl _).httpConnect henv

theorem Recut.needToCache (h : l.Recut l') : l'.needToCache = l.needToCache := by
  obtain ⟨s, -, rfl⟩ := h
  rfl

theorem Recut.targetSocket (h : l.Recut l') : l'.targetSocket = l.targetSocket := by
  obtain ⟨s, -, rfl⟩ := h
  rfl

theorem Recut.request (h : l.Recut l') : l'.request = l.request := by
  obtain ⟨s, -, rfl⟩ := h
  rfl

/-- The request to the next server is sent, and the redirect counted. -/
theorem Recut.redirect (h : l.Recut l') :
    { l.requestSend with redirects := l.redirects + 1 }.Recut
      { l'.requestSend with redirects := l'.redirects + 1 } := by
  obtain ⟨s, hs, rfl⟩ := h
  unfold Loader.requestSend
  cases buildRequest l.request with
  | none => exact ⟨s, hs, rfl⟩
  | some text => exact ⟨s, hs, rfl⟩

/-- Every round of the header loop does the same in both states. -/
theorem Recut.headerLoop (h : l.Recut l') (henv : SameStreams env env') (n : Nat) :
    (l.headerLoop env n).1.Recut (l'.headerLoop env' n).1 ∧
      (l'.headerLoop env' n).2 = (l.headerLoop env n).2 := by
  induction n generalizing l l' with
  | zero => exact ⟨h, rfl⟩
  | succ n ih =>
      obtain ⟨hline, hread⟩ := h.readStatusLine
      obtain ⟨hhead, hhead'⟩ := hread.readHead l.readStatusLine.1
      have hsent := hhead'.send henv (l.readStatusLine.2.readHead l.readStatusLine.1).1.headers
      rw [Loader.headerLoop, Loader.headerLoop]
      simp only [hline, hhead]
      split
      · exact ⟨hread, rfl⟩
      · split
        · exact ⟨hsent, by rw [hsent.needToCache]⟩
        · split
          · exact ⟨hhead', rfl⟩
          · next location _ =>
            have hnext := hhead'.follow henv location
            rw [hnext.targetSocket]
            split
            · exact ⟨hnext, rfl⟩
            · exact ih hnext.redirect

theorem Recut.bodyLoop (h : l.Recut l') (henv : SameStreams env env') (fuel : Nat) :
    (l.bodyLoop env fuel).Recut (l'.bodyLoop env' fuel) := by
  induction fuel generalizing l l' with
  | zero => exact h
  | succ fuel ih =>
      obtain ⟨hbody, hread⟩ := h.readBody
      rw [Loader.bodyLoop, Loader.bodyLoop]
      simp only [hbody, hread.needToCache]
      split
      · exact hread
      · refine ih (Recut.send ?_ henv _)
        split
        · exact hread.emit _
        · exact hread

/-- The request has been sent, or the connection is closed. -/
theorem Recut.sendOrClose (h : l.Recut l') (henv : SameStreams env env') :
    (if l.requestSent env then l.requestSend
      else l.requestSend.closeTarget.emit .complete).Recut
      (if l'.requestSent env' then l'.requestSend
        else l'.requestSend.closeTarget.emit .complete) := by
  rw [h.requestSent henv]
  split
  · exact h.requestSend
  · exact h.requestSend.closeTarget.emit _

theorem connectPhase_recut (henv : SameStreams env env') (request : Request) :
    (connectPhase env request).Recut (connectPhase env' request) := by
  have hconnect := (Recut.refl (start request)).httpConnect henv
  refine Recut.sendOrClose ?_ henv
  rw [hconnect.targetSocket]
  split
  · exact hconnect.emit _
  · exact hconnect

theorem Recut.addHeaders {result result' : Loader × Option (List Byte)}
    (h : result.1.Recut result'.1) (hheaders : result'.2 = result.2) :
    (addHeaders result).Recut (addHeaders result') := by
  obtain ⟨l, headers⟩ := result
  obtain ⟨l', headers'⟩ := result'
  simp only at h hheaders
  subst hheaders
  cases headers' with
  | none => exact h
  | some headers => exact h.emit _

/-- The two runs of the miss path end in the same state, with the same log. -/
theorem fetch_recut (henv : SameStreams env env') (request : Request) :
    (fetch env request).Recut (fetch env' request) := by
  obtain ⟨hloop, hheaders⟩ := (connectPhase_recut henv request).headerLoop henv maxRedirects
  have hadd := hloop.addHeaders hheaders
  have hlength := congrArg List.length hadd.bytes
  unfold fetch
  simp only [hlength]
  exact ((hadd.bodyLoop henv _).closeTarget).emit _

end Loader

theorem missPath_recut {env env' : Env} (henv : SameStreams env env') (map : CacheMap)
    (request : Request) : missPath env' map request = missPath env map request := by
  have hfetch := Loader.fetch_recut henv request
  unfold missPath
  simp only [hfetch.log, hfetch.needToCache, hfetch.request]

theorem streamNodes_recut {env env' : Env} (henv : SameStreams env env') (k : Nat)
    (nodes : List (List Byte)) : streamNodes env' k nodes = streamNodes env k nodes := by
  induction nodes generalizing k with
  | nil => rfl
  | cons value rest ih => rw [streamNodes, streamNodes, henv.reply, ih]

/-- `client_handler` with its `read_header`: the request that it accepts and what it does with
it, `none` if it closes the connection instead. -/
def serve (version : Version) (client : Socket) (env : Env) (map : CacheMap) :
    Option (Request × Option Outcome) :=
  ((readHeader version client).1.bind HeaderRequest.accepted).map fun request =>
    (request, clientHandler env map request)

theorem streamAt_recut {env env' : Env} (henv : SameStreams env env') (k : Nat)
    (request : Request) : streamAt env' k request = streamAt env k request := by
  cases k with
  | zero =>
      have hconnected : Connected env' request ↔ Connected env request := by
        rw [Connected, Connected, henv.reachable, henv.takesRequest]
      simp only [streamAt, hconnected, henv.response]
  | succ k => simp only [streamAt, henv.reachable, henv.response]

theorem arraysFit_recut {env env' : Env} (henv : SameStreams env env') (request : Request) :
    ArraysFit env' request ↔ ArraysFit env request :=
  ArraysFit.congr (streamAt_recut henv) request

theorem clientHandlerWithin_recut {env env' : Env} (henv : SameStreams env env') (map : CacheMap)
    (request : Request) :
    clientHandlerWithin env' map request = clientHandlerWithin env map request := by
  by_cases hpath : request.method = .get ∧ mapFindByUrl map request.searchPath = none
  · obtain ⟨hget, hmiss⟩ := hpath
    by_cases hfits : ArraysFit env request
    · have hfits' := (arraysFit_recut henv request).mpr hfits
      rw [(clientHandlerWithin_miss hget hmiss).mpr ⟨rfl, hfits⟩,
        (clientHandlerWithin_miss hget hmiss).mpr ⟨rfl, hfits'⟩, missPath_recut henv]
    · have hfits' := mt (arraysFit_recut henv request).mp hfits
      rw [clientHandlerWithin_eq_overruns_iff.mpr ⟨hget, hmiss, hfits⟩,
        clientHandlerWithin_eq_overruns_iff.mpr ⟨hget, hmiss, hfits'⟩]
  · unfold clientHandlerWithin
    by_cases hget : request.method = .get
    · simp only [hget, ne_eq, not_true_eq_false, if_false, streamNodes_recut henv]
      cases hfind : mapFindByUrl map request.searchPath with
      | some entry => rfl
      | none => exact absurd ⟨hget, hfind⟩ hpath
    · simp [hget]

/-- The request that `read_header` returns, when `client_handler` does not close the connection
for it. -/
def acceptedRequest (version : Version) (client : Socket) : Option Request :=
  (readHeader version client).1.bind HeaderRequest.accepted

/-- `serve` on the arrays of the miss path. -/
def serveWithin (version : Version) (client : Socket) (env : Env) (map : CacheMap) :
    Option (Request × HandlerRun) :=
  (acceptedRequest version client).map fun request =>
    (request, clientHandlerWithin env map request)

/-- However the client's bytes and the bytes of the upstream servers are cut, `client_handler`
parses the same request, connects, sends and caches the same in the same order, and leaves the
same map; or it stores behind the end of an array, however they are cut. -/
theorem serveWithin_recut {version : Version} {client client' : Socket} {env env' : Env}
    (hclient : client'.bytes = client.bytes) (henv : SameStreams env env') (map : CacheMap) :
    serveWithin version client' env' map = serveWithin version client env map := by
  unfold serveWithin acceptedRequest
  rw [readHeader_recut hclient]
  simp only [clientHandlerWithin_recut henv]

/-- For every byte stream of the client, every byte stream of the upstream servers and every two
ways to cut them: the two runs do the same, and what they do is defined, if and only if everything
that the miss path stores fits in its arrays, should the request take it. -/
theorem segmentation_iff {version : Version} {client client' : Socket} {env env' : Env}
    (hclient : client'.bytes = client.bytes) (henv : SameStreams env env') (map : CacheMap) :
    (serveWithin version client' env' map = serveWithin version client env map ∧
        ∀ request, serveWithin version client env map ≠ some (request, .overruns)) ↔
      ∀ request, acceptedRequest version client = some request → request.method = .get →
        mapFindByUrl map request.searchPath = none → ArraysFit env request := by
  refine (and_iff_right (serveWithin_recut hclient henv map)).trans ?_
  unfold serveWithin
  cases acceptedRequest version client with
  | none => simp
  | some request =>
      have hoverruns := @clientHandlerWithin_eq_overruns_iff env map request
      simp only [Option.map_some, ne_eq, Option.some.injEq, Prod.mk.injEq, forall_eq']
      constructor
      · intro hdefined hget hmiss
        by_contra hnot
        exact hdefined request ⟨rfl, hoverruns.mpr ⟨hget, hmiss, hnot⟩⟩
      · rintro hfits _ ⟨rfl, hrun⟩
        obtain ⟨hget, hmiss, hnot⟩ := hoverruns.mp hrun
        exact hnot (hfits hget hmiss)

/-- A request for `http://a/` in version 1.0. -/
def plainText : List Byte :=
  bytes "GET http://a/ HTTP/1.0\r\nHost: a\r\n\r\n"

theorem acceptedRequest_plainText :
    acceptedRequest .invalid ⟨plainText, []⟩ = some { plainRequest with version := .http10 } := by
  decide +kernel

/-- The response `plainResponse`, in pieces of three bytes. -/
def inPieces : Env where
  hop := fun _ => ⟨true, true, ⟨plainResponse, List.replicate 9 2⟩⟩
  reply := fun _ => 1

/-- The request byte by byte and the response in pieces of three bytes. -/
theorem segmentation_bytewise :
    serveWithin .invalid ⟨plainText, List.replicate 40 0⟩ inPieces [] =
      serveWithin .invalid ⟨plainText, []⟩ (answering plainResponse) [] ∧
    ∀ request, serveWithin .invalid ⟨plainText, []⟩ (answering plainResponse) [] ≠
      some (request, .overruns) := by
  have hsame : SameStreams (answering plainResponse) inPieces :=
    ⟨fun _ => rfl, fun _ => rfl, fun _ => rfl, fun _ => rfl⟩
  refine (@segmentation_iff .invalid ⟨plainText, []⟩ ⟨plainText, List.replicate 40 0⟩ _ _ rfl
    hsame []).mpr fun request hrequest _ _ => ?_
  obtain rfl := Option.some.inj (acceptedRequest_plainText.symm.trans hrequest)
  decide +kernel

/-- A response of one byte more than `body_buf` has, cut in two ways: `read_body` stores behind the
end of the array. -/
theorem segmentation_overruns :
    let stream := wrappingResponse (List.replicate 8193 97)
    let client : Socket := ⟨bytes "GET http://a/ HTTP/1.1\r\nHost: a\r\n\r\n", []⟩
    SameStreams (answering stream)
        { answering stream with hop := fun _ => ⟨true, true, ⟨stream, [100]⟩⟩ } ∧
      serveWithin .invalid client (answering stream) [] = some (plainRequest, .overruns) := by
  intro stream client
  refine ⟨⟨fun _ => rfl, fun _ => rfl, fun _ => rfl, fun _ => rfl⟩, ?_⟩
  have haccepted : acceptedRequest .invalid client = some plainRequest := by decide +kernel
  have hrun : clientHandlerWithin (answering stream) [] plainRequest = .overruns := by
    refine clientHandlerWithin_eq_overruns_iff.mpr ⟨rfl, rfl, not_arraysFit_wrappingResponse ?_⟩
    rw [List.length_replicate]
    decide
  rw [serveWithin, haccepted, Option.map_some, hrun]

end Proxy
end OperatingSystems
