import Mathlib.Data.List.Infix
import OperatingSystems.Proxy.Arrays

/-!
# What the client of a miss receives

Three results about the bytes that a single fetch hands on and caches, and about
when it stays inside its arrays:

* `clientHandler_forwards_iff` — a response that is not followed as a redirect is
  forwarded byte for byte exactly when its status is not a redirect status and
  `buffer_size` has room for its body.  A `3xx` response without a `Location`
  loses its header block.
* `hopIsolation_iff` — two redirect chains to the same response forward and cache
  the same bytes exactly when the arrays have room and the `buffer_size` that the
  chains leave behind does not matter or has the same sign.
* `cached_eq_served_iff` — the entry of a `2xx` response does not depend on the
  client, and the client was handed what is cached, as far as it stayed, exactly
  when the arrays have room.
-/

namespace OperatingSystems
namespace Proxy

/-! ### Transparent forwarding -/

/-- A positive `Content-Length` makes room for at least one byte. -/
theorem contentBuffer_pos {line : List Byte} (h : 0 < atoll (line.drop 16)) :
    0 < contentBuffer line := by
  unfold contentBuffer
  by_cases hlarge : atoll (line.drop 16) < (bufferSize : Int)
  · have hbound : (bufferSize : Int) < 2 ^ 31 := by decide
    simp only [hlarge, if_true]
    rw [toInt32_of_range] <;> omega
  · simp only [hlarge, if_false]
    decide

/-- The body loop forwards the body of a response that comes first. -/
def HasRoom (stream : List Byte) : Prop :=
  let size := (declaredBuffer stream).getD bufferSize
  bodyOf stream = [] ∨ 0 < size ∧ BodyFits size (bodyOf stream)

instance (stream : List Byte) : Decidable (HasRoom stream) :=
  inferInstanceAs (Decidable (_ ∨ _))

/-- A `Content-Length` is not larger than the buffer, unless it wraps. -/
theorem contentBuffer_le {line : List Byte} (h : 0 < atoll (line.drop 16)) :
    contentBuffer line ≤ bufferSize := by
  unfold contentBuffer
  by_cases hlarge : atoll (line.drop 16) < (bufferSize : Int)
  · have hbound : (bufferSize : Int) < 2 ^ 31 := by decide
    simp only [hlarge, if_true]
    rw [toInt32_of_range] <;> omega
  · simp only [hlarge, if_false]
    decide

/-- There is room when every `Content-Length` is positive. -/
theorem hasRoom_of_positive {stream : List Byte} (hlength : ∀ line ∈ fieldLines stream,
    startsWith (bytes "Content-Length: ") line = true → 0 < atoll (line.drop 16)) :
    HasRoom stream := by
  refine .inr ?_
  cases hdeclared : declaredBuffer stream with
  | none => exact ⟨by decide, .inl (Int.le_refl _)⟩
  | some size =>
      obtain ⟨line, hmem, hset⟩ :=
        List.mem_filterMap.mp (List.mem_of_getLast? hdeclared)
      simp only [contentLengthLine, Option.ite_none_right_eq_some, Option.some.injEq] at hset
      obtain ⟨hstarts, rfl⟩ := hset
      have hpos := hlength line hmem hstarts
      exact ⟨contentBuffer_pos hpos, .inl (contentBuffer_le hpos)⟩

theorem headerBlock_ne_nil {stream : List Byte} (hstream : stream ≠ []) :
    headerBlock stream ≠ [] := by
  intro hnil
  have hline := (List.append_eq_nil_iff.mp hnil).1
  exact hstream ((statusLineOf_eq_nil_iff stream).mp hline)

namespace Loader

variable {env : Env} {request : Request}

/-- Without a redirect the trail is the first response. -/
theorem finalTrail_of_not_followed
    (hfollow : locationOf (streamAt env 0 request) = none) :
    finalTrail env request = ⟨0, request, []⟩ :=
  trail_of_locationOf_none hfollow _

/-- A `3xx` response without a `Location` reaches the body loop with its header
block neither forwarded nor cached. -/
theorem headPhase_of_no_location (hconnected : Connected env request)
    (hredirect : isRedirect (statusOf (env.hop 0).response.bytes) = true)
    (hlocation : locationOf (env.hop 0).response.bytes = none) :
    headPhase env request = (connectPhase env request).readResponse := by
  obtain ⟨text, heq⟩ := connectPhase_connected hconnected
  have hconn : (connectPhase env request).conn.bytes = (env.hop 0).response.bytes := by
    rw [heq]
  rw [headPhase, maxRedirects, headerLoop_succ, hconn, if_neg (ne_nil_of_isRedirect hredirect),
    if_neg (by simp [hredirect]), hlocation]
  rfl

end Loader

/-- The first response is the only one when it is not followed. -/
theorem arraysFit_of_not_followed {env : Env} {request : Request} {stream : List Byte}
    (hat : streamAt env 0 request = stream) (hlocation : locationOf stream = none)
    (hblock : BlockFits stream) :
    ArraysFit env request ↔
      BodyFits ((declaredBuffer stream).getD bufferSize) (bodyOf stream) := by
  rw [← hat] at hlocation
  have htrail := Loader.finalTrail_of_not_followed hlocation
  have hend : (finalTrail env request).stream env = stream := by
    rw [htrail]
    exact hat
  have hcarried : (finalTrail env request).carriedBuffer = bufferSize := by
    rw [htrail]
    rfl
  have hresponses : responses env maxRedirects 0 request = [stream] := by
    rw [maxRedirects, responses, hlocation, hat]
  have hhops : (finalTrail env request).hops < maxRedirects := by
    rw [htrail]
    exact Nat.succ_pos 4
  rw [arraysFit_iff_of_hops hhops, Trail.bodyBuffer, hend, hcarried, hresponses,
    List.forall_mem_singleton]
  exact and_iff_right hblock

/-- A response that is not followed as a redirect, with a header block that fits in `headers`,
reaches the client byte for byte exactly when its status is not a redirect status and there is
room for its body. -/
theorem clientHandler_forwards_iff {env : Env} {map : CacheMap} {request : Request}
    {stream : List Byte}
    (hget : request.method = .get) (hmiss : mapFindByUrl map request.searchPath = none)
    (hconnected : Connected env request) (hreply : ∀ k, 0 < env.reply k)
    (hstream : (env.hop 0).response.bytes = stream) (hstatus : stream ≠ [])
    (hfollow : isRedirect (statusOf stream) = true → locationOf stream = none)
    (hblock : BlockFits stream) :
    (∃ out, clientHandlerWithin env map request = .returns out ∧
        (handed out.log).flatten = stream) ↔
      isRedirect (statusOf stream) = false ∧ HasRoom stream := by
  have hat : streamAt env 0 request = stream := by
    rw [streamAt, if_pos hconnected, hstream]
  have hlocation : locationOf stream = none := by
    cases hredirect : isRedirect (statusOf stream) with
    | false => exact locationOf_eq_none_of_not_isRedirect hredirect
    | true => exact hfollow hredirect
  have hfits := arraysFit_of_not_followed hat hlocation hblock
  have hlog : (∃ out, clientHandlerWithin env map request = .returns out ∧
      (handed out.log).flatten = stream) ↔
        (handed (Loader.fetch env request).log).flatten = stream ∧ ArraysFit env request := by
    simp only [clientHandlerWithin_miss hget hmiss]
    constructor
    · rintro ⟨out, ⟨rfl, hfits⟩, hall⟩
      exact ⟨hall, hfits⟩
    · rintro ⟨hall, hfits⟩
      exact ⟨_, ⟨rfl, hfits⟩, hall⟩
  have hbody := headerBlock_append_bodyOf stream
  have hpos := List.length_pos_iff.mpr (headerBlock_ne_nil hstatus)
  rw [hlog, hfits]
  cases hredirect : isRedirect (statusOf stream) with
  | false =>
      have htrail := Loader.finalTrail_of_not_followed (hat.symm ▸ hlocation)
      have hend : (finalTrail env request).stream env = stream := by
        rw [htrail]
        exact hat
      have hanswered : (finalTrail env request).Answered env maxRedirects := by
        refine ⟨?_, ?_, ?_⟩
        · rw [htrail]
          exact Nat.succ_pos 4
        · rwa [hend]
        · rwa [hend]
      have hhanded := (Loader.fetch_answered hanswered).handed hreply
      have hsize : (finalTrail env request).bodyBuffer env =
          (declaredBuffer stream).getD bufferSize := by
        rw [Trail.bodyBuffer, hend, htrail]
        rfl
      rw [hend, Trail.body, hsize, hend] at hhanded
      rw [hhanded, eq_self, true_and, HasRoom]
      by_cases hroom : 0 < (declaredBuffer stream).getD bufferSize
      · simp only [hroom, if_true, hbody, true_and]
        constructor
        · exact .inr
        · rintro (hnil | hfits)
          · exact .inr (by simp [hnil])
          · exact hfits
      · simp only [hroom, if_false, List.append_nil, false_and, or_false]
        constructor
        · rintro ⟨hall, -⟩
          -- A header block that is the whole stream leaves no body.
          rw [bodyOf, hall, List.drop_length]
        · intro hnil
          rw [hnil, List.append_nil] at hbody
          exact ⟨hbody, .inr (by simp [hnil])⟩
  | true =>
      have hhead := Loader.headPhase_of_no_location hconnected (by rw [hstream]; exact hredirect)
        (by rw [hstream]; exact hlocation)
      obtain ⟨text, heq⟩ := Loader.connectPhase_connected hconnected
      obtain ⟨-, -, -, hhanded, -⟩ := Loader.fetch_fields env request
      have hrest : (Loader.headPhase env request).conn.bytes = bodyOf stream := by
        rw [hhead, Loader.readResponse_conn_bytes, heq]
        exact congrArg bodyOf hstream
      have halive : (Loader.headPhase env request).clientAlive = true := by
        rw [hhead]
        simp
      have hnone : handed (Loader.headPhase env request).log = [] := by
        rw [hhead]
        simp
      refine iff_of_false ?_ (by simp)
      rintro ⟨hall, -⟩
      -- A stream is longer than what follows its header block.
      have hlen := congrArg List.length (hbody.trans hall.symm)
      rw [List.length_append, hhanded] at hlen
      by_cases hsize : 0 < (Loader.headPhase env request).bufferSize
      · rw [Loader.bodyLoop_handed hreply halive hsize (Nat.lt_succ_self _), hnone, hrest] at hlen
        simp only [List.flatten_nil, List.nil_append] at hlen
        omega
      · rw [Loader.bodyLoop_of_nonpos (by omega), Loader.handed_readBody, hnone] at hlen
        simp only [List.flatten_nil, List.length_nil] at hlen
        omega

/-- A `200` response with a short `Content-Length` and a longer body passes. -/
theorem clientHandler_forwards_ok :
    ∃ out, clientHandlerWithin
        (answering (bytes "HTTP/1.1 200 OK\r\nContent-Length: 2\r\n\r\nabcde")) [] plainRequest =
          .returns out ∧
      (handed out.log).flatten =
        bytes "HTTP/1.1 200 OK\r\nContent-Length: 2\r\n\r\nabcde" :=
  (clientHandler_forwards_iff (by decide) (by decide) (by decide) (fun _ => Int.one_pos) rfl
    (by decide) (by decide) (by decide +kernel)).mpr
      ⟨by decide, hasRoom_of_positive (by decide +kernel)⟩

/-- A `304` response reaches the client as nothing at all. -/
theorem clientHandler_drops_header_block :
    let stream := bytes "HTTP/1.1 304 Not Modified\r\n\r\n"
    plainRequest.method = .get ∧ mapFindByUrl [] plainRequest.searchPath = none ∧
      Connected (answering stream) plainRequest ∧ (∀ k, 0 < (answering stream).reply k) ∧
      statusOf stream = 304 ∧ locationOf stream = none ∧ declaredBuffer stream = none ∧
      BlockFits stream ∧
      ¬ ∃ out, clientHandlerWithin (answering stream) [] plainRequest = .returns out ∧
        (handed out.log).flatten = stream := by
  refine ⟨rfl, rfl, by decide, fun _ => Int.one_pos, by decide +kernel, by decide +kernel,
    by decide +kernel, by decide +kernel, ?_⟩
  rintro ⟨out, hrun, hall⟩
  obtain ⟨rfl, -⟩ := (clientHandlerWithin_miss rfl rfl).mp hrun
  revert hall
  decide +kernel

/-! ### Hop isolation -/

/-- The part of the body that the body loop reads with a given `buffer_size`
from the hops before. -/
def bodyAfter (final : List Byte) (carried : Int) : List Byte :=
  if 0 < (declaredBuffer final).getD carried then bodyOf final else []

/-- What a run forwards and caches that ends in the response `final`. -/
theorem missPath_answered {env : Env} {map : CacheMap} {request : Request} {final : List Byte}
    (hreply : ∀ k, 0 < env.reply k) (hhops : (finalTrail env request).hops ≤ maxRedirects - 1)
    (hfinal : (finalTrail env request).stream env = final) (hstatus : final ≠ [])
    (hredirect : isRedirect (statusOf final) = false) :
    (handed (missPath env map request).log).flatten =
        headerBlock final ++ bodyAfter final (finalTrail env request).carriedBuffer ∧
      (listAdds (missPath env map request).log).flatten =
        if cacheAllowed (statusOf final) then
          headerBlock final ++ bodyAfter final (finalTrail env request).carriedBuffer
        else [] := by
  have hlimit : maxRedirects - 1 < maxRedirects := by decide
  have hanswered : (finalTrail env request).Answered env maxRedirects :=
    ⟨by omega, by rwa [hfinal], by rwa [hfinal]⟩
  have hfetch := Loader.fetch_answered hanswered
  have hlog : (missPath env map request).log = (Loader.fetch env request).log := rfl
  have hbody : (finalTrail env request).body env =
      bodyAfter final (finalTrail env request).carriedBuffer := by
    rw [Trail.body, Trail.bodyBuffer, bodyAfter, hfinal]
  rw [hlog]
  constructor
  · rw [hfetch.handed hreply, hfinal, hbody]
  · rw [hfetch.listAdds, hfinal, hbody]

theorem bodyAfter_eq_iff (final : List Byte) (carried₁ carried₂ : Int) :
    bodyAfter final carried₁ = bodyAfter final carried₂ ↔
      (declaredBuffer final).isSome = true ∨ bodyOf final = [] ∨
        (0 < carried₁ ↔ 0 < carried₂) := by
  unfold bodyAfter
  cases declaredBuffer final with
  | some size => simp
  | none =>
      simp only [Option.getD_none, Option.isSome_none, Bool.false_eq_true, false_or]
      by_cases h₁ : 0 < carried₁ <;> by_cases h₂ : 0 < carried₂
      · simp [h₁, h₂]
      · simp [h₁, h₂]
      · simp only [h₁, h₂, if_true, if_false, iff_true, or_false]
        exact eq_comm
      · simp [h₁, h₂]

/-- The same redirect, with an empty body of its own. -/
def movedEmptyResponse : List Byte :=
  bytes "HTTP/1.1 302 Found\r\nLocation: http://b/\r\nContent-Length: 0\r\n\r\n"

/-- The log without the `send` calls to the client. -/
def upstreamEvents (log : List Event) : List Event :=
  log.filter fun
    | .sendClient _ => false
    | _ => true

/-- The values added before `complete` is set for the first time. -/
def nodesWhenComplete (log : List Event) : List (List Byte) :=
  listAdds (log.takeWhile (· ≠ .complete))

namespace Loader

/-- The loader as it would be with a client that was never there. -/
def mute (l : Loader) : Loader :=
  { l with clientAlive := false, sends := 0, log := upstreamEvents l.log }

theorem mute_send (env : Env) (l : Loader) (buffer : List Byte) :
    (l.send env buffer).mute = l.mute := by
  unfold send mute
  split <;> simp [upstreamEvents]

theorem send_mute (env : Env) (l : Loader) (buffer : List Byte) :
    l.mute.send env buffer = l.mute := rfl

theorem mute_cacheBlock (l : Loader) (block : List Byte) :
    (l.cacheBlock block).mute = l.mute.cacheBlock block := by
  unfold cacheBlock mute emit
  split <;> simp_all [upstreamEvents]

theorem mute_readBody (l : Loader) :
    l.mute.readBody.1 = l.readBody.1 ∧ l.mute.readBody.2 = l.readBody.2.mute := by
  simp [readBody, mute, upstreamEvents]

theorem mute_bodyLoop (env env' : Env) (fuel : Nat) (l : Loader) :
    (l.bodyLoop env fuel).mute = l.mute.bodyLoop env' fuel := by
  induction fuel generalizing l with
  | zero => rfl
  | succ fuel ih =>
      obtain ⟨hblock, hread⟩ := l.mute_readBody
      rw [bodyLoop_succ, bodyLoop_succ, hblock, hread]
      by_cases hbody : l.readBody.1 = []
      · rw [if_pos hbody, if_pos hbody]
      · rw [if_neg hbody, if_neg hbody, ih, mute_send, mute_cacheBlock, ← mute_cacheBlock,
          send_mute]

theorem mute_readResponse (l : Loader) : l.readResponse.mute = l.mute.readResponse := by
  simp [readResponse, readHead, readStatusLine, mute, upstreamEvents]

theorem mute_httpConnect {env env' : Env} (henv : env'.hop = env.hop) (l : Loader) :
    (l.httpConnect env).mute = l.mute.httpConnect env' := by
  have hreach : ((hostPort l.mute.request).isSome && (env'.hop l.mute.attempts).reachable) =
      ((hostPort l.request).isSome && (env.hop l.attempts).reachable) := by
    rw [henv]
    rfl
  unfold httpConnect
  rw [hreach]
  cases (hostPort l.request).isSome && (env.hop l.attempts).reachable <;>
    simp [mute, upstreamEvents, henv]

theorem mute_follow {env env' : Env} (henv : env'.hop = env.hop) (l : Loader)
    (location : List Byte) :
    (l.follow env location).mute = l.mute.follow env' location := by
  rw [follow, follow, mute_httpConnect henv]
  congr 1
  simp [mute, closeTarget, upstreamEvents]

theorem mute_requestSend (l : Loader) : l.requestSend.mute = l.mute.requestSend := by
  have hrequest : l.mute.request = l.request := rfl
  unfold requestSend
  rw [hrequest]
  cases buildRequest l.request <;> simp [mute, emit, upstreamEvents]

theorem mute_nextHop {env env' : Env} (henv : env'.hop = env.hop) (l : Loader)
    (location : List Byte) :
    (l.nextHop env location).mute = l.mute.nextHop env' location := by
  have hfollow := mute_follow henv l.readResponse location
  rw [mute_readResponse] at hfollow
  unfold nextHop
  rw [← hfollow, ← mute_requestSend]
  rfl

/-- The header loop does the same for the loader of a client that left. -/
theorem mute_headerLoop (env env' : Env) (henv : env'.hop = env.hop) (n : Nat) (l : Loader) :
    l.mute.headerLoop env' n = ((l.headerLoop env n).1.mute, (l.headerLoop env n).2) := by
  induction n generalizing l with
  | zero => rfl
  | succ n ih =>
      have hconn : l.mute.conn = l.conn := rfl
      have hfollow (location : List Byte) :
          l.mute.readResponse.follow env' location =
            (l.readResponse.follow env location).mute := by
        rw [mute_follow henv, mute_readResponse]
      have htarget (location : List Byte) :
          (l.readResponse.follow env location).mute.targetSocket =
            (l.readResponse.follow env location).targetSocket := rfl
      rw [headerLoop_succ, headerLoop_succ, hconn]
      by_cases hempty : l.conn.bytes = []
      · rw [if_pos hempty, if_pos hempty]
        simp [readStatusLine, mute, upstreamEvents]
      rw [if_neg hempty, if_neg hempty]
      by_cases hredirect : isRedirect (statusOf l.conn.bytes) = false
      · rw [if_pos hredirect, if_pos hredirect, mute_send, mute_readResponse,
          ← mute_readResponse, send_mute]
      rw [if_neg hredirect, if_neg hredirect]
      cases locationOf l.conn.bytes with
      | none => simp only [mute_readResponse]
      | some location =>
          simp only [hfollow, htarget, ← mute_nextHop henv, ih]
          split <;> rfl

theorem connectPhase_congr {env env' : Env} (henv : env'.hop = env.hop) (request : Request) :
    connectPhase env' request = connectPhase env request := by
  obtain ⟨hop, reply⟩ := env
  obtain ⟨hop', reply'⟩ := env'
  obtain rfl : hop' = hop := henv
  rfl

theorem mute_addHeaders (l : Loader) (block : Option (List Byte)) :
    (addHeaders (l, block)).mute = addHeaders (l.mute, block) := by
  cases block <;> simp [addHeaders, emit, mute, upstreamEvents]

theorem mute_headPhase {env env' : Env} (henv : env'.hop = env.hop) (request : Request) :
    (headPhase env request).mute = (headPhase env' request).mute := by
  have h := mute_headerLoop env env rfl maxRedirects (connectPhase env request)
  have h' := mute_headerLoop env' env henv.symm maxRedirects (connectPhase env request)
  obtain ⟨hloader, hblock⟩ := Prod.mk.inj (h.symm.trans h')
  rw [headPhase, headPhase, connectPhase_congr henv]
  generalize (connectPhase env request).headerLoop env maxRedirects = r at hloader hblock ⊢
  generalize (connectPhase env request).headerLoop env' maxRedirects = r' at hloader hblock ⊢
  obtain ⟨l, block⟩ := r
  obtain ⟨l', block'⟩ := r'
  obtain rfl : block = block' := hblock
  rw [mute_addHeaders, mute_addHeaders]
  exact congrArg (fun l => addHeaders (l, block)) hloader

/-- What the loader does with its upstream and its entry does not depend on the
client. -/
theorem mute_fetch (env env' : Env) (henv : env'.hop = env.hop) (request : Request) :
    (fetch env request).mute = (fetch env' request).mute := by
  have hend (l : Loader) : (l.closeTarget.emit .complete).mute =
      (l.mute.closeTarget).emit .complete := by
    simp [mute, closeTarget, emit, upstreamEvents]
  have hfuel (l : Loader) : l.conn.bytes.length = l.mute.conn.bytes.length := rfl
  rw [fetch_eq, fetch_eq, hend, hend, mute_bodyLoop env env, mute_bodyLoop env' env, hfuel,
    hfuel (headPhase env' request), mute_headPhase henv]

theorem listAdds_mute (l : Loader) : listAdds l.mute.log = listAdds l.log := by
  simp only [mute, upstreamEvents, listAdds, List.filterMap_filter]
  congr 1
  funext e
  cases e <;> rfl

theorem finalStatus_mute (l : Loader) : finalStatus l.mute.log = finalStatus l.log := by
  simp only [mute, finalStatus, upstreamEvents, List.foldl_filter]
  congr 1
  funext last e
  cases e <;> rfl

/-! ### The entry mirrors what the client is handed -/

/-- The client was handed what is cached, as far as it stayed. -/
structure Mirrors (l : Loader) : Prop where
  handed_le : handed l.log <+: listAdds l.log
  of_alive : l.clientAlive = true → handed l.log = listAdds l.log

theorem bodyLoop_mirrors {l : Loader} (env : Env) (hneed : l.needToCache = true) (h : l.Mirrors)
    (fuel : Nat) : (l.bodyLoop env fuel).Mirrors := by
  refine bodyLoop_induction env
    (motive := fun l l' => l.needToCache = true → l.Mirrors → l'.Mirrors)
    (fun _ _ h => h) ?_ ?_ fuel l hneed h
  · intro l _ _ h
    exact ⟨by simpa using h.handed_le, by simpa using h.of_alive⟩
  · intro l l' _ ih hneed h
    refine ih (by simpa using hneed) ⟨?_, ?_⟩
    · cases halive : l.clientAlive with
      | true =>
          simp [handed_send, listAdds_cacheBlock, halive, hneed, h.of_alive halive]
      | false =>
          simpa [handed_send, listAdds_cacheBlock, halive, hneed] using
            h.handed_le.trans (List.prefix_append _ _)
    · cases halive : l.clientAlive with
      | true =>
          simp [handed_send, listAdds_cacheBlock, halive, hneed, h.of_alive halive]
      | false => simp [send, halive]

theorem bodyLoop_clientAlive {env : Env} (hreply : ∀ k, 0 < env.reply k) (fuel : Nat)
    (l : Loader) : (l.bodyLoop env fuel).clientAlive = l.clientAlive := by
  refine bodyLoop_induction env (motive := fun l l' => l'.clientAlive = l.clientAlive)
    (fun _ => rfl) (fun _ _ => rfl) ?_ fuel l
  intro l l' _ ih
  rw [ih, send_clientAlive hreply]
  simp

/-- The header loop sets no `complete`. -/
theorem complete_notMem_headerLoop {env : Env} {n : Nat} {l : Loader}
    (h : Event.complete ∉ l.log) : Event.complete ∉ (l.headerLoop env n).1.log := by
  have hresponse (l : Loader) (h : Event.complete ∉ l.log) :
      Event.complete ∉ l.readResponse.log := by
    simpa [readResponse_log] using h
  have hfollow (l : Loader) (location : List Byte) (h : Event.complete ∉ l.log) :
      Event.complete ∉ (l.readResponse.follow env location).log := by
    cases hreached : l.nextReached env location with
    | true => simpa [follow_of_reached hreached] using hresponse l h
    | false => simpa [follow_of_not_reached hreached] using hresponse l h
  refine headerLoop_induction env
    (motive := fun _ l r => Event.complete ∉ l.log → Event.complete ∉ r.1.log)
    ?_ ?_ ?_ ?_ ?_ ?_ n l h
  · exact fun _ h => h
  · intro n l _ h
    simpa [readStatusLine] using h
  · intro n l _ _ h
    unfold send
    split
    · simpa using hresponse l h
    · exact hresponse l h
  · exact fun n l _ _ h => hresponse l h
  · exact fun n l location _ _ _ h => hfollow l location h
  · intro n l location r _ _ _ ih h
    apply ih
    unfold nextHop requestSend
    split
    · exact hfollow l location h
    · simpa [emit] using hfollow l location h

theorem complete_notMem_bodyLoop (env : Env) {l : Loader} (h : Event.complete ∉ l.log)
    (fuel : Nat) : Event.complete ∉ (l.bodyLoop env fuel).log := by
  refine bodyLoop_induction env
    (motive := fun l l' => Event.complete ∉ l.log → Event.complete ∉ l'.log)
    (fun _ h => h) ?_ ?_ fuel l h
  · intro l _ h
    simpa [readBody] using h
  · intro l l' _ ih h
    apply ih
    unfold send cacheBlock
    split <;> split <;> simpa [readBody, emit] using h

/-- A `2xx` run sets `complete` once, after all of its nodes were added. -/
theorem nodesWhenComplete_fetch {env : Env} {request : Request}
    (hok : FinalOk (fetch env request).log) :
    nodesWhenComplete (fetch env request).log = listAdds (fetch env request).log := by
  obtain ⟨text, heq⟩ := connectPhase_connected
    (connected_of_answered (finalOk_fetch_iff.mp hok).1)
  have hhead : Event.complete ∉ (headPhase env request).log := by
    have hloop : Event.complete ∉
        ((connectPhase env request).headerLoop env maxRedirects).1.log :=
      complete_notMem_headerLoop (by rw [heq]; simp)
    rw [headPhase]
    generalize (connectPhase env request).headerLoop env maxRedirects = r at hloop ⊢
    obtain ⟨l, block⟩ := r
    cases block <;> simpa [addHeaders, emit] using hloop
  have hbody := complete_notMem_bodyLoop env hhead
    ((headPhase env request).conn.bytes.length + 1)
  obtain ⟨-, -, -, -, hadds⟩ := fetch_fields env request
  rw [hadds, nodesWhenComplete, fetch_eq]
  simp only [emit, closeTarget, List.append_assoc]
  rw [List.takeWhile_append_of_pos]
  · simp [listAdds]
  · intro e he
    have hne : e ≠ .complete := fun heq => hbody (heq ▸ he)
    simpa using hne

/-- A run that ends with a `2xx` status hands the client what it caches. -/
theorem fetch_mirrors {env : Env} {request : Request} (hok : FinalOk (fetch env request).log) :
    (fetch env request).Mirrors ∧
      ((∀ k, 0 < env.reply k) → (fetch env request).clientAlive = true) := by
  obtain ⟨hanswered, hallowed⟩ := finalOk_fetch_iff.mp hok
  obtain ⟨-, -, hneed, -, hclient, hhanded, hadds⟩ := headPhase_answered hanswered
  rw [hallowed] at hneed hadds
  have hmirrors : (headPhase env request).Mirrors := by
    constructor
    · rw [hhanded, hadds]
      exact List.prefix_rfl
    · intro _
      rw [hhanded, hadds]
      rfl
  have hbody := bodyLoop_mirrors env hneed hmirrors
    ((headPhase env request).conn.bytes.length + 1)
  obtain ⟨-, -, -, hhanded', hadds'⟩ := fetch_fields env request
  have halive : (fetch env request).clientAlive =
      ((headPhase env request).bodyLoop env
        ((headPhase env request).conn.bytes.length + 1)).clientAlive := by
    rw [fetch_eq]
    rfl
  refine ⟨⟨?_, ?_⟩, fun hreply => ?_⟩
  · rw [hhanded', hadds']
    exact hbody.handed_le
  · rw [halive, hhanded', hadds']
    exact hbody.of_alive
  · rw [halive, bodyLoop_clientAlive hreply]
    exact hclient hreply

end Loader

/-- The cached copy is the served copy: the nodes of a `2xx` entry do not depend
on the client, a client whose sends never fail is handed exactly them, and any
other client a prefix of them. -/
theorem missPath_mirrors {hop : Nat → Hop} {reply reply' : Nat → Int} (map : CacheMap)
    {request : Request} (hreply' : ∀ k, 0 < reply' k)
    (hok : FinalOk (Loader.fetch ⟨hop, reply⟩ request).log) :
    let out := missPath ⟨hop, reply⟩ map request
    let out' := missPath ⟨hop, reply'⟩ map request
    nodesWhenComplete out.log = nodesWhenComplete out'.log ∧
      (handed out'.log).flatten = (nodesWhenComplete out.log).flatten ∧
      (handed out.log).flatten <+: (nodesWhenComplete out.log).flatten ∧
      out.map = ⟨request.searchPath, nodesWhenComplete out.log, true⟩ :: map := by
  simp only [missPath]
  have hmute := Loader.mute_fetch ⟨hop, reply⟩ ⟨hop, reply'⟩ rfl request
  have hok' : FinalOk (Loader.fetch ⟨hop, reply'⟩ request).log := by
    rw [FinalOk, ← Loader.finalStatus_mute, ← hmute, Loader.finalStatus_mute]
    exact hok
  have hnodes := Loader.nodesWhenComplete_fetch hok
  have hnodes' := Loader.nodesWhenComplete_fetch hok'
  have hsame : listAdds (Loader.fetch ⟨hop, reply⟩ request).log =
      listAdds (Loader.fetch ⟨hop, reply'⟩ request).log := by
    rw [← Loader.listAdds_mute, hmute, Loader.listAdds_mute]
  obtain ⟨hmirrors, -⟩ := Loader.fetch_mirrors hok
  obtain ⟨hmirrors', halive'⟩ := Loader.fetch_mirrors hok'
  obtain ⟨hanswered, hallowed⟩ := Loader.finalOk_fetch_iff.mp hok
  have hneed := (Loader.fetch_answered hanswered).needToCache
  rw [hallowed] at hneed
  rw [hnodes, hnodes', hsame]
  refine ⟨rfl, ?_, ?_, ?_⟩
  · rw [hmirrors'.of_alive (halive' hreply')]
  · rw [← hsame]
    exact List.IsPrefix.flatten hmirrors.handed_le
  · rw [if_pos hneed]
    rfl

/-- The arrays have the same room for another client. -/
theorem arraysFit_reply (hop : Nat → Hop) (reply reply' : Nat → Int) (request : Request) :
    ArraysFit ⟨hop, reply'⟩ request ↔ ArraysFit ⟨hop, reply⟩ request := by
  refine ArraysFit.congr (fun k request => ?_) request
  cases k with
  | zero =>
      by_cases hconnected : Connected ⟨hop, reply⟩ request
      · have hconnected' : Connected ⟨hop, reply'⟩ request := hconnected
        rw [streamAt, streamAt, if_pos hconnected, if_pos hconnected']
      · have hconnected' : ¬ Connected ⟨hop, reply'⟩ request := hconnected
        rw [streamAt, streamAt, if_neg hconnected, if_neg hconnected']
  | succ k => rfl

end Proxy
end OperatingSystems
