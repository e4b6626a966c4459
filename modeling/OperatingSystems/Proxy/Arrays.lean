import OperatingSystems.Proxy.CacheMap
import OperatingSystems.Proxy.HeaderBuffer

/-!
# The arrays of the miss path

`client_handler` keeps the header block of a response in `headers`, an array of `BUFFER_SIZE * 16`
bytes, and one block of the body in `body_buf`, an array of `BUFFER_SIZE`.  Neither is checked
where bytes are stored in it: the header block is as long as the server likes, and `buffer_size`
is an `int`, so that a `Content-Length` of `-4294950000` makes it 17296.

The loops of the miss path are given here on the arrays: a byte that is stored behind the end of
one leaves no result.  As long as everything fits they do what `Loader.fetch` does on lists.

* `headerLinesWithin_eq_some_iff`, `readBodyWithin_eq_some_iff` — the two loops that store.
* `Loader.headPhase_left` — what the header loop leaves for the body loop, by the trail.
* `Loader.fetchWithin_eq_some_iff`, `clientHandlerWithin_miss` — the whole miss path has a result
  exactly when `ArraysFit`, and then it is that of `Loader.fetch`.
-/

namespace OperatingSystems
namespace Proxy

/-! ### The loops -/

/-- `headerLines`, with each line copied behind the others in `headers`. -/
def headerLinesWithin : Nat → Int → Socket → Head → Option (Head × Socket)
  | 0, _, s, head => some (head, s)
  | fuel + 1, status, s, head =>
      match readLine s Proxy.bufferSize with
      | ([], s') => some (head, s')
      | (b :: line, s') =>
          if headersCapacity < head.headers.length + (b :: line).length then none
          else if startsWith (bytes "\r\n") (b :: line) then
            some (head.collect status (b :: line), s')
          else
            headerLinesWithin fuel status s'
              ((head.collect status (b :: line)).contentLength (b :: line))

/-- The loop of `read_body` on `body_buf`, which has `total` bytes already. -/
def readBodyLoopWithin : Nat → Nat → Nat → Socket → Option (List Byte × Socket)
  | 0, _, _, s => some ([], s)
  | fuel + 1, total, left, s =>
      if left = 0 then some ([], s)
      else
        match s.recv left with
        | ([], s') => some ([], s')
        | (b :: got, s') =>
            if bufferSize < total + (b :: got).length then none
            else
              (readBodyLoopWithin fuel (total + (b :: got).length) (left - (got.length + 1)) s').map
                fun rest => (b :: got ++ rest.1, rest.2)

/-- `read_body(socket, body_buf, max_buffer)` -/
def readBodyWithin (s : Socket) (maxBuffer : Int) : Option (List Byte × Socket) :=
  readBodyLoopWithin maxBuffer.toNat 0 maxBuffer.toNat s

theorem headerLinesWithin_eq_some_iff {fuel : Nat} {status : Int} {s : Socket} {head : Head}
    {r : Head × Socket} :
    headerLinesWithin fuel status s head = some r ↔
      (∀ copy ∈ headerCopies fuel status s head, copy.Fits) ∧
        headerLines fuel status s head = r := by
  induction fuel generalizing s head with
  | zero => simp [headerLinesWithin, headerCopies, headerLines]
  | succ fuel ih =>
      simp only [headerLinesWithin, headerCopies, headerLines]
      rcases readLine s bufferSize with ⟨_ | ⟨b, line⟩, s'⟩
      · simp
      · simp only [List.forall_mem_cons]
        by_cases hfits : headersCapacity < head.headers.length + (b :: line).length
        · have hnot : ¬ Memcpy.Fits ⟨head.headers.length, (b :: line).length⟩ :=
            Nat.not_le.mpr hfits
          simp only [hfits, hnot, if_true, false_and, reduceCtorEq]
        · have hcopy : Memcpy.Fits ⟨head.headers.length, (b :: line).length⟩ :=
            Nat.not_lt.mp hfits
          simp only [hfits, hcopy, if_false, true_and]
          by_cases hblank : startsWith (bytes "\r\n") (b :: line)
          · simp [hblank]
          · simpa [hblank] using ih

theorem readBodyLoopWithin_eq_some_iff {fuel total left : Nat} {s : Socket}
    {r : List Byte × Socket} (hfuel : left ≤ fuel) (htotal : total ≤ bufferSize) :
    readBodyLoopWithin fuel total left s = some r ↔
      total + (s.bytes.take left).length ≤ bufferSize ∧ readBodyLoop fuel left s = r := by
  induction fuel generalizing total left s r with
  | zero =>
      obtain rfl : left = 0 := by omega
      simp [readBodyLoopWithin, readBodyLoop, htotal]
  | succ fuel ih =>
      simp only [readBodyLoopWithin, readBodyLoop]
      by_cases hleft : left = 0
      · simp [hleft, htotal]
      · have happend := s.recv_append left
        have hlength := s.length_recv_le left
        have hnil := s.recv_eq_nil_iff (by omega : 0 < left)
        simp only [hleft, if_false]
        generalize s.recv left = received at happend hlength hnil
        obtain ⟨_ | ⟨b, got⟩, s'⟩ := received
        · simp [hnil.mp rfl, htotal]
        · have hbytes : (s.bytes.take left).length =
              (b :: got).length + (s'.bytes.take (left - (b :: got).length)).length := by
            rw [← happend, List.take_append, List.length_append, List.take_of_length_le hlength]
          rw [hbytes]
          by_cases hfits : bufferSize < total + (b :: got).length
          · simp only [hfits, if_true, reduceCtorEq, false_iff, not_and]
            omega
          · have hpos : 0 < (b :: got).length := Nat.succ_pos _
            have hrest {rest : List Byte × Socket} :=
              @ih (total + (b :: got).length) (left - (b :: got).length) s' rest (by omega)
                (by omega)
            simp only [hfits, if_false, Option.map_eq_some_iff]
            constructor
            · rintro ⟨rest, hrun, rfl⟩
              obtain ⟨hlength', rfl⟩ := hrest.mp hrun
              exact ⟨by omega, rfl⟩
            · rintro ⟨hlength', rfl⟩
              exact ⟨_, hrest.mpr ⟨by omega, rfl⟩, rfl⟩

theorem readBodyWithin_eq_some_iff {s : Socket} {maxBuffer : Int} {r : List Byte × Socket} :
    readBodyWithin s maxBuffer = some r ↔
      (s.bytes.take maxBuffer.toNat).length ≤ bufferSize ∧ readBody s maxBuffer = r := by
  rw [readBodyWithin, readBodyLoopWithin_eq_some_iff le_rfl (Nat.zero_le _), Nat.zero_add, readBody]

/-- A body of which `read_body` stores so many bytes at a time in `body_buf` fits in it. -/
def BodyFits (size : Int) (body : List Byte) : Prop :=
  size ≤ bufferSize ∨ body.length ≤ bufferSize

instance (size : Int) (body : List Byte) : Decidable (BodyFits size body) :=
  inferInstanceAs (Decidable (_ ∨ _))

theorem bodyFits_iff {size : Int} {body : List Byte} :
    BodyFits size body ↔ (body.take size.toNat).length ≤ bufferSize := by
  rw [BodyFits, List.length_take]
  omega

namespace Loader

/-- `readHead` with the lines copied to `headers`. -/
def readHeadWithin (l : Loader) (statusLine : List Byte) : Option (Head × Loader) :=
  let status := parseHttpStatus statusLine
  (headerLinesWithin (l.conn.bytes.length + 1) status l.conn ⟨statusLine, none, l.bufferSize⟩).map
    fun result =>
      (result.1,
        { l with
          conn := result.2
          needToCache := cacheAllowed status
          bufferSize := result.1.bufferSize
          log := l.log ++ [.statusLine status, .recv l.targetSocket] })

/-- `while (redirects < MAX_REDIRECTS)` on the array `headers`.  The copy of the status line always
fits. -/
def headerLoopWithin (env : Env) : Nat → Loader → Option (Loader × Option (List Byte))
  | 0, l => some (l, none)
  | n + 1, l =>
      let line := l.readStatusLine
      if line.1 = [] then some (line.2, none)
      else
        match line.2.readHeadWithin line.1 with
        | none => none
        | some head =>
            if !isRedirect (parseHttpStatus line.1) then
              let sent := head.2.send env head.1.headers
              some (sent, if sent.needToCache then some head.1.headers else none)
            else
              match head.1.location with
              | none => some (head.2, none)
              | some location =>
                  let next := head.2.follow env location
                  if next.targetSocket.isNone then some (next, none)
                  else
                    headerLoopWithin env n { next.requestSend with redirects := next.redirects + 1 }

/-- `read_body(target_socket, body_buf, buffer_size)` -/
def readBodyWithin (l : Loader) : Option (List Byte × Loader) :=
  (Proxy.readBodyWithin l.conn l.bufferSize).map fun body =>
    (body.1, { l with conn := body.2, log := l.log ++ [.recv l.targetSocket] })

/-- The body loop on the array `body_buf`. -/
def bodyLoopWithin (env : Env) : Nat → Loader → Option Loader
  | 0, l => some l
  | fuel + 1, l =>
      match l.readBodyWithin with
      | none => none
      | some body =>
          if body.1 = [] then some body.2
          else
            let cached := if body.2.needToCache then body.2.emit (.listAdd body.1) else body.2
            bodyLoopWithin env fuel (cached.send env body.1)

/-- `fetch` on the arrays. -/
def fetchWithin (env : Env) (request : Request) : Option Loader :=
  match (connectPhase env request).headerLoopWithin env maxRedirects with
  | none => none
  | some result =>
      let l := addHeaders result
      (l.bodyLoopWithin env (l.conn.bytes.length + 1)).map fun l => l.closeTarget.emit .complete

variable {env : Env} {l : Loader} {k : Nat}

theorem readHeadWithin_eq_some_iff {statusLine : List Byte} {r : Head × Loader} :
    l.readHeadWithin statusLine = some r ↔
      (∀ copy ∈ headerCopies (l.conn.bytes.length + 1) (parseHttpStatus statusLine) l.conn
        ⟨statusLine, none, l.bufferSize⟩, copy.Fits) ∧ l.readHead statusLine = r := by
  simp only [readHeadWithin, Option.map_eq_some_iff, headerLinesWithin_eq_some_iff, readHead]
  constructor
  · rintro ⟨_, ⟨hfits, rfl⟩, hr⟩
    exact ⟨hfits, hr⟩
  · rintro ⟨hfits, hr⟩
    exact ⟨_, ⟨hfits, rfl⟩, hr⟩

/-- The header loop has a result exactly when all its copies fit. -/
theorem headerLoopWithin_eq_some_iff {n : Nat} {r : Loader × Option (List Byte)} :
    l.headerLoopWithin env n = some r ↔
      (∀ copy ∈ l.headerLoopCopies env n, copy.Fits) ∧ l.headerLoop env n = r := by
  induction n generalizing l with
  | zero => simp [headerLoopWithin, headerLoopCopies, headerLoop]
  | succ n ih =>
      have hstatus : Memcpy.Fits ⟨0, l.readStatusLine.1.length⟩ := by
        rw [readStatusLine_fst, Memcpy.Fits, Nat.zero_add]
        exact length_statusLineOf _
      simp only [headerLoopWithin, headerLoopCopies, headerLoop, responseCopies]
      by_cases hline : l.readStatusLine.1 = []
      · simp [hline]
      simp only [hline, if_false, List.forall_mem_append, List.forall_mem_cons, hstatus, true_and]
      cases hwithin : l.readStatusLine.2.readHeadWithin l.readStatusLine.1 with
      | none =>
          have hcopies : ¬ ∀ copy ∈ headerCopies (l.readStatusLine.2.conn.bytes.length + 1)
              (parseHttpStatus l.readStatusLine.1) l.readStatusLine.2.conn
              ⟨l.readStatusLine.1, none, l.readStatusLine.2.bufferSize⟩, copy.Fits := by
            intro hall
            have hsome := readHeadWithin_eq_some_iff.mpr ⟨hall, rfl⟩
            rw [hwithin] at hsome
            cases hsome
          simp [hcopies]
      | some head =>
          obtain ⟨hcopies, rfl⟩ := readHeadWithin_eq_some_iff.mp hwithin
          have hall : (∀ copy ∈ headerCopies (l.readStatusLine.2.conn.bytes.length + 1)
              (parseHttpStatus l.readStatusLine.1) l.readStatusLine.2.conn
              ⟨l.readStatusLine.1, none, l.readStatusLine.2.bufferSize⟩, copy.Fits) = True :=
            eq_true hcopies
          simp only [hall, true_and]
          by_cases hredirect : isRedirect (parseHttpStatus l.readStatusLine.1) = true
          · simp only [hredirect, Bool.not_true, Bool.false_eq_true, if_false]
            cases (l.readStatusLine.2.readHead l.readStatusLine.1).1.location with
            | none => simp
            | some location =>
                simp only
                split
                · simp
                · exact ih
          · simp [hredirect]

theorem readBodyWithin_eq_some_iff {r : List Byte × Loader} :
    l.readBodyWithin = some r ↔ BodyFits l.bufferSize l.conn.bytes ∧ l.readBody = r := by
  simp only [readBodyWithin, Option.map_eq_some_iff, Proxy.readBodyWithin_eq_some_iff,
    bodyFits_iff, readBody]
  constructor
  · rintro ⟨_, ⟨hfits, rfl⟩, hr⟩
    exact ⟨hfits, hr⟩
  · rintro ⟨hfits, hr⟩
    exact ⟨_, ⟨hfits, rfl⟩, hr⟩

/-- Once the first block of the body has fitted, every later one does. -/
theorem bodyLoopWithin_of_fits (hfits : BodyFits l.bufferSize l.conn.bytes) (fuel : Nat) :
    l.bodyLoopWithin env fuel = some (l.bodyLoop env fuel) := by
  induction fuel generalizing l with
  | zero => rfl
  | succ fuel ih =>
      rw [bodyLoopWithin, readBodyWithin_eq_some_iff.mpr ⟨hfits, rfl⟩, bodyLoop_succ]
      by_cases hbody : l.readBody.1 = []
      · simp only [hbody, if_true]
      · simp only [hbody, if_false]
        refine ih (l := (l.readBody.2.cacheBlock l.readBody.1).send env l.readBody.1) ?_
        simp only [send_bufferSize, cacheBlock_bufferSize, readBody_bufferSize, send_conn,
          cacheBlock_conn, readBody_conn_bytes]
        rcases hfits with hsize | hlength
        · exact .inl hsize
        · refine .inr ?_
          rw [List.length_drop]
          omega

theorem bodyLoopWithin_eq_some_iff {fuel : Nat} {l' : Loader} :
    l.bodyLoopWithin env (fuel + 1) = some l' ↔
      BodyFits l.bufferSize l.conn.bytes ∧ l.bodyLoop env (fuel + 1) = l' := by
  constructor
  · intro hrun
    have hfits : BodyFits l.bufferSize l.conn.bytes := by
      cases hread : l.readBodyWithin with
      | none =>
          rw [bodyLoopWithin, hread] at hrun
          cases hrun
      | some body => exact (readBodyWithin_eq_some_iff.mp hread).1
    rw [bodyLoopWithin_of_fits hfits] at hrun
    exact ⟨hfits, Option.some.inj hrun⟩
  · rintro ⟨hfits, rfl⟩
    exact bodyLoopWithin_of_fits hfits _

/-! ### What is left for the body loop -/

end Loader

/-- What the header loop leaves on the upstream socket: the body of the last response, or all of
that response when the limit of redirects is reached in front of it. -/
def Trail.rest (env : Env) (limit : Nat) (t : Trail) : List Byte :=
  if t.hops < limit then bodyOf (t.stream env) else t.stream env

/-- The `buffer_size` with which the body loop starts. -/
def Trail.restBuffer (env : Env) (limit : Nat) (carried : Int) (t : Trail) : Int :=
  if t.hops < limit then (declaredBuffer (t.stream env)).getD carried else carried

namespace Loader

theorem declaredBuffer_nil : declaredBuffer [] = none := by
  decide

theorem bodyOf_nil : bodyOf [] = [] := by
  decide

/-- Behind the header loop, by the trail. -/
structure Leaves (env : Env) (limit : Nat) (l : Loader) (t : Trail) (l' : Loader) : Prop where
  bytes : l'.conn.bytes = t.rest env limit
  bufferSize : l'.bufferSize =
    t.restBuffer env limit ((lastSet contentLengthLine t.lines).getD l.bufferSize)

theorem leaves_of_stream_nil {limit : Nat} {t : Trail} {l' : Loader} (hstream : t.stream env = [])
    (hbytes : l'.conn.bytes = [])
    (hbuffer : l'.bufferSize = (lastSet contentLengthLine t.lines).getD l.bufferSize) :
    Leaves env limit l t l' := by
  refine ⟨?_, ?_⟩
  · rw [hbytes, Trail.rest, hstream, bodyOf_nil, ite_self]
  · rw [hbuffer, Trail.restBuffer, hstream, declaredBuffer_nil, Option.getD_none, ite_self]

theorem leaves_readResponse {limit : Nat} (hlimit : k < limit) (hstart : l.StartsAt env k) :
    Leaves env limit l ⟨k, l.request, []⟩ l.readResponse := by
  have hstream : (⟨k, l.request, []⟩ : Trail).stream env = l.conn.bytes := hstart.bytes.symm
  refine ⟨?_, ?_⟩
  · rw [readResponse_conn_bytes, Trail.rest, if_pos hlimit, hstream]
  · rw [readResponse_bufferSize, Trail.restBuffer, if_pos hlimit, hstream]
    rfl

theorem headerLoop_leaves {n : Nat} (hstart : l.StartsAt env k) :
    Leaves env (k + n) l (trail env n k l.request) (l.headerLoop env n).1 := by
  refine headerLoop_induction env
    (motive := fun n l r => ∀ k, l.StartsAt env k →
      Leaves env (k + n) l (trail env n k l.request) r.1)
    ?_ ?_ ?_ ?_ ?_ ?_ n l k hstart
  · intro l k hstart
    have hlimit : ¬ (trail env 0 k l.request).hops < k + 0 := Nat.lt_irrefl k
    refine ⟨?_, ?_⟩
    · rw [Trail.rest, if_neg hlimit]
      exact hstart.bytes
    · rw [Trail.restBuffer, if_neg hlimit]
      rfl
  · intro n l hempty k hstart
    have hstream := hempty
    rw [hstart.bytes] at hstream
    rw [trail_of_stream_nil hstream]
    refine leaves_of_stream_nil hstream ?_ rfl
    rw [readStatusLine_conn_bytes, hempty, List.drop_nil]
  · intro n l _ hfinal k hstart
    have hlimit : k < k + (n + 1) := by omega
    have hlocation := locationOf_eq_none_of_not_isRedirect hfinal
    rw [hstart.bytes] at hlocation
    rw [trail_of_locationOf_none hlocation]
    obtain ⟨hbytes, hbuffer⟩ := leaves_readResponse hlimit hstart
    exact ⟨send_conn.symm ▸ hbytes, send_bufferSize.trans hbuffer⟩
  · intro n l _ hlocation k hstart
    rw [hstart.bytes] at hlocation
    rw [trail_of_locationOf_none hlocation]
    exact leaves_readResponse (by omega) hstart
  · intro n l location _ hlocation htarget k hstart
    obtain ⟨htrail, hnil⟩ := trail_of_not_reached hstart htarget n
    rw [trail_of_locationOf hstart hlocation, htrail,
      follow_of_not_reached (follow_targetSocket_eq_none_iff.mp htarget)]
    refine leaves_of_stream_nil hnil rfl ?_
    simp only [List.append_nil]
    exact readResponse_bufferSize
  · intro n l location r hredirect hlocation htarget ih k hstart
    obtain ⟨hnext, hto⟩ := nextHop_spec hstart hredirect htarget
    have hk : k + (n + 1) = k + 1 + n := by omega
    obtain ⟨hbytes, hbuffer⟩ := ih (k + 1) hnext
    rw [hto.request, ← hk] at hbytes hbuffer
    rw [trail_of_locationOf hstart hlocation]
    refine ⟨hbytes, hbuffer.trans ?_⟩
    rw [hto.bufferSize, lastSet_append, declaredBuffer]
    cases lastSet contentLengthLine (trail env n (k + 1) _).lines <;> rfl

/-- What the body loop starts with. -/
theorem headPhase_left (env : Env) (request : Request) :
    (headPhase env request).conn.bytes = (finalTrail env request).rest env maxRedirects ∧
      (headPhase env request).bufferSize =
        (finalTrail env request).restBuffer env maxRedirects
          (finalTrail env request).carriedBuffer := by
  obtain ⟨hbytes, hbuffer⟩ :=
    headerLoop_leaves (n := maxRedirects) (connectPhase_startsAt env request)
  rw [Nat.zero_add, connectPhase_request] at hbytes hbuffer
  rw [connectPhase_bufferSize] at hbuffer
  rw [headPhase]
  generalize (connectPhase env request).headerLoop env maxRedirects = r at hbytes hbuffer ⊢
  obtain ⟨l, _ | headers⟩ := r
  · exact ⟨hbytes, hbuffer⟩
  · exact ⟨hbytes, hbuffer⟩

end Loader

/-! ### The whole handler -/

/-- The header block of every response on the chain of redirects fits in `headers`, and what
`read_body` reads at a time of the rest fits in `body_buf`. -/
structure ArraysFit (env : Env) (request : Request) : Prop where
  blocks : ∀ stream ∈ responses env maxRedirects 0 request, BlockFits stream
  body : BodyFits
    ((finalTrail env request).restBuffer env maxRedirects (finalTrail env request).carriedBuffer)
    ((finalTrail env request).rest env maxRedirects)

instance (env : Env) (request : Request) : Decidable (ArraysFit env request) :=
  decidable_of_iff (_ ∧ _) ⟨fun h => ArraysFit.mk h.1 h.2, fun h => ⟨h.blocks, h.body⟩⟩

/-- The miss path has a result exactly when everything that it stores fits. -/
theorem Loader.fetchWithin_eq_some_iff {env : Env} {request : Request} {l : Loader} :
    fetchWithin env request = some l ↔ ArraysFit env request ∧ fetch env request = l := by
  have hloop {r : Loader × Option (List Byte)} :=
    @headerLoopWithin_eq_some_iff env (connectPhase env request) maxRedirects r
  rw [headerBuffer_iff] at hloop
  obtain ⟨hbytes, hbuffer⟩ := headPhase_left env request
  unfold fetchWithin
  cases hwithin : (connectPhase env request).headerLoopWithin env maxRedirects with
  | none =>
      have hnot : ¬ ArraysFit env request := by
        intro hfits
        have hsome := hloop.mpr ⟨hfits.blocks, rfl⟩
        rw [hwithin] at hsome
        cases hsome
      simp [hnot]
  | some r =>
      obtain ⟨hblocks, rfl⟩ := hloop.mp hwithin
      simp only [Option.map_eq_some_iff, bodyLoopWithin_eq_some_iff]
      constructor
      · rintro ⟨_, ⟨hbody, rfl⟩, rfl⟩
        refine ⟨⟨hblocks, ?_⟩, rfl⟩
        rw [← hbytes, ← hbuffer]
        exact hbody
      · rintro ⟨hfits, rfl⟩
        have hbody := hfits.body
        rw [← hbytes, ← hbuffer] at hbody
        exact ⟨_, ⟨hbody, rfl⟩, rfl⟩

/-- How a run goes: a byte is stored behind the end of an array, the run waits for a loader that a
quiet server does not have, or it returns. -/
inductive HandlerRun
  | overruns
  | waits
  | returns (out : Outcome)

/-- `client_handler` after `read_header`, on its arrays. -/
def clientHandlerWithin (env : Env) (map : CacheMap) (request : Request) : HandlerRun :=
  if request.method ≠ .get then .returns ⟨map, [.sendClient notAllowedText]⟩
  else
    match mapFindByUrl map request.searchPath with
    | some entry => if entry.complete then .returns ⟨map, streamNodes env 0 entry.nodes⟩ else .waits
    | none =>
        match Loader.fetchWithin env request with
        | none => .overruns
        | some l =>
            let filled := fillFirst (listAdds l.log) (mapAdd map request.searchPath)
            .returns
              { map := if l.needToCache then filled else mapRemove filled l.request.searchPath
                log := l.log }

section Handler

variable {env env' : Env} {map : CacheMap} {request : Request} {out : Outcome}

/-- A run that returns does what `clientHandler` does, and on the miss path everything fits. -/
theorem clientHandlerWithin_eq_returns_iff :
    clientHandlerWithin env map request = .returns out ↔
      clientHandler env map request = some out ∧
        (request.method = .get → mapFindByUrl map request.searchPath = none →
          ArraysFit env request) := by
  unfold clientHandlerWithin clientHandler
  by_cases hget : request.method = .get
  · simp only [hget, ne_eq, not_true_eq_false, if_false, forall_const]
    cases hfind : mapFindByUrl map request.searchPath with
    | some entry =>
        simp only [reduceCtorEq, false_implies, and_true]
        split <;> simp
    | none =>
        simp only [forall_const, Option.some.injEq]
        cases hwithin : Loader.fetchWithin env request with
        | none =>
            have hnot : ¬ ArraysFit env request := by
              intro hfits
              have hsome := Loader.fetchWithin_eq_some_iff.mpr ⟨hfits, rfl⟩
              rw [hwithin] at hsome
              cases hsome
            simp [hnot]
        | some l =>
            obtain ⟨hfits, rfl⟩ := Loader.fetchWithin_eq_some_iff.mp hwithin
            simp [hfits, missPath]
  · simp [hget]

/-- On the miss path. -/
theorem clientHandlerWithin_miss (hget : request.method = .get)
    (hmiss : mapFindByUrl map request.searchPath = none) :
    clientHandlerWithin env map request = .returns out ↔
      missPath env map request = out ∧ ArraysFit env request := by
  rw [clientHandlerWithin_eq_returns_iff, clientHandler_miss hget hmiss, Option.some.injEq]
  simp [hget, hmiss]

theorem clientHandlerWithin_eq_overruns_iff :
    clientHandlerWithin env map request = .overruns ↔
      request.method = .get ∧ mapFindByUrl map request.searchPath = none ∧
        ¬ ArraysFit env request := by
  constructor
  · intro hrun
    unfold clientHandlerWithin at hrun
    split at hrun
    case isTrue => cases hrun
    case isFalse hget =>
        split at hrun
        case h_1 => split at hrun <;> cases hrun
        case h_2 hmiss =>
            refine ⟨not_not.mp hget, hmiss, fun hfits => ?_⟩
            rw [Loader.fetchWithin_eq_some_iff.mpr ⟨hfits, rfl⟩] at hrun
            cases hrun
  · rintro ⟨hget, hmiss, hnot⟩
    have hwithin : Loader.fetchWithin env request = none :=
      Option.eq_none_iff_forall_ne_some.mpr fun l hl =>
        hnot (Loader.fetchWithin_eq_some_iff.mp hl).1
    simp [clientHandlerWithin, hget, hmiss, hwithin]

/-- Only what the upstream servers deliver matters. -/
theorem ArraysFit.congr (hstreams : ∀ k request, streamAt env' k request = streamAt env k request)
    (request : Request) : ArraysFit env' request ↔ ArraysFit env request := by
  have hresponses (n k : Nat) (request : Request) :
      responses env' n k request = responses env n k request := by
    induction n generalizing k request with
    | zero => rfl
    | succ n ih =>
        rw [responses, responses, hstreams]
        split <;> simp [ih]
  have htrail (n k : Nat) (request : Request) :
      trail env' n k request = trail env n k request := by
    induction n generalizing k request with
    | zero => rfl
    | succ n ih =>
        rw [trail, trail, hstreams]
        split <;> simp [ih]
  have hfinal : finalTrail env' request = finalTrail env request := htrail _ _ _
  have hrest (t : Trail) (limit : Nat) : t.rest env' limit = t.rest env limit := by
    simp only [Trail.rest, Trail.stream, hstreams]
  have hbuffer (t : Trail) (limit : Nat) (carried : Int) :
      t.restBuffer env' limit carried = t.restBuffer env limit carried := by
    simp only [Trail.restBuffer, Trail.stream, hstreams]
  constructor
  · rintro ⟨hblocks, hbody⟩
    rw [hresponses] at hblocks
    rw [hfinal, hrest, hbuffer] at hbody
    exact ⟨hblocks, hbody⟩
  · rintro ⟨hblocks, hbody⟩
    refine ⟨by rwa [hresponses], ?_⟩
    rw [hfinal, hrest, hbuffer]
    exact hbody

/-- A chain that ends at a response that is forwarded: its body is what is left. -/
theorem arraysFit_iff_of_hops (hhops : (finalTrail env request).hops < maxRedirects) :
    ArraysFit env request ↔
      (∀ stream ∈ responses env maxRedirects 0 request, BlockFits stream) ∧
        BodyFits ((finalTrail env request).bodyBuffer env)
          (bodyOf ((finalTrail env request).stream env)) := by
  have hrest : (finalTrail env request).rest env maxRedirects =
      bodyOf ((finalTrail env request).stream env) := if_pos hhops
  have hbuffer : (finalTrail env request).restBuffer env maxRedirects
      (finalTrail env request).carriedBuffer = (finalTrail env request).bodyBuffer env :=
    if_pos hhops
  rw [← hrest, ← hbuffer]
  exact ⟨fun ⟨hblocks, hbody⟩ => ⟨hblocks, hbody⟩, fun ⟨hblocks, hbody⟩ => ⟨hblocks, hbody⟩⟩

end Handler

/-! ### A body that does not fit -/

theorem headLines_line {line rest : List Byte} (fuel : Nat) (hline : 10 ∉ line)
    (hfits : line.length < bufferSize - 1)
    (hblank : startsWith (bytes "\r\n") (line ++ [10]) = false) :
    headLines (fuel + 1) (line ++ 10 :: rest) = (line ++ [10]) :: headLines fuel rest := by
  obtain ⟨b, more, hcons⟩ := List.exists_cons_of_ne_nil (l := line ++ [10]) (by simp)
  have hdrop : (line ++ 10 :: rest).drop (more.length + 1) = rest := by
    have hlength := congrArg List.length hcons
    rw [List.length_append, List.length_singleton, List.length_cons] at hlength
    rw [← hlength, List.append_cons, ← List.length_singleton (a := (10 : Byte)),
      ← List.length_append, List.drop_left]
  rw [headLines, firstLine_append hline hfits, hcons]
  rw [hcons] at hblank
  simp [hblank, hdrop]

theorem headLines_blank (fuel : Nat) (rest : List Byte) :
    headLines (fuel + 1) (13 :: 10 :: rest) = [[13, 10]] := by
  have hfirst : firstLine (bufferSize - 1) (13 :: 10 :: rest) = [13, 10] :=
    @firstLine_append (bufferSize - 1) [13] (by decide) (by decide) rest
  have hblank : startsWith (bytes "\r\n") [13, 10] = true := by decide
  rw [headLines, hfirst]
  simp [hblank]

/-- A response whose `Content-Length` makes `buffer_size` 17296, with this body. -/
def wrappingResponse (body : List Byte) : List Byte :=
  bytes "HTTP/1.1 200 OK\r" ++ 10 :: (bytes "Content-Length: -4294950000\r" ++ 10 :: 13 :: 10 :: body)

theorem statusLineOf_wrappingResponse (body : List Byte) :
    statusLineOf (wrappingResponse body) = bytes "HTTP/1.1 200 OK\r\n" :=
  @firstLine_append (bufferSize - 1) (bytes "HTTP/1.1 200 OK\r") (by decide +kernel)
    (by decide +kernel) _

theorem fieldLines_wrappingResponse (body : List Byte) :
    fieldLines (wrappingResponse body) =
      [bytes "Content-Length: -4294950000\r\n", bytes "\r\n"] := by
  have hrest : (wrappingResponse body).drop (statusLineOf (wrappingResponse body)).length =
      bytes "Content-Length: -4294950000\r" ++ 10 :: 13 :: 10 :: body := by
    rw [statusLineOf_wrappingResponse]
    exact @List.drop_left _ (bytes "HTTP/1.1 200 OK\r\n") _
  obtain ⟨fuel, hfuel⟩ : ∃ fuel,
      (bytes "Content-Length: -4294950000\r" ++ 10 :: 13 :: 10 :: body).length + 1 = fuel + 2 :=
    ⟨(bytes "Content-Length: -4294950000\r").length + body.length + 2, by simp; omega⟩
  simp only [fieldLines, hrest, hfuel]
  rw [headLines_line _ (by decide +kernel) (by decide +kernel) (by decide +kernel), headLines_blank]
  rfl

theorem declaredBuffer_wrappingResponse (body : List Byte) :
    declaredBuffer (wrappingResponse body) = some 17296 := by
  rw [declaredBuffer, fieldLines_wrappingResponse]
  decide +kernel

theorem bodyOf_wrappingResponse (body : List Byte) : bodyOf (wrappingResponse body) = body := by
  rw [bodyOf, headerBlock, statusLineOf_wrappingResponse, fieldLines_wrappingResponse]
  exact @List.drop_left _ (bytes "HTTP/1.1 200 OK\r\n" ++
    [bytes "Content-Length: -4294950000\r\n", bytes "\r\n"].flatten) _

theorem statusOf_wrappingResponse (body : List Byte) : statusOf (wrappingResponse body) = 200 := by
  rw [statusOf, statusLineOf_wrappingResponse]
  decide +kernel

/-- The only connection answers with this response, which is forwarded. -/
theorem finalTrail_answering {response : List Byte}
    (hredirect : isRedirect (statusOf response) = false) :
    finalTrail (answering response) plainRequest = ⟨0, plainRequest, []⟩ ∧
      (finalTrail (answering response) plainRequest).stream (answering response) = response := by
  have hstream := streamAt_answering response
  have htrail : finalTrail (answering response) plainRequest = ⟨0, plainRequest, []⟩ := by
    refine trail_of_locationOf_none ?_ maxRedirects
    rw [hstream]
    exact locationOf_eq_none_of_not_isRedirect hredirect
  rw [htrail]
  exact ⟨rfl, hstream⟩

theorem not_arraysFit_wrappingResponse {body : List Byte} (hlength : bufferSize < body.length) :
    ¬ ArraysFit (answering (wrappingResponse body)) plainRequest := by
  have hredirect : isRedirect (statusOf (wrappingResponse body)) = false := by
    rw [statusOf_wrappingResponse]
    decide
  obtain ⟨htrail, hstream⟩ := finalTrail_answering hredirect
  rw [arraysFit_iff_of_hops (by rw [htrail]; decide)]
  rintro ⟨-, hbody⟩
  rw [Trail.bodyBuffer, hstream, declaredBuffer_wrappingResponse, bodyOf_wrappingResponse] at hbody
  rcases hbody with hsize | hfits
  · have hsmall : (17296 : Int) ≤ bufferSize := hsize
    exact absurd hsmall (by decide)
  · exact absurd hfits (Nat.not_le.mpr hlength)

end Proxy
end OperatingSystems
