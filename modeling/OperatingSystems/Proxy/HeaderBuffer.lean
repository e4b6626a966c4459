import OperatingSystems.Proxy.Redirects

/-!
# The buffer that collects a header block

`client_handler` copies the lines of a header block one behind the other into `headers`, a local
array of `BUFFER_SIZE * 16` bytes.  The model of the header loop collects them in a list, so the
copies are recorded here beside it.

* `Loader.headerLoopCopies` — the copies that the header loop makes, with the same control flow
  as `Loader.headerLoop`.
* `responses` — what the upstream servers of a chain of redirects deliver.
* `headerBuffer_iff` — every copy stays inside the buffer if and only if every header block of
  the chain fits in it.
-/

namespace OperatingSystems
namespace Proxy

/-- One `memcpy(headers + headers_len, buffer, len)`. -/
structure Memcpy where
  headersLen : Nat
  len : Nat
  deriving DecidableEq

/-- The size of `headers`. -/
def headersCapacity : Nat :=
  bufferSize * 16

/-- The copy stays inside the buffer. -/
def Memcpy.Fits (copy : Memcpy) : Prop :=
  copy.headersLen + copy.len ≤ headersCapacity

instance (copy : Memcpy) : Decidable copy.Fits :=
  inferInstanceAs (Decidable (_ ≤ _))

/-! ### One response -/

/-- The copies of `headerLines`: `headers_len` is the length of what is collected so far. -/
def headerCopies : Nat → Int → Socket → Head → List Memcpy
  | 0, _, _, _ => []
  | fuel + 1, status, s, head =>
      match readLine s Proxy.bufferSize with
      | ([], _) => []
      | (b :: line, s') =>
          ⟨head.headers.length, (b :: line).length⟩ ::
            if startsWith (bytes "\r\n") (b :: line) then []
            else
              headerCopies fuel status s'
                ((head.collect status (b :: line)).contentLength (b :: line))

theorem headerCopies_fit_iff (fuel : Nat) (status : Int) (s : Socket) (head : Head)
    (hhead : head.headers.length ≤ headersCapacity) :
    (∀ copy ∈ headerCopies fuel status s head, copy.Fits) ↔
      head.headers.length + (headLines fuel s.bytes).flatten.length ≤ headersCapacity := by
  induction fuel generalizing s head with
  | zero => simpa [headerCopies, headLines] using hhead
  | succ fuel ih =>
      have hline := readLine_fst s bufferSize
      have happend := readLine_append s bufferSize
      simp only [headerCopies, headLines]
      rcases hread : readLine s bufferSize with ⟨_ | ⟨b, line⟩, s'⟩
      · rw [hread] at hline
        simpa [← hline] using hhead
      · rw [hread] at hline happend
        simp only at hline
        have hrest : s.bytes.drop (line.length + 1) = s'.bytes := by
          rw [← happend]
          simp
        simp only [← hline, List.forall_mem_cons]
        by_cases hblank : startsWith (bytes "\r\n") (b :: line)
        · simp [hblank, Memcpy.Fits]
        · have hcollected :
              ((head.collect status (b :: line)).contentLength (b :: line)).headers.length =
                head.headers.length + (b :: line).length :=
            List.length_append
          simp only [hblank, Bool.false_eq_true, if_false, hrest, List.flatten_cons,
            List.length_append]
          -- the copies behind this one can only fit if this one does
          constructor
          · rintro ⟨hfits, hcopies⟩
            rw [ih _ _ (by rw [hcollected]; exact hfits), hcollected] at hcopies
            omega
          · intro hall
            have hfits : head.headers.length + (b :: line).length ≤ headersCapacity := by omega
            refine ⟨hfits, ?_⟩
            rw [ih _ _ (by rw [hcollected]; exact hfits), hcollected]
            omega

/-! ### A chain of redirects -/

/-- The responses that the header loop reads, from the one of the `k`-th connection on. -/
def responses (env : Env) : Nat → Nat → Request → List (List Byte)
  | 0, _, _ => []
  | n + 1, k, request =>
      streamAt env k request ::
        match locationOf (streamAt env k request) with
        | none => []
        | some location => responses env n (k + 1) (updateRequestFromLocation request location)

/-- The header block of a response fits in the buffer. -/
def BlockFits (stream : List Byte) : Prop :=
  (headerBlock stream).length ≤ headersCapacity

instance (stream : List Byte) : Decidable (BlockFits stream) :=
  inferInstanceAs (Decidable (_ ≤ _))

theorem blockFits_nil : BlockFits [] := by
  decide

theorem length_firstLine (n : Nat) (stream : List Byte) : (firstLine n stream).length ≤ n := by
  induction n generalizing stream with
  | zero => simp [firstLine]
  | succ n ih =>
      cases stream with
      | nil => simp [firstLine]
      | cons b stream =>
          rw [firstLine]
          split
          · simp
          · have := ih stream
            rw [List.length_cons]
            omega

/-- A status line is shorter than the buffer. -/
theorem length_statusLineOf (stream : List Byte) :
    (statusLineOf stream).length ≤ headersCapacity := by
  have hline := length_firstLine (bufferSize - 1) stream
  unfold statusLineOf headersCapacity bufferSize at *
  omega

namespace Loader

variable {env : Env} {l : Loader} {k : Nat}

/-- The copies of the status line and of the header lines of one response. -/
def responseCopies (l : Loader) : List Memcpy :=
  let line := l.readStatusLine
  ⟨0, line.1.length⟩ ::
    headerCopies (line.2.conn.bytes.length + 1) (parseHttpStatus line.1) line.2.conn
      ⟨line.1, none, line.2.bufferSize⟩

/-- The copies of `headerLoop`. -/
def headerLoopCopies (env : Env) : Nat → Loader → List Memcpy
  | 0, _ => []
  | n + 1, l =>
      let line := l.readStatusLine
      if line.1 = [] then []
      else
        l.responseCopies ++
          let head := line.2.readHead line.1
          if !isRedirect (parseHttpStatus line.1) then []
          else
            match head.1.location with
            | none => []
            | some location =>
                let next := head.2.follow env location
                if next.targetSocket.isNone then []
                else
                  headerLoopCopies env n { next.requestSend with redirects := next.redirects + 1 }

theorem responseCopies_fit_iff :
    (∀ copy ∈ l.responseCopies, copy.Fits) ↔ BlockFits l.conn.bytes := by
  have hstatus := length_statusLineOf l.conn.bytes
  have hfits : Memcpy.Fits ⟨0, (statusLineOf l.conn.bytes).length⟩ := by
    unfold Memcpy.Fits
    rwa [Nat.zero_add]
  have hcopies := headerCopies_fit_iff (l.readStatusLine.2.conn.bytes.length + 1)
    (parseHttpStatus l.readStatusLine.1) l.readStatusLine.2.conn
    ⟨l.readStatusLine.1, none, l.readStatusLine.2.bufferSize⟩ (by rwa [readStatusLine_fst])
  rw [responseCopies, List.forall_mem_cons, hcopies, readStatusLine_fst,
    readStatusLine_conn_bytes, BlockFits, headerBlock, fieldLines, List.length_append]
  exact and_iff_right hfits

/-- One round, by the response on the upstream socket. -/
theorem headerLoopCopies_succ (env : Env) (n : Nat) (l : Loader) :
    l.headerLoopCopies env (n + 1) =
      if l.conn.bytes = [] then []
      else
        l.responseCopies ++
          if isRedirect (statusOf l.conn.bytes) = false then []
          else
            match locationOf l.conn.bytes with
            | none => []
            | some location =>
                if (l.readResponse.follow env location).targetSocket.isNone then []
                else headerLoopCopies env n (l.nextHop env location) := by
  have hresponse : (l.readStatusLine.2.readHead l.readStatusLine.1).2 = l.readResponse := rfl
  conv_lhs => unfold headerLoopCopies
  simp only [readStatusLine_eq_nil, parseHttpStatus_readStatusLine, hresponse, readHead_fst,
    Bool.not_eq_true']
  rfl

theorem headerLoopCopies_fit_iff (n : Nat) (hstart : l.StartsAt env k) :
    (∀ copy ∈ l.headerLoopCopies env n, copy.Fits) ↔
      ∀ stream ∈ responses env n k l.request, BlockFits stream := by
  induction n generalizing k l with
  | zero => simp [headerLoopCopies, responses]
  | succ n ih =>
      rw [headerLoopCopies_succ, responses, ← hstart.bytes, List.forall_mem_cons]
      by_cases hempty : l.conn.bytes = []
      · have hnone : locationOf ([] : List Byte) = none :=
          locationOf_eq_none_of_not_isRedirect isRedirect_statusOf_nil
        simp [hempty, hnone, blockFits_nil]
      · rw [if_neg hempty, List.forall_mem_append, responseCopies_fit_iff]
        refine and_congr_right fun _ => ?_
        by_cases hredirect : isRedirect (statusOf l.conn.bytes) = false
        · simp [hredirect, locationOf_eq_none_of_not_isRedirect hredirect]
        · rw [if_neg hredirect]
          rw [Bool.not_eq_false] at hredirect
          cases hlocation : locationOf l.conn.bytes with
          | none => simp
          | some location =>
              cases htarget : (l.readResponse.follow env location).targetSocket with
              | none =>
                  -- nothing is read from a server that is not reached
                  have hnil := (trail_of_not_reached hstart htarget n).2
                  have hnone : locationOf ([] : List Byte) = none :=
                    locationOf_eq_none_of_not_isRedirect isRedirect_statusOf_nil
                  cases n with
                  | zero => simp [htarget, responses]
                  | succ n => simp [htarget, responses, hnil, hnone, blockFits_nil]
              | some fd =>
                  have hreached : (l.readResponse.follow env location).targetSocket ≠ none := by
                    simp [htarget]
                  obtain ⟨hnext, hto⟩ := nextHop_spec hstart hredirect hreached
                  have hrest := ih hnext
                  rw [hto.request] at hrest
                  simpa [htarget] using hrest

end Loader

/-- For every request and every behaviour of the upstream servers: each copy of a line into
`headers` ends inside the buffer if and only if the header block of every response on the chain
of redirects fits in it. -/
theorem headerBuffer_iff (env : Env) (request : Request) :
    (∀ copy ∈ (Loader.connectPhase env request).headerLoopCopies env maxRedirects, copy.Fits) ↔
      ∀ stream ∈ responses env maxRedirects 0 request, BlockFits stream := by
  have hcopies := Loader.headerLoopCopies_fit_iff maxRedirects
    (Loader.connectPhase_startsAt env request)
  rwa [Loader.connectPhase_request] at hcopies

/-- Without a CR there is no blank line, and the header loop reads to the end of the stream. -/
theorem flatten_headLines_of_notMem {fuel : Nat} {stream : List Byte} (hreturn : 13 ∉ stream)
    (hfuel : stream.length < fuel) : (headLines fuel stream).flatten = stream := by
  have hcrlf : bytes "\r\n" = [13, 10] := by decide
  induction fuel generalizing stream with
  | zero => omega
  | succ fuel ih =>
      have hprefix := firstLine_prefix_self (bufferSize - 1) stream
      have hnil := firstLine_eq_nil_iff (n := bufferSize - 1) (by decide) stream
      rw [headLines]
      cases hline : firstLine (bufferSize - 1) stream with
      | nil => simp [hnil.mp hline]
      | cons b line =>
          rw [hline] at hprefix
          obtain ⟨rest, rfl⟩ := hprefix
          have hb : b ≠ 13 := by
            rintro rfl
            exact hreturn (by simp)
          have hblank : startsWith (bytes "\r\n") (b :: line) = false := by
            rw [startsWith, hcrlf, List.isPrefixOf_cons_cons]
            simp [hb.symm]
          have hdrop : (b :: line ++ rest).drop (line.length + 1) = rest := by simp
          simp only [List.length_append, List.length_cons] at hfuel
          simp only [hblank, Bool.false_eq_true, if_false, hdrop, List.flatten_cons]
          rw [ih (fun hmem => hreturn (List.mem_append_right _ hmem)) (by omega)]

theorem headerBlock_of_notMem {stream : List Byte} (hreturn : 13 ∉ stream) :
    headerBlock stream = stream := by
  have hfirst : statusLineOf stream ++ stream.drop (statusLineOf stream).length = stream :=
    List.prefix_iff_eq_append.mp (firstLine_prefix_self _ stream)
  rw [headerBlock, fieldLines, flatten_headLines_of_notMem
    (fun hmem => hreturn (List.mem_of_mem_drop hmem)) (Nat.lt_succ_self _), hfirst]

theorem streamAt_answering (response : List Byte) :
    streamAt (answering response) 0 plainRequest = response := by
  have hconnected : Connected (answering response) plainRequest :=
    ⟨by decide, rfl, by decide, rfl⟩
  rw [streamAt, if_pos hconnected]
  rfl

/-- A response of one byte more than the buffer has, without any line end. -/
def endlessResponse : List Byte :=
  List.replicate 131073 97

theorem headerBuffer_overrun :
    ¬ ∀ copy ∈ (Loader.connectPhase (answering endlessResponse) plainRequest).headerLoopCopies
      (answering endlessResponse) maxRedirects, copy.Fits := by
  rw [Loader.headerLoopCopies_fit_iff maxRedirects (Loader.connectPhase_startsAt _ _),
    Loader.connectPhase_request]
  intro h
  have hmem : streamAt (answering endlessResponse) 0 plainRequest ∈
      responses (answering endlessResponse) maxRedirects 0 plainRequest := by
    rw [maxRedirects, responses]
    exact List.mem_cons_self
  have hfirst := h _ hmem
  have hreturn : 13 ∉ endlessResponse := fun hmem =>
    absurd (List.eq_of_mem_replicate hmem) (by decide)
  rw [streamAt_answering, BlockFits, headerBlock_of_notMem hreturn, endlessResponse,
    List.length_replicate, headersCapacity, bufferSize] at hfirst
  omega

end Proxy
end OperatingSystems
