import OperatingSystems.Library.Socket

/-!
# Reading a response

The readers of `handler/handlers.c` and the header loop of `client_handler`.
`readLine` returns one line (or the first `maxLen - 1` bytes of a longer one),
`readBody` fills a buffer as far as the stream reaches, and `headerLines` is the
inner loop that collects the header block of one response.

Every reader is specified by the bytes of the stream alone: `readLine_fst`,
`readBody_fst` and `headerLines_spec` say what it returns, whatever way the
transport cuts the stream, and that it consumes exactly those bytes.

The two arrays that the readers fill, `headers` of `BUFFER_SIZE * 16` bytes and
`body_buf` of `BUFFER_SIZE`, are lists without a bound here, so what `headerLines`
and `readBody` return is what the code does as long as it fits.  The loops on the
arrays, where a byte behind the end leaves no result, are `headerLinesWithin` and
`readBodyWithin`; they agree with these exactly when everything fits.
-/

namespace OperatingSystems
namespace Proxy

/-- `BUFFER_SIZE`. -/
def bufferSize : Nat := 8192

/-- `MAX_REDIRECTS`. -/
def maxRedirects : Nat := 5

/-! ### `read_line` -/

/-- The loop of `read_line`, with room for `n` more bytes. -/
def readLineLoop : Nat → Socket → List Byte × Socket
  | 0, s => ([], s)
  | n + 1, s =>
      match s.recv 1 with
      | ([], s') => ([], s')
      | (read :: _, s') =>
          if read = 10 then ([read], s')
          else (read :: (readLineLoop n s').1, (readLineLoop n s').2)

/-- `read_line(socket, buf, max_len)`; the empty list is the result `0`. -/
def readLine (s : Socket) (maxLen : Nat) : List Byte × Socket :=
  readLineLoop (maxLen - 1) s

/-- The first line of a stream, cut after `n` bytes. -/
def firstLine : Nat → List Byte → List Byte
  | 0, _ => []
  | _ + 1, [] => []
  | n + 1, b :: stream => if b = 10 then [b] else b :: firstLine n stream

theorem readLineLoop_spec (n : Nat) (s : Socket) :
    (readLineLoop n s).1 = firstLine n s.bytes ∧
      (readLineLoop n s).1 ++ (readLineLoop n s).2.bytes = s.bytes := by
  induction n generalizing s with
  | zero => simp [readLineLoop, firstLine]
  | succ n ih =>
      obtain ⟨stream, cuts⟩ := s
      cases stream with
      | nil => simp [readLineLoop, firstLine, Socket.recv]
      | cons b stream =>
          have hrest := ih ⟨stream, cuts.tail⟩
          by_cases hb : b = 10
          · simp [readLineLoop, firstLine, Socket.recv, hb]
          · constructor
            · simp [readLineLoop, firstLine, Socket.recv, hb, hrest.1]
            · simpa [readLineLoop, Socket.recv, hb] using hrest.2

@[simp] theorem readLine_fst (s : Socket) (maxLen : Nat) :
    (readLine s maxLen).1 = firstLine (maxLen - 1) s.bytes :=
  (readLineLoop_spec _ s).1

theorem readLine_append (s : Socket) (maxLen : Nat) :
    (readLine s maxLen).1 ++ (readLine s maxLen).2.bytes = s.bytes :=
  (readLineLoop_spec _ s).2

/-- With room for a byte, a line is empty only at the end of the stream. -/
theorem firstLine_eq_nil_iff {n : Nat} (hn : 0 < n) (stream : List Byte) :
    firstLine n stream = [] ↔ stream = [] := by
  cases n with
  | zero => omega
  | succ n =>
      cases stream with
      | nil => simp [firstLine]
      | cons b stream =>
          simp only [firstLine]
          split <;> simp

theorem firstLine_append {n : Nat} {line : List Byte} (hline : 10 ∉ line) (hn : line.length < n)
    (rest : List Byte) : firstLine n (line ++ 10 :: rest) = line ++ [10] := by
  induction line generalizing n with
  | nil =>
      obtain ⟨n, rfl⟩ := Nat.exists_eq_succ_of_ne_zero (by omega : n ≠ 0)
      rfl
  | cons b line ih =>
      obtain ⟨n, rfl⟩ := Nat.exists_eq_succ_of_ne_zero (by omega : n ≠ 0)
      simp only [List.mem_cons, not_or] at hline
      simp only [List.length_cons, Nat.succ_lt_succ_iff] at hn
      rw [List.cons_append, firstLine, if_neg (Ne.symm hline.1), ih hline.2 hn, List.cons_append]

/-- A line that fits into the buffer is read as a whole, and nothing of what follows. -/
theorem readLine_line {s : Socket} {maxLen : Nat} {line rest : List Byte}
    (hs : s.bytes = line ++ 10 :: rest) (hline : 10 ∉ line) (hfits : line.length + 1 < maxLen) :
    (readLine s maxLen).1 = line ++ [10] ∧ (readLine s maxLen).2.bytes = rest := by
  have hfst : (readLine s maxLen).1 = line ++ [10] := by
    rw [readLine_fst, hs, firstLine_append hline (by omega)]
  refine ⟨hfst, ?_⟩
  have happend := readLine_append s maxLen
  rw [hfst, hs] at happend
  simpa using happend

/-! ### `read_body` -/

/-- The loop of `read_body`, with `left = max_buffer - total`; every round
receives a byte, so `left` rounds are enough. -/
def readBodyLoop : Nat → Nat → Socket → List Byte × Socket
  | 0, _, s => ([], s)
  | fuel + 1, left, s =>
      if left = 0 then ([], s)
      else
        match s.recv left with
        | ([], s') => ([], s')
        | (b :: got, s') =>
            (b :: got ++ (readBodyLoop fuel (left - (got.length + 1)) s').1,
              (readBodyLoop fuel (left - (got.length + 1)) s').2)

/-- `read_body(socket, buf, max_buffer)` on a socket other than `-1`, for a `buf`
that has room for what is read; the empty list is the result `-1`. -/
def readBody (s : Socket) (maxBuffer : Int) : List Byte × Socket :=
  readBodyLoop maxBuffer.toNat maxBuffer.toNat s

theorem readBodyLoop_spec (fuel left : Nat) (hfuel : left ≤ fuel) (s : Socket) :
    (readBodyLoop fuel left s).1 = s.bytes.take left ∧
      (readBodyLoop fuel left s).2.bytes = s.bytes.drop left := by
  induction fuel generalizing left s with
  | zero =>
      obtain rfl : left = 0 := by omega
      simp [readBodyLoop]
  | succ fuel ih =>
      simp only [readBodyLoop]
      by_cases hleft : left = 0
      · simp [hleft]
      · have hpos : 0 < left := by omega
        have happend := s.recv_append left
        have hlength := s.length_recv_le left
        have hnil := s.recv_eq_nil_iff hpos
        simp only [hleft, if_false]
        match hrecv : s.recv left with
        | ([], s') =>
            rw [hrecv] at happend hnil
            have hempty : s.bytes = [] := hnil.mp rfl
            have hs' : s'.bytes = [] := by simpa [hempty] using happend
            simp [hempty, hs']
        | (b :: got, s') =>
            rw [hrecv] at happend hlength
            simp only [List.length_cons] at hlength
            obtain ⟨hfst, hsnd⟩ := ih (left - (got.length + 1)) (by omega) s'
            have hsplit : left = (b :: got).length + (left - (got.length + 1)) := by
              simp only [List.length_cons]
              omega
            simp only [hfst, hsnd]
            rw [← happend]
            constructor
            · conv_rhs => rw [hsplit, List.take_length_add_append]
            · conv_rhs => rw [hsplit, List.drop_length_add_append]

@[simp] theorem readBody_fst (s : Socket) (maxBuffer : Int) :
    (readBody s maxBuffer).1 = s.bytes.take maxBuffer.toNat :=
  (readBodyLoop_spec _ _ (Nat.le_refl _) s).1

@[simp] theorem readBody_snd_bytes (s : Socket) (maxBuffer : Int) :
    (readBody s maxBuffer).2.bytes = s.bytes.drop maxBuffer.toNat :=
  (readBodyLoop_spec _ _ (Nat.le_refl _) s).2

/-! ### The status line and the header block -/

/-- `parse_http_status`. -/
def parseHttpStatus (statusLine : List Byte) : Int :=
  match strchr (cstr statusLine) 32 with
  | none => -1
  | some code => atoi (code.drop 1)

/-- `is_redirect`. -/
def isRedirect (status : Int) : Bool :=
  300 ≤ status && status < 400

/-- `cache_allowed`. -/
def cacheAllowed (status : Int) : Bool :=
  200 ≤ status && status < 300

/-- The `Location` value of a header line. -/
def locationValue (line : List Byte) : List Byte :=
  ((line.drop 9).dropWhile (· == 32)).takeWhile fun b => b != 13 && b != 10 && b != 0

/-- `buffer_size` as a `Content-Length` line sets it. -/
def contentBuffer (line : List Byte) : Int :=
  let contentLength := atoll (line.drop 16)
  toInt32 (if contentLength < bufferSize then contentLength else bufferSize)

/-- What the header loop knows about one response. -/
structure Head where
  headers : List Byte
  location : Option (List Byte)
  bufferSize : Int

/-- Collect one header line, and its `Location` value in a redirect. -/
def Head.collect (status : Int) (head : Head) (line : List Byte) : Head :=
  { head with
    headers := head.headers ++ line
    location :=
      if isRedirect status && startsWithCase (bytes "Location:") line then
        some (locationValue line)
      else head.location }

/-- The `Content-Length` test at the end of the loop body. -/
def Head.contentLength (head : Head) (line : List Byte) : Head :=
  { head with
    bufferSize :=
      if startsWith (bytes "Content-Length: ") line then contentBuffer line
      else head.bufferSize }

/-- The inner header loop of `client_handler`, up to the blank line or the end
of the stream, for an array that has room for all the lines.  Every round consumes
a line, so one round more than there are bytes is enough. -/
def headerLines : Nat → Int → Socket → Head → Head × Socket
  | 0, _, s, head => (head, s)
  | fuel + 1, status, s, head =>
      match readLine s Proxy.bufferSize with
      | ([], s') => (head, s')
      | (b :: line, s') =>
          if startsWith (bytes "\r\n") (b :: line) then
            (head.collect status (b :: line), s')
          else
            headerLines fuel status s'
              ((head.collect status (b :: line)).contentLength (b :: line))

/-! ### The header block as a list of lines -/

/-- The lines the header loop reads from a stream: up to and including the
first blank line, or up to the end of the stream. -/
def headLines : Nat → List Byte → List (List Byte)
  | 0, _ => []
  | fuel + 1, stream =>
      match firstLine (bufferSize - 1) stream with
      | [] => []
      | b :: line =>
          if startsWith (bytes "\r\n") (b :: line) then [b :: line]
          else (b :: line) :: headLines fuel (stream.drop (line.length + 1))

/-- What a line sets `buffer_size` to, if it is a `Content-Length` line. -/
def contentLengthLine (line : List Byte) : Option Int :=
  if startsWith (bytes "Content-Length: ") line then some (contentBuffer line) else none

/-- What a line sets `location` to in a response with this status. -/
def locationLine (status : Int) (line : List Byte) : Option (List Byte) :=
  if isRedirect status && startsWithCase (bytes "Location:") line then
    some (locationValue line)
  else none

/-- The last value that the lines set, or the value before them. -/
def lastSet {α : Type*} (set : List Byte → Option α) (lines : List (List Byte)) : Option α :=
  (lines.filterMap set).getLast?

/-- The blank line is no `Content-Length` line. -/
theorem contentLengthLine_blank {line : List Byte} (h : startsWith (bytes "\r\n") line) :
    contentLengthLine line = none := by
  obtain ⟨rest, hrest⟩ : ∃ rest, bytes "Content-Length: " = 67 :: rest := ⟨_, rfl⟩
  have hcrlf : bytes "\r\n" = [13, 10] := by decide
  cases line with
  | nil => simp [hcrlf, startsWith] at h
  | cons b line =>
      rw [hcrlf, startsWith, List.isPrefixOf_cons_cons, Bool.and_eq_true, beq_iff_eq] at h
      rw [contentLengthLine, hrest, startsWith, List.isPrefixOf_cons_cons, ← h.1]
      simp

/-- Lines in front only count where the later ones set nothing. -/
theorem lastSet_append {α : Type*} (set : List Byte → Option α) (lines more : List (List Byte)) :
    lastSet set (lines ++ more) = (lastSet set more).or (lastSet set lines) := by
  simp [lastSet, List.getLast?_append]

theorem lastSet_cons {α : Type*} (set : List Byte → Option α) (line : List Byte)
    (lines : List (List Byte)) :
    lastSet set (line :: lines) = (lastSet set lines).or (set line) := by
  have hline : lastSet set [line] = set line := by
    cases hset : set line <;> simp [lastSet, hset]
  rw [← List.singleton_append, lastSet_append, hline]

/-- The header loop, by the lines it reads: it collects them all, keeps the last
`Location` of a redirect and the last `Content-Length`, and leaves the rest of
the stream. -/
theorem headerLines_spec (fuel : Nat) (status : Int) (s : Socket) (head : Head) :
    (headerLines fuel status s head).1 =
        { headers := head.headers ++ (headLines fuel s.bytes).flatten
          location := (lastSet (locationLine status) (headLines fuel s.bytes)).or head.location
          bufferSize :=
            (lastSet contentLengthLine (headLines fuel s.bytes)).getD head.bufferSize } ∧
      (headLines fuel s.bytes).flatten ++ (headerLines fuel status s head).2.bytes = s.bytes := by
  induction fuel generalizing s head with
  | zero => simp [headerLines, headLines, lastSet]
  | succ fuel ih =>
      have hline := readLine_fst s bufferSize
      have happend := readLine_append s bufferSize
      simp only [headerLines, headLines]
      match hread : readLine s bufferSize with
      | ([], s') =>
          rw [hread] at hline happend
          simp only [List.nil_append] at happend
          simp [← hline, lastSet, happend]
      | (b :: line, s') =>
          rw [hread] at hline happend
          simp only at hline
          have hrest : s.bytes.drop (line.length + 1) = s'.bytes := by
            rw [← happend]
            simp
          simp only [← hline]
          by_cases hblank : startsWith (bytes "\r\n") (b :: line)
          · have hnone := contentLengthLine_blank hblank
            constructor
            · simp only [hblank, if_true, Head.collect, lastSet_cons, hnone, locationLine]
              simp only [lastSet, List.filterMap_nil, List.getLast?_nil, Option.none_or,
                List.flatten_cons, List.flatten_nil, List.append_nil, Option.getD_none]
              split <;> simp
            · simpa [hblank] using happend
          · obtain ⟨hhead, hbytes⟩ :=
              ih s' ((head.collect status (b :: line)).contentLength (b :: line))
            simp only [hblank, Bool.false_eq_true, if_false, hrest]
            constructor
            · rw [hhead]
              simp only [Head.collect, Head.contentLength, lastSet_cons, locationLine,
                contentLengthLine, List.flatten_cons, List.append_assoc, Head.mk.injEq,
                true_and]
              constructor
              · cases lastSet (locationLine status) (headLines fuel s'.bytes) <;>
                  split <;> simp [*]
              · cases lastSet contentLengthLine (headLines fuel s'.bytes) <;>
                  split <;> simp [*]
            · rw [List.flatten_cons, List.append_assoc, hbytes]
              exact happend

end Proxy
end OperatingSystems
