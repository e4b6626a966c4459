import OperatingSystems.Proxy.Reading
import OperatingSystems.Proxy.Request

/-!
# Reading a request

`request_init`, `parse_method` and `parse_metadata` of `handler/messages/messages.c`, and
`read_header`.  `request_init` leaves `version` as `malloc` returned it: the caller of
`readHeader` says what it is.

* `headerPieces` — the pieces of the stream that `read_header` parses as header lines, and
  where each of them starts.
* `readHeader_spec` — `read_header` parses the request line and these pieces, whatever way
  the transport cuts the stream.
-/

namespace OperatingSystems
namespace Proxy

/-- `LINE_BUFFER_SIZE`. -/
def lineBufferSize : Nat := 8192

/-- `Request` while `read_header` fills it in: `search_path` may be the null pointer. -/
structure HeaderRequest where
  method : Method
  version : Version
  searchPath : Option (List Byte)
  metadata : List MetadataItem
  deriving DecidableEq

/-- `request_init`. -/
def requestInit (version : Version) : HeaderRequest :=
  ⟨.options, version, none, []⟩

/-- `client_handler` goes on with a request that has a `search_path`. -/
def HeaderRequest.accepted (request : HeaderRequest) : Option Request :=
  request.searchPath.map fun searchPath =>
    ⟨request.method, request.version, searchPath, request.metadata⟩

/-! ### `parse_method` -/

/-- `methods`, with the number of each name as a `Method`. -/
def methods : List (List Byte × Method) :=
  [(bytes "OPTIONS", .options), (bytes "GET", .get), (bytes "HEAD", .head),
    (bytes "POST", .post), (bytes "PUT", .put), (bytes "DELETE", .delete),
    (bytes "TRACE", .trace), (bytes "CONNECT", .connect), (bytes "INVALID", .unknown)]

/-- The version of a token. -/
def parseVersion (token : List Byte) : Version :=
  if startsWith (bytes "HTTP/1.0") token then .http10
  else if startsWith (bytes "HTTP/1.1") token then .http11
  else .invalid

/-- `parser_states`. -/
inductive ParserState
  | method
  | url
  | version
  | done

/-- The loop of `parse_method` over the tokens of the request line. -/
def parseTokens : ParserState → List (List Byte) → HeaderRequest → HeaderRequest
  | _, [], request => request
  | .method, token :: tokens, request =>
      match methods.find? (·.1 == token) with
      | none => { request with method := .unknown }
      | some found => parseTokens .url tokens { request with method := found.2 }
  | .url, token :: tokens, request =>
      parseTokens .version tokens { request with searchPath := some token }
  | .version, token :: tokens, request =>
      parseTokens .done tokens { request with version := parseVersion token }
  | .done, _ :: _, request => request

/-- `parse_method`. -/
def parseMethod (request : HeaderRequest) (buffer : List Byte) : HeaderRequest :=
  parseTokens .method (strsepTokens (bytes " \r\n") (cstr buffer)) request

theorem parseTokens_metadata (state : ParserState) (tokens : List (List Byte))
    (request : HeaderRequest) :
    (parseTokens state tokens request).metadata = request.metadata := by
  induction tokens generalizing state request with
  | nil => cases state <;> rfl
  | cons token tokens ih =>
      cases state with
      | method =>
          rw [parseTokens]
          split
          · rfl
          · exact ih _ _
      | url => exact ih _ _
      | version => exact ih _ _
      | done => rfl

/-! ### `parse_metadata` -/

/-- The item that `parse_metadata` makes of a line, if it makes one. -/
def metadataItem (buffer : List Byte) : Option MetadataItem :=
  match strtok (cstr buffer) 58 with
  | none => none
  | some (key, rest) =>
      match strtok rest 13 with
      | none => none
      | some (value, _) => some ⟨key, value.dropWhile (· == 32)⟩

/-- `parse_metadata`. -/
def parseMetadata (request : HeaderRequest) (buffer : List Byte) : HeaderRequest :=
  { request with metadata := request.metadata ++ (metadataItem buffer).toList }

/-! ### `read_header` -/

/-- The loop of `read_header`.  Every round consumes a byte, so one round more than there are
bytes is enough. -/
def readHeaderLoop : Nat → Socket → HeaderRequest → HeaderRequest × Socket
  | 0, s, request => (request, s)
  | fuel + 1, s, request =>
      match readLine s lineBufferSize with
      | ([], s') => (request, s')
      | (b :: line, s') =>
          if cstr (b :: line) = bytes "\r\n" then (request, s')
          else readHeaderLoop fuel s' (parseMetadata request (b :: line))

/-- `read_header`; `version` is what `malloc` leaves in `request->version`. -/
def readHeader (version : Version) (s : Socket) : Option HeaderRequest × Socket :=
  match readLine s lineBufferSize with
  | ([], s') => (none, s')
  | (b :: line, s') =>
      let result := readHeaderLoop (s'.bytes.length + 1) s'
        (parseMethod (requestInit version) (b :: line))
      (some result.1, result.2)

/-- `read_header` has read a request line. -/
theorem readHeader_of_line {version : Version} {s : Socket} {line : List Byte}
    (hline : (readLine s lineBufferSize).1 = line) (hne : line ≠ []) :
    readHeader version s =
      (some (readHeaderLoop ((readLine s lineBufferSize).2.bytes.length + 1)
          (readLine s lineBufferSize).2 (parseMethod (requestInit version) line)).1,
        (readHeaderLoop ((readLine s lineBufferSize).2.bytes.length + 1)
          (readLine s lineBufferSize).2 (parseMethod (requestInit version) line)).2) := by
  rw [readHeader]
  match hread : readLine s lineBufferSize with
  | ([], s') =>
      rw [hread] at hline
      exact absurd hline.symm hne
  | (b :: rest, s') =>
      rw [hread] at hline
      obtain rfl := hline
      rfl

/-- One round that has read a line. -/
theorem readHeaderLoop_succ {fuel : Nat} {s : Socket} {request : HeaderRequest} {line : List Byte}
    (hline : (readLine s lineBufferSize).1 = line) (hne : line ≠ []) :
    readHeaderLoop (fuel + 1) s request =
      if cstr line = bytes "\r\n" then (request, (readLine s lineBufferSize).2)
      else readHeaderLoop fuel (readLine s lineBufferSize).2 (parseMetadata request line) := by
  rw [readHeaderLoop]
  match hread : readLine s lineBufferSize with
  | ([], s') =>
      rw [hread] at hline
      exact absurd hline.symm hne
  | (b :: rest, s') =>
      rw [hread] at hline
      obtain rfl := hline
      rfl

/-! ### The pieces of the stream -/

/-- What one call of `read_line` has put into the buffer, and where in the stream it starts. -/
structure Piece where
  start : Nat
  line : List Byte

/-- The header lines that `read_header` parses in what is left of the stream behind `start`. -/
def piecesFrom : Nat → Nat → List Byte → List Piece
  | 0, _, _ => []
  | fuel + 1, start, stream =>
      match firstLine (lineBufferSize - 1) stream with
      | [] => []
      | b :: line =>
          if cstr (b :: line) = bytes "\r\n" then []
          else ⟨start, b :: line⟩ ::
            piecesFrom fuel (start + (line.length + 1)) (stream.drop (line.length + 1))

/-- What `read_header` parses as the request line. -/
def requestLine (stream : List Byte) : List Byte :=
  firstLine (lineBufferSize - 1) stream

/-- What `read_header` parses as header lines. -/
def headerPieces (stream : List Byte) : List Piece :=
  let start := (requestLine stream).length
  piecesFrom (stream.length - start + 1) start (stream.drop start)

theorem readHeaderLoop_spec (fuel start : Nat) (s : Socket) (request : HeaderRequest) :
    (readHeaderLoop fuel s request).1 =
      { request with
        metadata := request.metadata ++
          (piecesFrom fuel start s.bytes).filterMap fun piece => metadataItem piece.line } := by
  induction fuel generalizing start s request with
  | zero => simp [readHeaderLoop, piecesFrom]
  | succ fuel ih =>
      have hline := readLine_fst s lineBufferSize
      have happend := readLine_append s lineBufferSize
      simp only [readHeaderLoop, piecesFrom]
      match hread : readLine s lineBufferSize with
      | ([], s') =>
          rw [hread] at hline
          simp [← hline]
      | (b :: line, s') =>
          rw [hread] at hline happend
          have hrest : s.bytes.drop (line.length + 1) = s'.bytes := by
            rw [← happend]
            simp
          simp only at hline
          simp only [← hline, hrest]
          split
          · simp
          · rw [ih (start + (line.length + 1))]
            cases hitem : metadataItem (b :: line) <;> simp [parseMetadata, hitem]

/-- `read_header` by the bytes of the stream. -/
theorem readHeader_spec (version : Version) (s : Socket) :
    (readHeader version s).1 =
      if s.bytes = [] then none
      else some { parseMethod (requestInit version) (requestLine s.bytes) with
        metadata := (headerPieces s.bytes).filterMap fun piece => metadataItem piece.line } := by
  have hline := readLine_fst s lineBufferSize
  have happend := readLine_append s lineBufferSize
  have hnil := firstLine_eq_nil_iff (n := lineBufferSize - 1) (by decide) s.bytes
  unfold readHeader headerPieces requestLine
  match hread : readLine s lineBufferSize with
  | ([], s') =>
      rw [hread] at hline
      simp [hnil.mp hline.symm]
  | (b :: line, s') =>
      rw [hread] at hline happend
      simp only at hline
      have hne : s.bytes ≠ [] := fun h => by simp [hnil.mpr h] at hline
      have hrest : s.bytes.drop (b :: line).length = s'.bytes := by
        rw [← happend]
        simp
      have hlength : s.bytes.length - (b :: line).length = s'.bytes.length := by
        rw [← hrest, List.length_drop]
      have hmetadata : (parseMethod (requestInit version) (b :: line)).metadata = [] :=
        parseTokens_metadata _ _ _
      simp only [← hline, hrest, hlength, if_neg hne]
      rw [readHeaderLoop_spec _ (b :: line).length, hmetadata, List.nil_append]

end Proxy
end OperatingSystems
