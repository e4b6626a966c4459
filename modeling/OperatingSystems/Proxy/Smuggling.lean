import OperatingSystems.Proxy.RoundTrip

/-!
# Line ends in the text that is sent upstream

* `Unsmuggled` — CR and LF occur in the text of a request only where `build_request` appends
  them, and every header line of the text comes from one header line of the client.
* `Piece.Harmless` — what a piece of the client's stream must look like for that.
* `unsmuggled_iff` — the text is in order if and only if all pieces are.
-/

namespace OperatingSystems
namespace Proxy

/-! ### The lines of the text -/

/-- The version as the request line names it. -/
def versionName : Version → List Byte
  | .http10 => bytes " HTTP/1.0"
  | .http11 => bytes " HTTP/1.1"
  | .invalid => []

/-- The lines that `build_request` writes, without the line ends that it appends. -/
def sentLines (req : Request) : List (List Byte) :=
  (bytes "GET " ++ extractUri req.searchPath ++ versionName req.version) ::
    (sentItems req).map (fun item => item.key ++ bytes ": " ++ item.value) ++ [[]]

theorem buildRequest_eq_lines {req : Request} (hversion : req.version ≠ .invalid) :
    buildRequest req = some ((sentLines req).flatMap (· ++ bytes "\r\n")) := by
  have hname : (versionText req.version).getD [] = versionName req.version ++ bytes "\r\n" := by
    cases hv : req.version with
    | http10 => decide
    | http11 => decide
    | invalid => exact absurd hv hversion
  have hitems : (sentItems req).flatMap itemLine =
      ((sentItems req).map fun item => item.key ++ bytes ": " ++ item.value).flatMap
        (· ++ bytes "\r\n") := by
    rw [List.flatMap_map]
    rfl
  rw [buildRequest_eq hversion, sentRequestLine, hname, hitems, sentLines]
  simp

theorem count_flatMap_crlf {c : Byte} (hc : c = 13 ∨ c = 10) (lines : List (List Byte)) :
    (lines.flatMap (· ++ bytes "\r\n")).count c = lines.flatten.count c + lines.length := by
  have hcrlf : (bytes "\r\n").count c = 1 := by
    rcases hc with rfl | rfl <;> decide
  induction lines with
  | nil => rfl
  | cons line lines ih =>
      rw [List.flatMap_cons, List.count_append, List.count_append, ih, hcrlf, List.flatten_cons,
        List.count_append, List.length_cons]
      omega

/-- Only the appended line ends count if no line contains the byte. -/
theorem count_flatMap_crlf_iff {c : Byte} (hc : c = 13 ∨ c = 10) (lines : List (List Byte)) :
    (lines.flatMap (· ++ bytes "\r\n")).count c = lines.length ↔ ∀ line ∈ lines, c ∉ line := by
  rw [count_flatMap_crlf hc, Nat.add_eq_right, List.count_eq_zero, List.mem_flatten]
  simp

theorem splitOn_flatMap_lines (lines : List (List Byte)) :
    (lines.flatMap (· ++ bytes "\r\n")).splitOn 10 =
      lines.flatMap (fun line => (line ++ [13]).splitOn 10) ++ [[]] := by
  have hcrlf : bytes "\r\n" = [13, 10] := by decide
  induction lines with
  | nil => rfl
  | cons line lines ih =>
      have hsplit : (line :: lines).flatMap (· ++ bytes "\r\n") =
          (line ++ [13]) ++ 10 :: lines.flatMap (· ++ bytes "\r\n") := by
        simp [hcrlf]
      rw [hsplit, List.splitOn_append_cons_self, ih, List.flatMap_cons, List.append_assoc]

theorem splitOn_flatMap_crlf {lines : List (List Byte)} (h : ∀ line ∈ lines, 10 ∉ line) :
    (lines.flatMap (· ++ bytes "\r\n")).splitOn 10 = lines.map (· ++ [13]) ++ [[]] := by
  have hsingle : ∀ line ∈ lines, (line ++ [13]).splitOn 10 = [line ++ [13]] := by
    intro line hmem
    have hline : 10 ∉ line ++ [13] := by simpa using h line hmem
    exact List.splitOn_eq_singleton hline
  rw [splitOn_flatMap_lines, List.flatMap_def, List.map_congr_left hsingle, ← List.flatMap_def,
    List.map_eq_flatMap]

/-! ### The pieces of the stream -/

/-- The piece starts behind a newline of the stream and ends with the next one. -/
def Piece.WholeLine (stream : List Byte) (piece : Piece) : Prop :=
  (stream.take piece.start).getLast? = some 10 ∧ piece.line.getLast? = some 10

instance (stream : List Byte) (piece : Piece) : Decidable (piece.WholeLine stream) :=
  inferInstanceAs (Decidable (_ ∧ _))

/-- The bytes up to the first colon behind other bytes. -/
def lineKey (line : List Byte) : List Byte :=
  (line.dropWhile (· == 58)).takeWhile (· != 58)

/-- What follows the key, its colon and the CRs directly behind the colon. -/
def behindKey (line : List Byte) : List Byte :=
  (((line.dropWhile (· == 58)).dropWhile (· != 58)).drop 1).dropWhile (· == 13)

/-- If the piece has something behind a key that is passed on, then it is a whole line, there is
no CR in the key, and there is a CR behind the first byte of the rest. -/
def Piece.Harmless (stream : List Byte) (piece : Piece) : Prop :=
  behindKey piece.line ≠ [] → keptKey (lineKey piece.line) = true →
    piece.WholeLine stream ∧ 13 ∉ lineKey piece.line ∧ 13 ∈ behindKey piece.line

instance (stream : List Byte) (piece : Piece) : Decidable (piece.Harmless stream) :=
  inferInstanceAs (Decidable (_ → _ → _))

theorem firstLine_subset {n : Nat} {stream : List Byte} : firstLine n stream ⊆ stream := by
  induction n generalizing stream with
  | zero => simp [firstLine]
  | succ n ih =>
      cases stream with
      | nil => simp [firstLine]
      | cons b stream =>
          rw [firstLine]
          split
          · simp
          · exact List.cons_subset_cons b ih

/-- A newline ends a line. -/
theorem notMem_dropLast_firstLine (n : Nat) (stream : List Byte) :
    10 ∉ (firstLine n stream).dropLast := by
  induction n generalizing stream with
  | zero => simp [firstLine]
  | succ n ih =>
      cases stream with
      | nil => simp [firstLine]
      | cons b stream =>
          rw [firstLine]
          split
          · simp
          · next hb =>
            intro hmem
            cases hrest : firstLine n stream with
            | nil => simp [hrest] at hmem
            | cons a rest =>
                rw [hrest, List.dropLast_cons_cons, List.mem_cons] at hmem
                rcases hmem with rfl | hmem
                · exact hb rfl
                · exact ih stream (hrest ▸ hmem)

/-- The pieces are lines of the stream. -/
theorem mem_piecesFrom {fuel start : Nat} {stream : List Byte} {piece : Piece}
    (h : piece ∈ piecesFrom fuel start stream) :
    piece.line ⊆ stream ∧ 10 ∉ piece.line.dropLast := by
  induction fuel generalizing start stream with
  | zero => simp [piecesFrom] at h
  | succ fuel ih =>
      have hsubset : firstLine (lineBufferSize - 1) stream ⊆ stream := firstLine_subset
      have hnewline := notMem_dropLast_firstLine (lineBufferSize - 1) stream
      simp only [piecesFrom] at h
      split at h
      · cases h
      · next b line hfirst =>
        split at h
        · cases h
        · rcases List.mem_cons.mp h with rfl | h
          · rw [hfirst] at hsubset hnewline
            exact ⟨hsubset, hnewline⟩
          · obtain ⟨hline, hlast⟩ := ih h
            exact ⟨fun b hb => List.mem_of_mem_drop (hline hb), hlast⟩

theorem mem_headerPieces {stream : List Byte} {piece : Piece} (h : piece ∈ headerPieces stream) :
    piece.line ⊆ stream ∧ 10 ∉ piece.line.dropLast := by
  obtain ⟨hline, hlast⟩ := mem_piecesFrom h
  exact ⟨fun b hb => List.mem_of_mem_drop (hline hb), hlast⟩

/-! ### One piece -/

theorem metadataItem_eq {line : List Byte} (hnul : 0 ∉ line) :
    metadataItem line =
      if behindKey line = [] then none
      else some ⟨lineKey line, ((behindKey line).takeWhile (· != 13)).dropWhile (· == 32)⟩ := by
  unfold metadataItem lineKey behindKey strtok
  rw [cstr_of_notMem hnul]
  cases hskip : line.dropWhile (· == 58) with
  | nil => simp
  | cons b rest =>
      simp only
      cases hbehind : (((b :: rest).dropWhile (· != 58)).drop 1).dropWhile (· == 13) with
      | nil => simp
      | cons c behind => simp

/-- The key and what is behind it are parts of the line. -/
theorem line_eq_of_behindKey {line : List Byte} (h : behindKey line ≠ []) :
    ∃ front c back, line = front ++ lineKey line ++ c :: back ++ behindKey line := by
  unfold behindKey lineKey at *
  generalize hskip : line.dropWhile (· == 58) = named at *
  cases hcolon : named.dropWhile (· != 58) with
  | nil => simp [hcolon] at h
  | cons c behind =>
      refine ⟨line.takeWhile (· == 58), c, behind.takeWhile (· == 13), ?_⟩
      have hbehind : behind.takeWhile (· == 13) ++ behind.dropWhile (· == 13) = behind :=
        List.takeWhile_append_dropWhile
      calc line
          = line.takeWhile (· == 58) ++ named := by
            rw [← hskip, List.takeWhile_append_dropWhile]
        _ = line.takeWhile (· == 58) ++ (named.takeWhile (· != 58) ++ c :: behind) := by
            rw [← hcolon, List.takeWhile_append_dropWhile]
        _ = _ := by
            conv_lhs => rw [← hbehind]
            simp

section OnePiece

variable {stream : List Byte} {piece : Piece}

/-- In a whole line the newline is behind the key, and it is not in the value if a CR stands
in front of it. -/
theorem Piece.WholeLine.newline (h : piece.WholeLine stream) (hlast : 10 ∉ piece.line.dropLast)
    (hne : behindKey piece.line ≠ []) :
    10 ∉ lineKey piece.line ∧
      (10 ∉ ((behindKey piece.line).takeWhile (· != 13)).dropWhile (· == 32) ↔
        13 ∈ behindKey piece.line) := by
  obtain ⟨front, c, back, hline⟩ := line_eq_of_behindKey hne
  have hend := h.2
  generalize lineKey piece.line = key at *
  generalize behindKey piece.line = behind at *
  rw [hline, List.getLast?_append, List.getLast?_eq_some_getLast hne, Option.some_or] at hend
  rw [hline, List.dropLast_append_of_ne_nil hne] at hlast
  simp only [List.mem_append, not_or] at hlast
  obtain ⟨⟨⟨-, hkey⟩, -⟩, hbehind⟩ := hlast
  have hmem : 10 ∈ behind := Option.some.inj hend ▸ List.getLast_mem hne
  refine ⟨hkey, fun hvalue => ?_, fun hcr hvalue => ?_⟩
  · by_contra hcr
    have htake : behind.takeWhile (· != 13) = behind :=
      List.takeWhile_eq_self_iff.mpr fun b hb => by
        simp only [bne_iff_ne, ne_eq]
        rintro rfl
        exact hcr hb
    rw [htake] at hvalue
    rw [← List.takeWhile_append_dropWhile (p := (· == 32)) (l := behind), List.mem_append] at hmem
    rcases hmem with hspace | hrest
    · exact absurd (List.mem_takeWhile_imp hspace) (by decide)
    · exact hvalue hrest
  · have htoken : 10 ∈ behind.takeWhile (· != 13) := (List.dropWhile_suffix _).subset hvalue
    have hsplit : behind.takeWhile (· != 13) ++ behind.dropWhile (· != 13) = behind :=
      List.takeWhile_append_dropWhile
    have hrest : behind.dropWhile (· != 13) ≠ [] := by
      intro hnil
      have hall := List.dropWhile_eq_nil_iff.mp hnil 13 hcr
      simp at hall
    rw [← hsplit, List.dropLast_append_of_ne_nil hrest] at hbehind
    exact hbehind (List.mem_append_left _ htoken)

/-- A piece is harmless if what is kept of it has no line end and comes from a whole line. -/
theorem Piece.harmless_iff (hnul : 0 ∉ piece.line) (hlast : 10 ∉ piece.line.dropLast) :
    piece.Harmless stream ↔ ∀ item ∈ metadataItem piece.line, item.kept = true →
      piece.WholeLine stream ∧ (13 ∉ item.key ∧ 13 ∉ item.value) ∧
        10 ∉ item.key ∧ 10 ∉ item.value := by
  rw [metadataItem_eq hnul]
  unfold Piece.Harmless
  by_cases hne : behindKey piece.line = []
  · simp [hne]
  · have hreturn : 13 ∉ ((behindKey piece.line).takeWhile (· != 13)).dropWhile (· == 32) := by
      intro hmem
      exact absurd (List.mem_takeWhile_imp ((List.dropWhile_suffix _).subset hmem)) (by decide)
    simp only [hne, if_false, Option.mem_some_iff, forall_eq', MetadataItem.kept, ne_eq,
      not_false_eq_true, forall_const]
    refine imp_congr_right fun _ => and_congr_right fun hwhole => ?_
    obtain ⟨hkey, hvalue⟩ := hwhole.newline hlast hne
    rw [hvalue]
    simp [hreturn, hkey]

end OnePiece

/-! ### The text -/

/-- The text is a request line, a line for every item that is kept and for `Connection: close`,
and a blank line; CR and LF occur in it only at the ends of these lines, and every item that is
kept comes from one whole line of the client's stream. -/
structure Unsmuggled (stream : List Byte) (req : Request) (text : List Byte) : Prop where
  returns : text.count 13 = (sentLines req).length
  newlines : text.count 10 = (sentLines req).length
  lines : text.splitOn 10 = (sentLines req).map (· ++ [13]) ++ [[]]
  whole : ∀ piece ∈ headerPieces stream, ∀ item ∈ metadataItem piece.line, item.kept = true →
    piece.WholeLine stream

theorem searchPath_parseTokens {state : ParserState} {tokens : List (List Byte)}
    {request : HeaderRequest} {path : List Byte}
    (h : (parseTokens state tokens request).searchPath = some path) :
    request.searchPath = some path ∨ path ∈ tokens := by
  induction tokens generalizing state request with
  | nil => cases state <;> exact .inl h
  | cons token tokens ih =>
      cases state with
      | method =>
          rw [parseTokens] at h
          split at h
          · exact .inl h
          · exact (ih h).imp_right (List.mem_cons_of_mem _)
      | url =>
          rcases ih h with hpath | hpath
          · exact .inr (Option.some.inj hpath ▸ List.mem_cons_self)
          · exact .inr (List.mem_cons_of_mem _ hpath)
      | version => exact (ih h).imp_right (List.mem_cons_of_mem _)
      | done => exact .inl h

/-- What `read_header` has accepted, by the bytes of the stream. -/
theorem accepted_spec {version : Version} {s : Socket} {header : HeaderRequest} {req : Request}
    (hread : (readHeader version s).1 = some header) (haccepted : header.accepted = some req) :
    req.metadata = (headerPieces s.bytes).filterMap (fun piece => metadataItem piece.line) ∧
      ∀ b ∈ req.searchPath, b ≠ 13 ∧ b ≠ 10 := by
  rw [readHeader_spec] at hread
  split at hread
  · cases hread
  · obtain rfl := Option.some.inj hread
    obtain ⟨path, hpath, rfl⟩ := Option.map_eq_some_iff.mp haccepted
    refine ⟨rfl, fun b hb => ?_⟩
    have hdelimiters : bytes " \r\n" = [32, 13, 10] := by decide
    have htoken := (searchPath_parseTokens hpath).resolve_left nofun
    have hclean := notMem_of_mem_strsepTokens htoken hb
    rw [hdelimiters] at hclean
    simp only [List.mem_cons, List.not_mem_nil, or_false, not_or] at hclean
    exact hclean.2

/-- The lines of the text are clean if what is kept is. -/
theorem sentLines_clean {req : Request} {c : Byte} (hc : c = 13 ∨ c = 10)
    (hpath : c ∉ req.searchPath) :
    (∀ line ∈ sentLines req, c ∉ line) ↔
      ∀ item ∈ req.metadata, item.kept = true → c ∉ item.key ∧ c ∉ item.value := by
  have hcolon : c ∉ bytes ": " := by rcases hc with rfl | rfl <;> decide
  have hline : c ∉ bytes "GET " ++ extractUri req.searchPath ++ versionName req.version := by
    have hget : c ∉ bytes "GET " := by rcases hc with rfl | rfl <;> decide
    have hversion : c ∉ versionName req.version := by
      cases req.version <;> rcases hc with rfl | rfl <;> decide
    have huri : c ∉ extractUri req.searchPath := fun hmem => by
      rcases mem_extractUri hmem with hmem | hslash
      · exact hpath hmem
      · rcases hc with rfl | rfl <;> exact absurd hslash (by decide)
    simp [hget, huri, hversion]
  have hclose : c ∉ closeItem.key ++ bytes ": " ++ closeItem.value := by
    rcases hc with rfl | rfl <;> decide
  unfold sentLines sentItems
  constructor
  · intro h item hitem hkept
    have hmem := h (item.key ++ bytes ": " ++ item.value) (by
      simp only [List.mem_append, List.mem_cons, List.mem_map]
      exact .inl (.inr ⟨item, .inl (List.mem_filter.mpr ⟨hitem, hkept⟩), rfl⟩))
    simp only [List.mem_append, not_or] at hmem
    exact ⟨hmem.1.1, hmem.2⟩
  · intro h line hmem
    simp only [List.cons_append, List.mem_append, List.mem_cons, List.mem_map, List.not_mem_nil,
      or_false] at hmem
    rcases hmem with rfl | ⟨item, hitem | hitem, rfl⟩ | rfl
    · exact hline
    · obtain ⟨hitem, hkept⟩ := List.mem_filter.mp hitem
      obtain ⟨hkey, hvalue⟩ := h item hitem hkept
      simp [hkey, hvalue, hcolon]
    · split at hitem
      · obtain rfl := List.mem_singleton.mp hitem
        exact hclose
      · cases hitem
    · simp

/-- For every stream without NUL from which `read_header` makes a request, the text for the
upstream server is in order if and only if every piece of the stream is harmless. -/
theorem unsmuggled_iff {version : Version} {s : Socket} {header : HeaderRequest} {req : Request}
    {text : List Byte} (hnul : 0 ∉ s.bytes) (hread : (readHeader version s).1 = some header)
    (haccepted : header.accepted = some req) (hbuild : buildRequest req = some text) :
    Unsmuggled s.bytes req text ↔ ∀ piece ∈ headerPieces s.bytes, piece.Harmless s.bytes := by
  obtain ⟨hmetadata, hpath⟩ := accepted_spec hread haccepted
  have hversion : req.version ≠ .invalid := fun h => by
    simp [buildRequest, h, versionText] at hbuild
  rw [buildRequest_eq_lines hversion, Option.some.injEq] at hbuild
  subst hbuild
  have hreturns : ((sentLines req).flatMap (· ++ bytes "\r\n")).count 13 = (sentLines req).length ↔
      ∀ item ∈ req.metadata, item.kept = true → 13 ∉ item.key ∧ 13 ∉ item.value :=
    (count_flatMap_crlf_iff (.inl rfl) _).trans
      (sentLines_clean (.inl rfl) fun hmem => (hpath _ hmem).1 rfl)
  have hnewlines : ((sentLines req).flatMap (· ++ bytes "\r\n")).count 10 = (sentLines req).length ↔
      ∀ item ∈ req.metadata, item.kept = true → 10 ∉ item.key ∧ 10 ∉ item.value :=
    (count_flatMap_crlf_iff (.inr rfl) _).trans
      (sentLines_clean (.inr rfl) fun hmem => (hpath _ hmem).2 rfl)
  have hitems : ∀ {item}, item ∈ req.metadata ↔
      ∃ piece ∈ headerPieces s.bytes, metadataItem piece.line = some item := by
    intro item
    rw [hmetadata, List.mem_filterMap]
  have hpieces : ∀ piece ∈ headerPieces s.bytes, piece.Harmless s.bytes ↔
      ∀ item ∈ metadataItem piece.line, item.kept = true →
        piece.WholeLine s.bytes ∧ (13 ∉ item.key ∧ 13 ∉ item.value) ∧
          10 ∉ item.key ∧ 10 ∉ item.value := fun piece hpiece =>
    Piece.harmless_iff (fun hmem => hnul ((mem_headerPieces hpiece).1 hmem))
      (mem_headerPieces hpiece).2
  constructor
  · intro h piece hpiece
    refine (hpieces piece hpiece).mpr fun item hitem hkept => ?_
    have hmem := hitems.mpr ⟨piece, hpiece, hitem⟩
    exact ⟨h.whole piece hpiece item hitem hkept, hreturns.mp h.returns item hmem hkept,
      hnewlines.mp h.newlines item hmem hkept⟩
  · intro h
    have hclean : ∀ item ∈ req.metadata, item.kept = true →
        (13 ∉ item.key ∧ 13 ∉ item.value) ∧ 10 ∉ item.key ∧ 10 ∉ item.value := by
      intro item hmem hkept
      obtain ⟨piece, hpiece, hitem⟩ := hitems.mp hmem
      exact ((hpieces piece hpiece).mp (h piece hpiece) item hitem hkept).2
    have hlines := hnewlines.mpr fun item hmem hkept => (hclean item hmem hkept).2
    exact ⟨hreturns.mpr fun item hmem hkept => (hclean item hmem hkept).1, hlines,
      splitOn_flatMap_crlf ((count_flatMap_crlf_iff (.inr rfl) _).mp hlines),
      fun piece hpiece item hitem hkept =>
        ((hpieces piece hpiece).mp (h piece hpiece) item hitem hkept).1⟩

/-- A request for `http://a/` with one header line. -/
def oneHeaderStream (line : String) : List Byte :=
  bytes "GET http://a/ HTTP/1.1\r\n" ++ bytes line ++ bytes "\r\n"

theorem unsmuggled_iff_harmless :
    ∃ header req text,
      (readHeader .invalid ⟨oneHeaderStream "Tag:b:c \r\n", [2, 0]⟩).1 = some header ∧
      header.accepted = some req ∧ buildRequest req = some text ∧
      Unsmuggled (oneHeaderStream "Tag:b:c \r\n") req text := by
  let req : Request := ⟨.get, .http11, bytes "http://a/", [⟨bytes "Tag", bytes "b:c "⟩]⟩
  have hread : (readHeader .invalid ⟨oneHeaderStream "Tag:b:c \r\n", [2, 0]⟩).1 =
      some ⟨.get, .http11, some (bytes "http://a/"), [⟨bytes "Tag", bytes "b:c "⟩]⟩ := by
    decide +kernel
  have hbuild : buildRequest req =
      some (bytes "GET / HTTP/1.1\r\nTag: b:c \r\nConnection: close\r\n\r\n") := by
    decide +kernel
  have hharmless : ∀ piece ∈ headerPieces (oneHeaderStream "Tag:b:c \r\n"),
      piece.Harmless (oneHeaderStream "Tag:b:c \r\n") := by
    decide +kernel
  exact ⟨_, req, _, hread, rfl, hbuild,
    (unsmuggled_iff (by decide +kernel) hread rfl hbuild).mpr hharmless⟩

/-- The value of a header line without a value is the newline at the end of the line. -/
theorem unsmuggled_emptyValue_false :
    ¬∀ (version : Version) (s : Socket) (header : HeaderRequest) (req : Request)
      (text : List Byte), 0 ∉ s.bytes → (readHeader version s).1 = some header →
        header.accepted = some req → req.method = .get → buildRequest req = some text →
        Unsmuggled s.bytes req text := by
  intro h
  have hread : (readHeader .invalid ⟨oneHeaderStream "Accept:\r\n", []⟩).1 =
      some ⟨.get, .http11, some (bytes "http://a/"), [⟨bytes "Accept", bytes "\n"⟩]⟩ := by
    decide +kernel
  have hbuild : buildRequest ⟨.get, .http11, bytes "http://a/", [⟨bytes "Accept", bytes "\n"⟩]⟩ =
      some (bytes "GET / HTTP/1.1\r\nAccept: \n\r\nConnection: close\r\n\r\n") := by
    decide +kernel
  have hnewlines := (h .invalid _ _ _ _ (by decide +kernel) hread rfl rfl hbuild).newlines
  exact absurd hnewlines (by decide +kernel)

end Proxy
end OperatingSystems
