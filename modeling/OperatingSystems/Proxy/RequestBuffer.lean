import OperatingSystems.Library.StringBuffer
import OperatingSystems.Proxy.RoundTrip
import OperatingSystems.Proxy.ShortSends

/-!
# The buffer of `build_request`

`build_request` walks over the request twice: once to find out how large its buffer has to be,
once to write into it.  Here the buffer is the block that `malloc` returns, and the strings of a
request are buffers that are used up to their first NUL.  `size` is a number without a bound:
every string is an allocation of its own, so their lengths together fit into a `long`.

* `requestSize`, `writeRequest` — the two walks.
* `writtenParts` — what the second walk appends; `requestSize_eq` says that the first one counts
  just that.
* `buildBuffer_spec` — nothing is written behind the end, and the buffer has the text of
  `buildRequest` in it; `requestSendBuffer_eq` — `request_send` hands over that text.
-/

namespace OperatingSystems
namespace Proxy

/-! ### The two walks -/

/-- The header lines that both walks leave out. -/
def connectionItem (item : MetadataItem) : Bool :=
  cstr item.key == bytes "Connection" || cstr item.key == bytes "Proxy-Connection"

/-- The `uri` of `build_request`. -/
def requestUri (req : Request) : List Byte :=
  extractUri (cstr req.searchPath)

/-- What the first walk adds for one header line. -/
def addItemSize (size : Nat) (item : MetadataItem) : Nat :=
  if connectionItem item then size else size + (strlen item.key + 2 + strlen item.value + 2)

/-- The first walk: `size`, none for an invalid version. -/
def requestSize (req : Request) : Option Nat :=
  let size := strlen (bytes "GET ") + strlen (requestUri req)
  match req.version with
  | .http10 =>
      some (req.metadata.foldl addItemSize (size + strlen (bytes " HTTP/1.0\r\n")) + 2)
  | .http11 =>
      some (req.metadata.foldl addItemSize (size + strlen (bytes " HTTP/1.1\r\n")) +
        strlen (bytes "Connection: close\r\n") + 2)
  | .invalid => none

/-- What the second walk does with one header line. -/
def writeItem (buffer : List Byte) (item : MetadataItem) : Option (List Byte) :=
  if connectionItem item then some buffer
  else do
    let buffer ← strcat buffer item.key
    let buffer ← strcat buffer (bytes ": ")
    let buffer ← strcat buffer item.value
    strcat buffer (bytes "\r\n")

/-- The second walk. -/
def writeRequest (req : Request) (buffer : List Byte) : Option (List Byte) := do
  let buffer ← strcpy buffer (bytes "GET ")
  let buffer ← strcat buffer (requestUri req)
  let buffer ← strcat buffer
    (if req.version = .http10 then bytes " HTTP/1.0\r\n" else bytes " HTTP/1.1\r\n")
  let buffer ← req.metadata.foldlM writeItem buffer
  let buffer ←
    if req.version = .http11 then strcat buffer (bytes "Connection: close\r\n") else some buffer
  strcat buffer (bytes "\r\n")

/-- How `build_request` ends: with the null pointer, with a write behind the end of the buffer,
or with the buffer and `*length`. -/
inductive BuildResult
  | null
  | overrun
  | built (buffer : List Byte) (length : Nat)

/-- `build_request` with its buffer; `malloc` returns a block or the null pointer. -/
def buildBuffer (malloc : Nat → Option (List Byte)) (req : Request) : BuildResult :=
  match requestSize req with
  | none => .null
  | some size =>
      match malloc (size + 1) with
      | none => .null
      | some block =>
          match writeRequest req block with
          | none => .overrun
          | some buffer => .built buffer size

/-- `request_send` with this `build_request`: the result and the buffers passed to `send`, none
behind an overrun. -/
def requestSendBuffer (malloc : Nat → Option (List Byte)) (reply : Nat → Int) (req : Request) :
    Option (Int × List (List Byte)) :=
  match buildBuffer malloc req with
  | .null => some (-1, [])
  | .overrun => none
  | .built buffer length => some (sendToClient reply buffer 0 length)

/-! ### What the second walk appends -/

/-- The request with the strings that its buffers have in them. -/
def Request.strings (req : Request) : Request :=
  { req with
    searchPath := cstr req.searchPath
    metadata := req.metadata.map fun item => ⟨cstr item.key, cstr item.value⟩ }

/-- The strings that one header line appends. -/
def itemParts (item : MetadataItem) : List (List Byte) :=
  if connectionItem item then [] else [item.key, bytes ": ", item.value, bytes "\r\n"]

/-- The strings that are appended to `GET `. -/
def writtenParts (req : Request) : List (List Byte) :=
  [requestUri req, if req.version = .http10 then bytes " HTTP/1.0\r\n" else bytes " HTTP/1.1\r\n"] ++
    req.metadata.flatMap itemParts ++
      (if req.version = .http11 then [bytes "Connection: close\r\n"] else []) ++ [bytes "\r\n"]

theorem writeItem_eq (buffer : List Byte) (item : MetadataItem) :
    writeItem buffer item = strcats buffer (itemParts item) := by
  unfold writeItem itemParts
  split
  · rfl
  · unfold strcats
    simp [List.foldlM_cons]

/-- The loop of the second walk is a run of `strcat`s. -/
theorem foldlM_writeItem (metadata : List MetadataItem) (buffer : List Byte) :
    metadata.foldlM writeItem buffer = strcats buffer (metadata.flatMap itemParts) := by
  induction metadata generalizing buffer with
  | nil => rfl
  | cons item metadata ih =>
      rw [List.foldlM_cons, List.flatMap_cons, strcats_append, writeItem_eq]
      exact congrArg _ (funext ih)

/-- The second walk is one `strcpy` and a run of `strcat`s. -/
theorem writeRequest_eq (req : Request) (block : List Byte) :
    writeRequest req block =
      (strcpy block (bytes "GET ")).bind fun buffer => strcats buffer (writtenParts req) := by
  have hfirst : ∀ buffer uri line : List Byte,
      strcats buffer [uri, line] = (strcat buffer uri).bind fun buffer => strcat buffer line := by
    intro buffer uri line
    rw [← List.singleton_append, strcats_append, strcats_singleton]
    simp only [strcats_singleton]
  unfold writeRequest writtenParts
  refine congrArg _ (funext fun buffer => ?_)
  rw [strcats_append, strcats_append, strcats_append, hfirst]
  by_cases hversion : req.version = .http11
  · simp only [foldlM_writeItem, hversion, if_true, strcats_singleton, Option.bind_assoc]
    rfl
  · simp only [foldlM_writeItem, hversion, if_false, strcats_singleton, Option.bind_assoc]
    rfl

theorem cstr_requestUri (req : Request) : cstr (requestUri req) = requestUri req := by
  apply cstr_of_notMem
  intro hmem
  rcases mem_extractUri hmem with hmem | hslash
  · exact notMem_cstr req.searchPath hmem
  · exact absurd hslash (by decide)

/-- The strings of one header line make up its text. -/
theorem flatMap_cstr_itemParts (item : MetadataItem) :
    (itemParts item).flatMap cstr = headerText ⟨cstr item.key, cstr item.value⟩ := by
  have hcolon : cstr (bytes ": ") = bytes ": " := by decide
  have hcrlf : cstr (bytes "\r\n") = bytes "\r\n" := by decide
  unfold itemParts headerText connectionItem
  by_cases hkey : cstr item.key = bytes "Connection" ∨ cstr item.key = bytes "Proxy-Connection"
  · have hitem : (cstr item.key == bytes "Connection" ||
        cstr item.key == bytes "Proxy-Connection") = true := by
      simpa using hkey
    rw [if_pos hitem, if_pos hkey]
    rfl
  · have hitem : ¬(cstr item.key == bytes "Connection" ||
        cstr item.key == bytes "Proxy-Connection") = true := by
      simpa using hkey
    rw [if_neg hitem, if_neg hkey]
    simp [hcolon, hcrlf]

/-- What is in the buffer behind the second walk is the text of the request. -/
theorem buildRequest_strings {req : Request} (hversion : req.version ≠ .invalid) :
    buildRequest req.strings = some (bytes "GET " ++ (writtenParts req).flatMap cstr) := by
  have h10 : cstr (bytes " HTTP/1.0\r\n") = bytes " HTTP/1.0\r\n" := by decide
  have h11 : cstr (bytes " HTTP/1.1\r\n") = bytes " HTTP/1.1\r\n" := by decide
  have hclose : cstr (bytes "Connection: close\r\n") = bytes "Connection: close\r\n" := by decide
  have hcrlf : cstr (bytes "\r\n") = bytes "\r\n" := by decide
  have hitems : (req.metadata.flatMap itemParts).flatMap cstr =
      req.strings.metadata.flatMap headerText := by
    unfold Request.strings
    rw [List.flatMap_assoc, List.flatMap_map]
    simp only [flatMap_cstr_itemParts]
  unfold buildRequest writtenParts
  rw [← hitems]
  change Option.map _ (versionText req.version) = _
  have huri : extractUri req.strings.searchPath = requestUri req := rfl
  have hsame : req.strings.version = req.version := rfl
  rw [huri, hsame]
  cases hv : req.version with
  | http10 => simp [versionText, cstr_requestUri, h10, hcrlf]
  | http11 => simp [versionText, cstr_requestUri, h11, hclose, hcrlf]
  | invalid => exact absurd hv hversion

/-! ### The size is right -/

theorem foldl_addItemSize (metadata : List MetadataItem) (size : Nat) :
    metadata.foldl addItemSize size =
      size + ((metadata.flatMap itemParts).map strlen).sum := by
  have hcolon : strlen (bytes ": ") = 2 := by decide
  have hcrlf : strlen (bytes "\r\n") = 2 := by decide
  induction metadata generalizing size with
  | nil => rfl
  | cons item metadata ih =>
      rw [List.foldl_cons, ih, List.flatMap_cons, List.map_append, List.sum_append]
      unfold addItemSize itemParts
      split
      · simp
      · simp only [List.map_cons, List.map_nil, List.sum_cons, List.sum_nil, hcolon, hcrlf]
        omega

/-- The first walk counts what the second one appends. -/
theorem requestSize_eq {req : Request} (hversion : req.version ≠ .invalid) :
    requestSize req = some (4 + ((writtenParts req).map strlen).sum) := by
  have hget : strlen (bytes "GET ") = 4 := by decide
  have hcrlf : strlen (bytes "\r\n") = 2 := by decide
  unfold requestSize writtenParts
  simp only [foldl_addItemSize, List.map_append, List.sum_append, hget]
  cases hv : req.version with
  | http10 =>
      simp only [if_true, reduceCtorEq, if_false, List.map_cons, List.map_nil, List.sum_cons,
        List.sum_nil, hcrlf, Option.some.injEq]
      omega
  | http11 =>
      simp only [if_true, reduceCtorEq, if_false, List.map_cons, List.map_nil, List.sum_cons,
        List.sum_nil, hcrlf, Option.some.injEq]
      omega
  | invalid => exact absurd hv hversion

/-! ### The buffer -/

/-- A block that `malloc` returns has the size that was asked for, and anything in it. -/
def BlockSized (malloc : Nat → Option (List Byte)) : Prop :=
  ∀ n block, malloc n = some block → block.length = n

/-- The second walk stays inside the block that the first one asked for. -/
theorem writeRequest_holds {req : Request} {block text : List Byte}
    (htext : buildRequest req.strings = some text) (hversion : req.version ≠ .invalid)
    (hblock : block.length = text.length + 1) :
    ∃ buffer, writeRequest req block = some buffer ∧
      HoldsString buffer text (text.length + 1) := by
  have hget : cstr (bytes "GET ") = bytes "GET " := by decide
  have hfour : strlen (bytes "GET ") = 4 := by decide
  rw [buildRequest_strings hversion, Option.some.injEq] at htext
  have hlength : text.length = 4 + ((writtenParts req).map strlen).sum := by
    rw [← htext, List.length_append, length_flatMap_cstr]
    rfl
  obtain ⟨first, hcopy, hfirst⟩ := strcpy_holds (s := bytes "GET ") hblock (by omega)
  rw [hget] at hfirst
  have hfits : (bytes "GET ").length + ((writtenParts req).map strlen).sum < text.length + 1 := by
    change 4 + _ < _
    omega
  obtain ⟨buffer, hrun, hholds⟩ := strcats_holds hfirst hfits
  refine ⟨buffer, ?_, htext ▸ hholds⟩
  rw [writeRequest_eq, hcopy]
  exact hrun

section Buffer

variable {malloc : Nat → Option (List Byte)} {req : Request} {block text : List Byte}

theorem requestSize_text (hversion : req.version ≠ .invalid)
    (htext : buildRequest req.strings = some text) : requestSize req = some text.length := by
  rw [buildRequest_strings hversion, Option.some.injEq] at htext
  rw [requestSize_eq hversion, ← htext, List.length_append, length_flatMap_cstr]
  rfl

theorem buildBuffer_built (hmalloc : BlockSized malloc) (hversion : req.version ≠ .invalid)
    (htext : buildRequest req.strings = some text)
    (hblock : malloc (text.length + 1) = some block) :
    ∃ buffer, buildBuffer malloc req = .built buffer text.length ∧
      HoldsString buffer text (text.length + 1) := by
  obtain ⟨buffer, hwrite, hholds⟩ := writeRequest_holds htext hversion (hmalloc _ _ hblock)
  refine ⟨buffer, ?_, hholds⟩
  unfold buildBuffer
  simp only [requestSize_text hversion htext, hblock, hwrite]

/-- With its buffer `request_send` does what it does with the text. -/
theorem requestSendBuffer_eq (hmalloc : BlockSized malloc) (hversion : req.version ≠ .invalid)
    (htext : buildRequest req.strings = some text)
    (hblock : malloc (text.length + 1) = some block) (reply : Nat → Int) :
    requestSendBuffer malloc reply req = some (requestSend reply req.strings) := by
  obtain ⟨buffer, hbuilt, hholds⟩ := buildBuffer_built hmalloc hversion htext hblock
  obtain ⟨rest, hrest⟩ := hholds.ends
  have htake : buffer.take text.length = text := by
    rw [hrest]
    exact List.take_left
  unfold requestSendBuffer requestSend
  rw [hbuilt, htext]
  simp only [sendToClient, le_refl, if_true, Int.toNat_natCast, htake, List.take_length]

/-- A text goes out in one call. -/
theorem requestSend_text (htext : buildRequest req = some text) (reply : Nat → Int) :
    requestSend reply req = (if reply 0 = -1 then -1 else 0, [text]) := by
  have hpositive := List.length_pos_iff.mpr (buildRequest_ne_nil htext)
  unfold requestSend
  rw [htext]
  simp only [sendToClient]
  rw [if_neg (by omega), if_pos (le_refl 0), Int.toNat_natCast, List.take_length]

end Buffer

/-- For every request with a version, `build_request` returns the null pointer if `malloc` does,
and otherwise a buffer that holds the text of the request with its terminator and no byte more,
and the length of that text; nothing is written behind the end of the buffer, and `request_send`
makes one call of `send` with exactly these bytes. -/
theorem buildBuffer_spec {malloc : Nat → Option (List Byte)} (hmalloc : BlockSized malloc)
    {req : Request} (hversion : req.version ≠ .invalid) :
    ∃ text, buildRequest req.strings = some text ∧ requestSize req = some text.length ∧
      ((malloc (text.length + 1) = none ∧ buildBuffer malloc req = .null) ∨
        ∃ buffer, buildBuffer malloc req = .built buffer text.length ∧
          HoldsString buffer text (text.length + 1) ∧
          ∀ reply, requestSendBuffer malloc reply req =
            some (if reply 0 = -1 then -1 else 0, [text])) := by
  have htext := buildRequest_strings hversion
  generalize bytes "GET " ++ (writtenParts req).flatMap cstr = text at htext
  have hsize := requestSize_text hversion htext
  refine ⟨text, htext, hsize, ?_⟩
  cases hblock : malloc (text.length + 1) with
  | none =>
      left
      simp only [buildBuffer, hsize, hblock, and_self]
  | some block =>
      right
      obtain ⟨buffer, hbuilt, hholds⟩ := buildBuffer_built hmalloc hversion htext hblock
      refine ⟨buffer, hbuilt, hholds, fun reply => ?_⟩
      rw [requestSendBuffer_eq hmalloc hversion htext hblock, requestSend_text htext]

/-- Memory that was used before, and a request with a header line that is left out. -/
theorem buildBuffer_tagged :
    ∃ text, buildRequest taggedRequest.strings = some text ∧
      requestSize taggedRequest = some text.length ∧
      ∃ buffer, buildBuffer (fun n => some (List.replicate n 7)) taggedRequest =
        .built buffer text.length ∧ HoldsString buffer text (text.length + 1) := by
  obtain ⟨text, htext, hsize, ⟨hnull, -⟩ | ⟨buffer, hbuilt, hholds, -⟩⟩ :=
    buildBuffer_spec
      (show BlockSized fun n => some (List.replicate n 7) from fun n block hblock => by
        rw [← Option.some.inj hblock, List.length_replicate])
      (show taggedRequest.version ≠ .invalid by decide)
  · cases hnull
  · exact ⟨text, htext, hsize, buffer, hbuilt, hholds⟩

end Proxy
end OperatingSystems
