import OperatingSystems.Proxy.ReadHeader

/-!
# What `build_request` writes, `read_header` reads

* `buildRequest_eq` — the text is a request line, a line for every item and a blank line.
* `Transferable` — the requests whose text can be read back.
* `readHeader_buildRequest` — reading the text of a request gives the request back.
-/

namespace OperatingSystems
namespace Proxy

/-- `build_request` passes on every item but the ones about the connection. -/
def keptKey (key : List Byte) : Bool :=
  key ≠ bytes "Connection" && key ≠ bytes "Proxy-Connection"

def MetadataItem.kept (item : MetadataItem) : Bool :=
  keptKey item.key

/-- One header line. -/
def itemLine (item : MetadataItem) : List Byte :=
  item.key ++ bytes ": " ++ item.value ++ bytes "\r\n"

/-- The item behind `Connection: close`. -/
def closeItem : MetadataItem :=
  ⟨bytes "Connection", bytes "close"⟩

/-- The items that `build_request` writes. -/
def sentItems (req : Request) : List MetadataItem :=
  req.metadata.filter MetadataItem.kept ++ if req.version = .http11 then [closeItem] else []

/-- The request line that `build_request` writes. -/
def sentRequestLine (req : Request) : List Byte :=
  bytes "GET " ++ extractUri req.searchPath ++ (versionText req.version).getD []

theorem flatMap_headerText (metadata : List MetadataItem) :
    metadata.flatMap headerText = (metadata.filter MetadataItem.kept).flatMap itemLine := by
  induction metadata with
  | nil => rfl
  | cons item metadata ih =>
      rw [List.flatMap_cons, ih, List.filter_cons]
      by_cases hkey : item.key = bytes "Connection" ∨ item.key = bytes "Proxy-Connection"
      · have hkept : item.kept = false := by
          rcases hkey with hkey | hkey <;> simp [MetadataItem.kept, keptKey, hkey]
        simp [headerText, hkey, hkept]
      · have hkept : item.kept = true := by
          simpa [MetadataItem.kept, keptKey, not_or] using hkey
        simp [headerText, hkey, hkept, itemLine]

theorem buildRequest_eq {req : Request} (hversion : req.version ≠ .invalid) :
    buildRequest req =
      some (sentRequestLine req ++ (sentItems req).flatMap itemLine ++ bytes "\r\n") := by
  have hclose : itemLine closeItem = bytes "Connection: close\r\n" := by decide
  unfold buildRequest sentRequestLine sentItems
  rw [flatMap_headerText]
  cases hv : req.version with
  | http10 => simp [versionText]
  | http11 => simp [versionText, hclose]
  | invalid => exact absurd hv hversion

/-! ### What can be read back -/

/-- An item whose line is read back as this item. -/
structure MetadataItem.Transferable (item : MetadataItem) : Prop where
  key_ne : item.key ≠ []
  key : ∀ b ∈ item.key, b ≠ 58 ∧ b ≠ 13 ∧ b ≠ 10 ∧ b ≠ 0
  value : ∀ b ∈ item.value, b ≠ 13 ∧ b ≠ 10 ∧ b ≠ 0
  noSpace : item.value.head? ≠ some 32
  fits : (itemLine item).length ≤ 8191

/-- A request whose text is read back as this request. -/
structure Request.Transferable (req : Request) : Prop where
  version : req.version ≠ .invalid
  searchPath : ∀ b ∈ req.searchPath, b ≠ 32 ∧ b ≠ 13 ∧ b ≠ 10 ∧ b ≠ 0
  fits : (sentRequestLine req).length ≤ 8191
  metadata : ∀ item ∈ req.metadata, item.kept = true → item.Transferable

theorem closeItem_transferable : closeItem.Transferable :=
  ⟨by decide, by decide +kernel, by decide +kernel, by decide, by decide⟩

theorem Request.Transferable.sentItems {req : Request} (h : req.Transferable) :
    ∀ item ∈ Proxy.sentItems req, item.Transferable := by
  intro item hitem
  rcases List.mem_append.mp hitem with hitem | hitem
  · obtain ⟨hmem, hkept⟩ := List.mem_filter.mp hitem
    exact h.metadata item hmem hkept
  · split at hitem
    · obtain rfl := List.mem_singleton.mp hitem
      exact closeItem_transferable
    · cases hitem

/-! ### The request line -/

theorem mem_of_mem_strstr {needle s found : List Byte} (h : strstr needle s = some found)
    {b : Byte} (hb : b ∈ found) : b ∈ s := by
  induction s with
  | nil =>
      simp only [strstr] at h
      split at h
      · exact Option.some.inj h ▸ hb
      · cases h
  | cons a s ih =>
      simp only [strstr] at h
      split at h
      · exact Option.some.inj h ▸ hb
      · exact List.mem_cons_of_mem _ (ih h)

theorem mem_of_mem_strchr {s found : List Byte} {c : Byte} (h : strchr s c = some found)
    {b : Byte} (hb : b ∈ found) : b ∈ s := by
  have hsuffix : s.dropWhile (· != c) <:+ s := List.dropWhile_suffix _
  unfold strchr at h
  split at h
  · cases h
  · exact hsuffix.subset (Option.some.inj h ▸ hb)

/-- The URI consists of bytes of the path, or it is `/`. -/
theorem mem_extractUri {searchPath : List Byte} {b : Byte} (hb : b ∈ extractUri searchPath) :
    b ∈ searchPath ∨ b = 47 := by
  have hslash : bytes "/" = [47] := by decide
  unfold extractUri at hb
  split at hb
  · exact .inr (by simpa [hslash] using hb)
  · next pathStart hstart =>
    split at hb
    · exact .inr (by simpa [hslash] using hb)
    · next uri huri =>
      exact .inl (mem_of_mem_strstr hstart (List.mem_of_mem_drop (mem_of_mem_strchr huri hb)))

/-- The request line without its newline. -/
theorem Request.Transferable.requestLine {req : Request} (h : req.Transferable) :
    ∃ line version, sentRequestLine req = line ++ [10] ∧ 10 ∉ line ∧ 0 ∉ line ∧
      strsepTokens (bytes " \r\n") (line ++ [10]) =
        [bytes "GET", extractUri req.searchPath, version, [], []] ∧
      parseVersion version = req.version := by
  have huri : ∀ b ∈ extractUri req.searchPath, b ≠ 32 ∧ b ≠ 13 ∧ b ≠ 10 ∧ b ≠ 0 := by
    intro b hb
    rcases mem_extractUri hb with hb | rfl
    · exact h.searchPath b hb
    · decide
  have hdelimiters : bytes " \r\n" = [32, 13, 10] := by decide
  have hget : bytes "GET " = bytes "GET" ++ [32] := by decide
  obtain ⟨version, htext, hversion, hclean⟩ :
      ∃ version, (versionText req.version).getD [] = 32 :: version ++ [13, 10] ∧
        parseVersion version = req.version ∧ ∀ b ∈ version, b ≠ 32 ∧ b ≠ 13 ∧ b ≠ 10 ∧ b ≠ 0 := by
    cases hv : req.version with
    | http10 => exact ⟨bytes "HTTP/1.0", by decide, by decide, by decide +kernel⟩
    | http11 => exact ⟨bytes "HTTP/1.1", by decide, by decide, by decide +kernel⟩
    | invalid => exact absurd hv h.version
  refine ⟨bytes "GET " ++ extractUri req.searchPath ++ 32 :: version ++ [13], version, ?_, ?_, ?_,
    ?_, hversion⟩
  · rw [sentRequestLine, htext]
    simp
  · have hkey : (10 : Byte) ∉ bytes "GET " := by decide
    simp only [List.mem_append, List.mem_cons, List.not_mem_nil, or_false, not_or]
    exact ⟨⟨⟨hkey, fun hb => (huri _ hb).2.2.1 rfl⟩, by decide, fun hb => (hclean _ hb).2.2.1 rfl⟩,
      by decide⟩
  · have hkey : (0 : Byte) ∉ bytes "GET " := by decide
    simp only [List.mem_append, List.mem_cons, List.not_mem_nil, or_false, not_or]
    exact ⟨⟨⟨hkey, fun hb => (huri _ hb).2.2.2 rfl⟩, by decide, fun hb => (hclean _ hb).2.2.2 rfl⟩,
      by decide⟩
  · have hsplit : bytes "GET " ++ extractUri req.searchPath ++ 32 :: version ++ [13] ++ [10] =
        bytes "GET" ++ 32 :: (extractUri req.searchPath ++
          32 :: (version ++ 13 :: ([] ++ 10 :: []))) := by
      simp [hget]
    rw [hsplit, hdelimiters, strsepTokens_cons (by decide +kernel) (by decide),
      strsepTokens_cons (fun b hb => ?_) (by decide),
      strsepTokens_cons (fun b hb => ?_) (by decide), strsepTokens_cons (by simp) (by decide)]
    · rfl
    · simpa using ⟨(hclean b hb).1, (hclean b hb).2.1, (hclean b hb).2.2.1⟩
    · simpa using ⟨(huri b hb).1, (huri b hb).2.1, (huri b hb).2.2.1⟩

/-! ### The header lines -/

theorem itemLine_eq (item : MetadataItem) :
    itemLine item = item.key ++ 58 :: (32 :: item.value ++ 13 :: [10]) := by
  have hcolon : bytes ": " = [58, 32] := by decide
  have hcrlf : bytes "\r\n" = [13, 10] := by decide
  simp [itemLine, hcolon, hcrlf]

theorem itemLine_ne_nil (item : MetadataItem) : itemLine item ≠ [] := by
  rw [itemLine_eq]
  simp

namespace MetadataItem.Transferable

variable {item : MetadataItem}

theorem cstr_itemLine (h : item.Transferable) : cstr (itemLine item) = itemLine item := by
  refine cstr_of_notMem fun hzero => ?_
  rw [itemLine_eq] at hzero
  simp only [List.mem_append, List.mem_cons, List.not_mem_nil, or_false, List.cons_append] at hzero
  rcases hzero with hb | hb | hb | hb | hb | hb
  · exact (h.key 0 hb).2.2.2 rfl
  · exact absurd hb (by decide)
  · exact absurd hb (by decide)
  · exact (h.value 0 hb).2.2 rfl
  · exact absurd hb (by decide)
  · exact absurd hb (by decide)

/-- `parse_metadata` finds the key and the value again. -/
theorem metadataItem_itemLine (h : item.Transferable) :
    metadataItem (itemLine item) = some item := by
  have hkey : 58 ∉ item.key := fun hb => (h.key 58 hb).1 rfl
  have hvalue : 13 ∉ (32 :: item.value : List Byte) := by
    simp only [List.mem_cons, not_or]
    exact ⟨by decide, fun hb => (h.value 13 hb).1 rfl⟩
  have hdrop : item.value.dropWhile (· == 32) = item.value := by
    cases hv : item.value with
    | nil => rfl
    | cons b value =>
        have hspace := h.noSpace
        rw [hv, List.head?_cons, ne_eq, Option.some.injEq] at hspace
        exact List.dropWhile_cons_of_neg (by simpa using hspace)
  unfold metadataItem
  rw [h.cstr_itemLine, itemLine_eq, strtok_append h.key_ne hkey]
  simp only
  rw [strtok_append (List.cons_ne_nil _ _) hvalue]
  simp [hdrop]

/-- The line without its newline. -/
theorem exists_line (h : item.Transferable) : ∃ line, itemLine item = line ++ [10] ∧ 10 ∉ line := by
  refine ⟨item.key ++ 58 :: (32 :: item.value ++ [13]), ?_, ?_⟩
  · rw [itemLine_eq]
    simp
  · simp only [List.mem_append, List.mem_cons, List.cons_append, List.not_mem_nil, or_false, not_or]
    exact ⟨fun hb => (h.key 10 hb).2.2.1 rfl, by decide, by decide,
      fun hb => (h.value 10 hb).2.1 rfl, by decide⟩

theorem cstr_ne_blank (h : item.Transferable) : cstr (itemLine item) ≠ bytes "\r\n" := by
  rw [h.cstr_itemLine, itemLine_eq]
  intro heq
  have hlength := congrArg List.length heq
  have hcrlf : (bytes "\r\n").length = 2 := by decide
  simp [hcrlf] at hlength
  omega

end MetadataItem.Transferable

theorem length_le_flatMap_itemLine (items : List MetadataItem) :
    items.length ≤ (items.flatMap itemLine).length := by
  induction items with
  | nil => exact Nat.le_refl _
  | cons item items ih =>
      rw [List.flatMap_cons, itemLine_eq]
      simp only [List.length_append, List.length_cons, List.cons_append] at ih ⊢
      omega

/-- The loop of `read_header` reads the lines of these items and stops at the blank line. -/
theorem readHeaderLoop_items {items : List MetadataItem}
    (hitems : ∀ item ∈ items, item.Transferable) {fuel : Nat} (hfuel : items.length < fuel)
    {s : Socket} {rest : List Byte}
    (hs : s.bytes = items.flatMap itemLine ++ bytes "\r\n" ++ rest) (request : HeaderRequest) :
    (readHeaderLoop fuel s request).1 = { request with metadata := request.metadata ++ items } ∧
      (readHeaderLoop fuel s request).2.bytes = rest := by
  have hcrlf : bytes "\r\n" = [13] ++ [10] := by decide
  induction items generalizing fuel s request with
  | nil =>
      obtain ⟨fuel, rfl⟩ := Nat.exists_eq_succ_of_ne_zero (by omega : fuel ≠ 0)
      have hblank : s.bytes = [13] ++ 10 :: rest := by simpa [hcrlf] using hs
      have hread : (readLine s lineBufferSize).1 = [13] ++ [10] ∧
          (readLine s lineBufferSize).2.bytes = rest :=
        readLine_line hblank (by decide) (by decide)
      rw [readHeaderLoop_succ hread.1 (by simp), if_pos (by decide)]
      exact ⟨by simp, hread.2⟩
  | cons item items ih =>
      obtain ⟨fuel, rfl⟩ := Nat.exists_eq_succ_of_ne_zero (by omega : fuel ≠ 0)
      have hitem := hitems item List.mem_cons_self
      obtain ⟨line, hline, hnewline⟩ := hitem.exists_line
      have hlength : line.length + 1 ≤ 8191 := by simpa [hline] using hitem.fits
      have hfirst : s.bytes = line ++ 10 :: (items.flatMap itemLine ++ bytes "\r\n" ++ rest) := by
        rw [hs, List.flatMap_cons, hline]
        simp
      have hread : (readLine s lineBufferSize).1 = line ++ [10] ∧
          (readLine s lineBufferSize).2.bytes = items.flatMap itemLine ++ bytes "\r\n" ++ rest :=
        readLine_line hfirst hnewline (by unfold lineBufferSize; omega)
      rw [← hline] at hread
      rw [readHeaderLoop_succ hread.1 (itemLine_ne_nil item), if_neg hitem.cstr_ne_blank]
      obtain ⟨hresult, hrest⟩ := ih (fun i hi => hitems i (List.mem_cons_of_mem _ hi))
        (by simpa using hfuel) hread.2 (parseMetadata request (itemLine item))
      refine ⟨?_, hrest⟩
      rw [hresult]
      simp [parseMetadata, hitem.metadataItem_itemLine]

/-! ### The round trip -/

/-- For every request that can be transferred, `build_request` succeeds, and `read_header` makes
of its text the request with the same version, the URI as its path, and the items that are
passed on, with `Connection: close` behind them in version 1.1; it leaves what follows. -/
theorem readHeader_buildRequest {req : Request} (h : req.Transferable) :
    ∃ text, buildRequest req = some text ∧
      ∀ (version : Version) (s : Socket) (rest : List Byte), s.bytes = text ++ rest →
        (readHeader version s).1 = some
            { method := .get
              version := req.version
              searchPath := some (extractUri req.searchPath)
              metadata := req.metadata.filter MetadataItem.kept ++
                if req.version = .http11 then [⟨bytes "Connection", bytes "close"⟩] else [] } ∧
          (readHeader version s).2.bytes = rest := by
  refine ⟨_, buildRequest_eq h.version, fun version s rest hs => ?_⟩
  obtain ⟨line, token, hline, hnewline, hzero, htokens, hversion⟩ := h.requestLine
  have hlength : line.length + 1 ≤ 8191 := by simpa [hline] using h.fits
  have hread : (readLine s lineBufferSize).1 = line ++ [10] ∧
      (readLine s lineBufferSize).2.bytes =
        (sentItems req).flatMap itemLine ++ bytes "\r\n" ++ rest := by
    refine readLine_line ?_ hnewline (by unfold lineBufferSize; omega)
    rw [hs, hline]
    simp
  have hparse : parseMethod (requestInit version) (line ++ [10]) =
      ⟨.get, req.version, some (extractUri req.searchPath), []⟩ := by
    have hcstr : cstr (line ++ [10]) = line ++ [10] := cstr_of_notMem (by simpa using hzero)
    have hget : methods.find? (·.1 == bytes "GET") = some (bytes "GET", .get) := by decide
    rw [parseMethod, hcstr, htokens, parseTokens, hget]
    simp [parseTokens, hversion, requestInit]
  have hfuel : (sentItems req).length < (readLine s lineBufferSize).2.bytes.length + 1 := by
    rw [hread.2, List.length_append, List.length_append]
    have := length_le_flatMap_itemLine (sentItems req)
    omega
  obtain ⟨hresult, hrest⟩ := readHeaderLoop_items h.sentItems hfuel hread.2
    (parseMethod (requestInit version) (line ++ [10]))
  rw [readHeader_of_line hread.1 (by simp)]
  refine ⟨?_, hrest⟩
  rw [hresult, hparse]
  rfl

/-- An item that is dropped, an empty value and a value with a colon. -/
def taggedRequest : Request where
  method := .get
  version := .http11
  searchPath := bytes "http://a/b"
  metadata :=
    [⟨bytes "Host", bytes "a"⟩, ⟨bytes "Proxy-Connection", bytes "keep-alive"⟩,
      ⟨bytes "Accept", []⟩, ⟨bytes "Tag", bytes "b:c"⟩]

theorem readHeader_buildRequest_tagged :
    ∃ text, buildRequest taggedRequest = some text ∧
      (readHeader .invalid ⟨text ++ bytes "rest", [3, 0, 200]⟩).1 = some
        { method := .get
          version := .http11
          searchPath := some (bytes "/b")
          metadata :=
            [⟨bytes "Host", bytes "a"⟩, ⟨bytes "Accept", []⟩, ⟨bytes "Tag", bytes "b:c"⟩,
              ⟨bytes "Connection", bytes "close"⟩] } := by
  have hitems : ∀ item ∈ taggedRequest.metadata, item.kept = true → item.Transferable := by
    intro item hitem hkept
    simp only [taggedRequest, List.mem_cons, List.not_mem_nil, or_false] at hitem
    rcases hitem with rfl | rfl | rfl | rfl
    · exact ⟨by decide, by decide +kernel, by decide +kernel, by decide, by decide⟩
    · exact absurd hkept (by decide)
    · exact ⟨by decide, by decide +kernel, by decide +kernel, by decide, by decide⟩
    · exact ⟨by decide, by decide +kernel, by decide +kernel, by decide, by decide⟩
  obtain ⟨text, htext, hread⟩ :=
    readHeader_buildRequest ⟨by decide, by decide +kernel, by decide, hitems⟩
  refine ⟨text, htext, (hread .invalid ⟨text ++ bytes "rest", [3, 0, 200]⟩ _ rfl).1.trans ?_⟩
  decide

end Proxy
end OperatingSystems
