import OperatingSystems.Proxy.Smuggling

/-!
# The `Connection` header of the upstream request

* `OneConnection` — in any spelling the text has no `Proxy-Connection` header, and no
  `Connection` header but the `Connection: close` of version 1.1.
* `filter_named_headerLines` — the header lines with a name come from the items with this key.
* `oneConnection_iff` — the text has one `Connection` header if and only if the client spells
  both names as `build_request` does.
-/

namespace OperatingSystems
namespace Proxy

/-- The lines of a text behind its request line, without the newlines. -/
def headerLinesOf (text : List Byte) : List (List Byte) :=
  (text.splitOn 10).drop 1

/-- The line is a header line with this name, in any spelling. -/
def named (name line : List Byte) : Bool :=
  strcaseeq (line.takeWhile (· != 58)) name

/-- The headers about the connection are what the transfer of the body relies on. -/
structure OneConnection (version : Version) (text : List Byte) : Prop where
  proxyConnection : (headerLinesOf text).filter (named (bytes "Proxy-Connection")) = []
  connection : (headerLinesOf text).filter (named (bytes "Connection")) =
    if version = .http11 then [bytes "Connection: close\r"] else []

/-- The key is not another spelling of one that `build_request` leaves out. -/
def SpelledOut (key : List Byte) : Prop :=
  (strcaseeq key (bytes "Connection") = true → key = bytes "Connection") ∧
    (strcaseeq key (bytes "Proxy-Connection") = true → key = bytes "Proxy-Connection")

instance (key : List Byte) : Decidable (SpelledOut key) :=
  inferInstanceAs (Decidable (_ ∧ _))

theorem kept_iff_of_spelledOut (key : List Byte) :
    SpelledOut key ↔ (keptKey key = true →
      strcaseeq key (bytes "Proxy-Connection") = false ∧
        strcaseeq key (bytes "Connection") = false) := by
  unfold SpelledOut keptKey
  by_cases hconnection : key = bytes "Connection"
  · simp only [hconnection]
    decide
  · by_cases hproxy : key = bytes "Proxy-Connection"
    · simp only [hproxy]
      decide
    · simp [hconnection, hproxy, and_comm]

/-! ### Where an item ends up -/

/-- The newlines of an item are where `parse_metadata` can leave one: at the end of the value. -/
structure MetadataItem.Lined (item : MetadataItem) : Prop where
  key : 58 ∉ item.key ∧ 10 ∉ item.key
  value : 10 ∉ item.value.dropLast

theorem dropLast_subset_of_suffix {s t : List Byte} (h : s <:+ t) : s.dropLast ⊆ t.dropLast := by
  obtain ⟨front, rfl⟩ := h
  intro b hb
  have hne : s ≠ [] := by
    rintro rfl
    cases hb
  rw [List.dropLast_append_of_ne_nil hne]
  exact List.mem_append_right _ hb

theorem dropLast_mono {s t : List Byte} (h : s <+: t) : s.dropLast ⊆ t.dropLast := by
  obtain ⟨back, rfl⟩ := h
  cases back with
  | nil => rw [List.append_nil]; exact List.Subset.refl _
  | cons c back =>
      intro b hb
      rw [List.dropLast_append_of_ne_nil (List.cons_ne_nil _ _)]
      exact List.mem_append_left _ ((List.dropLast_sublist s).subset hb)

/-- An item of a piece without a newline in front of its end. -/
theorem metadataItem_lined {line : List Byte} {item : MetadataItem}
    (hline : 10 ∉ line.dropLast) (hitem : metadataItem line = some item) : item.Lined := by
  -- only the string in front of the first NUL is looked at
  have hstring : metadataItem line = metadataItem (cstr line) := by
    unfold metadataItem
    rw [show cstr (cstr line) = cstr line from cstr_of_notMem fun hmem =>
      absurd (List.mem_takeWhile_imp hmem) (by decide)]
  have hnul : 0 ∉ cstr line := fun hmem => absurd (List.mem_takeWhile_imp hmem) (by decide)
  have hlast : 10 ∉ (cstr line).dropLast := fun hmem =>
    hline (dropLast_mono (List.takeWhile_prefix _) hmem)
  rw [hstring, metadataItem_eq hnul] at hitem
  split at hitem
  · cases hitem
  · next hne =>
    obtain rfl := Option.some.inj hitem
    obtain ⟨front, c, back, heq⟩ := line_eq_of_behindKey hne
    rw [heq, List.dropLast_append_of_ne_nil hne] at hlast
    simp only [List.mem_append, not_or] at hlast
    obtain ⟨⟨⟨-, hkey⟩, -⟩, hbehind⟩ := hlast
    refine ⟨⟨fun hmem => ?_, hkey⟩, fun hmem => hbehind ?_⟩
    · exact absurd (List.mem_takeWhile_imp hmem) (by decide)
    · exact dropLast_mono (List.takeWhile_prefix _)
        (dropLast_subset_of_suffix (List.dropWhile_suffix _) hmem)

/-- The item's text as `build_request` writes it, without the newline that it appends. -/
def itemText (item : MetadataItem) : List Byte :=
  item.key ++ bytes ": " ++ item.value ++ [13]

section Item

variable {item : MetadataItem} {name : List Byte}

/-- The lines that an item makes. -/
theorem splitOn_itemText (hitem : item.Lined) :
    ∃ value rest, (itemText item).splitOn 10 = (item.key ++ bytes ": " ++ value) :: rest ∧
      (itemText item).takeWhile (· != 10) = item.key ++ bytes ": " ++ value ∧
      (rest = [] ∨ rest = [[13]]) := by
  have hcolon : bytes ": " = [58, 32] := by decide
  have hhead : 10 ∉ item.key ++ bytes ": " := by
    simpa [hcolon] using hitem.key.2
  by_cases hmem : 10 ∈ item.value
  · -- the value ends with a newline, and the CR that is appended stands on a line of its own
    obtain ⟨value, b, hvalue⟩ := (List.eq_nil_or_concat item.value).resolve_left
      (List.ne_nil_of_mem hmem)
    have hlast := hitem.value
    rw [hvalue, List.concat_eq_append, List.dropLast_concat] at hlast
    rw [hvalue, List.concat_eq_append, List.mem_append, List.mem_singleton] at hmem
    obtain rfl := hmem.resolve_left hlast
    have hclean : 10 ∉ item.key ++ bytes ": " ++ value := by
      rw [List.mem_append, not_or]
      exact ⟨hhead, hlast⟩
    have htext : itemText item = item.key ++ bytes ": " ++ value ++ 10 :: [13] := by
      simp [itemText, hvalue]
    refine ⟨value, [[13]], ?_, ?_, .inr rfl⟩
    · rw [htext, List.splitOn_append_cons_self_of_not_mem hclean]
      rfl
    · rw [htext, takeWhile_append_notMem hclean]
      simp
  · have hclean : 10 ∉ itemText item := by
      simp only [itemText, List.mem_append, not_or] at hhead ⊢
      exact ⟨⟨hhead, hmem⟩, by decide⟩
    refine ⟨item.value ++ [13], [], ?_, ?_, .inl rfl⟩
    · rw [List.splitOn_eq_singleton hclean, itemText, List.append_assoc]
    · have hall := takeWhile_append_notMem hclean []
      rw [List.append_nil, List.takeWhile_nil, List.append_nil] at hall
      rw [hall, itemText, List.append_assoc]

/-- Of the lines that an item makes, the first carries its key. -/
theorem filter_named_itemText (hitem : item.Lined) (hname : strcaseeq [13] name = false) :
    ((itemText item).splitOn 10).filter (named name) =
      if strcaseeq item.key name then [(itemText item).takeWhile (· != 10)] else [] := by
  have hcolon : bytes ": " = [58, 32] := by decide
  obtain ⟨value, rest, hsplit, hfirst, hrest⟩ := splitOn_itemText hitem
  have hkey : named name (item.key ++ bytes ": " ++ value) = strcaseeq item.key name := by
    unfold named
    rw [List.append_assoc, takeWhile_append_notMem hitem.key.1]
    simp [hcolon]
  have hreturn : rest.filter (named name) = [] := by
    rcases hrest with rfl | rfl
    · rfl
    · simpa [named] using hname
  rw [hsplit, hfirst, List.filter_cons, hkey, hreturn]

end Item

/-- The header lines of the text with a name come from the items with this key. -/
theorem filter_named_headerLines {req : Request} {text name : List Byte}
    (hpath : 10 ∉ req.searchPath) (hitems : ∀ item ∈ sentItems req, item.Lined)
    (htext : buildRequest req = some text) (hname : strcaseeq [13] name = false)
    (hne : name ≠ []) :
    (headerLinesOf text).filter (named name) =
      ((sentItems req).filter fun item => strcaseeq item.key name).map
        fun item => (itemText item).takeWhile (· != 10) := by
  have hvalid : req.version ≠ .invalid := by
    intro hinvalid
    simp [buildRequest, hinvalid, versionText] at htext
  rw [buildRequest_eq_lines hvalid, Option.some.injEq] at htext
  have hline :
      10 ∉ bytes "GET " ++ extractUri req.searchPath ++ versionName req.version ++ [13] := by
    have huri : 10 ∉ extractUri req.searchPath := fun hmem =>
      (mem_extractUri hmem).elim hpath (by decide)
    have hversion : 10 ∉ versionName req.version := by
      cases req.version <;> decide
    have hget : 10 ∉ bytes "GET " := by decide
    simp [huri, hversion, hget]
  have hempty : named name [] = false := by
    cases name with
    | nil => exact absurd rfl hne
    | cons b name => rfl
  have hreturn : named name [13] = false := by
    simpa [named] using hname
  rw [headerLinesOf, ← htext, splitOn_flatMap_lines, sentLines]
  simp only [List.cons_append, List.flatMap_cons, List.flatMap_append, List.flatMap_nil,
    List.append_nil, List.nil_append, List.flatMap_map]
  rw [List.splitOn_eq_singleton hline, List.singleton_append, List.cons_append,
    List.drop_succ_cons, List.drop_zero, List.filter_append, List.filter_append]
  have hblank : ([13] : List Byte).splitOn 10 = [[13]] := by decide
  simp only [hblank, List.filter_cons, hreturn, hempty, Bool.false_eq_true, if_false,
    List.filter_nil, List.append_nil]
  clear htext
  generalize sentItems req = items at hitems ⊢
  induction items with
  | nil => rfl
  | cons item items ih =>
      have hitem := filter_named_itemText (hitems item List.mem_cons_self) hname
      rw [itemText] at hitem
      rw [List.flatMap_cons, List.filter_append, hitem,
        ih fun i hi => hitems i (List.mem_cons_of_mem _ hi), List.filter_cons]
      cases strcaseeq item.key name <;> simp [itemText]

/-! ### The text -/

/-- For every request that `read_header` makes of a client's stream and every text that
`build_request` makes of the request: the text has no `Proxy-Connection` header and no
`Connection` header but the one that is added, in any spelling, if and only if the client spells
both names of its own headers as `build_request` does. -/
theorem oneConnection_iff (version : Version) (s : Socket) (header : HeaderRequest)
    (req : Request) (text : List Byte) (hread : (readHeader version s).1 = some header)
    (haccepted : header.accepted = some req) (htext : buildRequest req = some text) :
    OneConnection req.version text ↔ ∀ item ∈ req.metadata, SpelledOut item.key := by
  obtain ⟨hmetadata, hclean⟩ := accepted_spec hread haccepted
  have hpath : 10 ∉ req.searchPath := fun hmem => (hclean 10 hmem).2 rfl
  have hlined : ∀ item ∈ sentItems req, item.Lined := by
    intro item hitem
    rcases List.mem_append.mp hitem with hitem | hitem
    · have hmem := (List.mem_filter.mp hitem).1
      rw [hmetadata] at hmem
      obtain ⟨piece, hpiece, heq⟩ := List.mem_filterMap.mp hmem
      exact metadataItem_lined (mem_headerPieces hpiece).2 heq
    · split at hitem
      · obtain rfl := List.mem_singleton.mp hitem
        exact ⟨by decide, by decide⟩
      · cases hitem
  have hproxy : (headerLinesOf text).filter (named (bytes "Proxy-Connection")) = _ :=
    filter_named_headerLines hpath hlined htext (by decide) (by decide)
  have hconnection : (headerLinesOf text).filter (named (bytes "Connection")) = _ :=
    filter_named_headerLines hpath hlined htext (by decide) (by decide)
  -- The one line that `build_request` adds itself.
  have hclose : (((if req.version = .http11 then [closeItem] else []).filter fun item =>
      strcaseeq item.key (bytes "Connection")).map
        fun item => (itemText item).takeWhile (· != 10)) =
        if req.version = .http11 then [bytes "Connection: close\r"] else [] := by
    split <;> decide
  rw [sentItems, List.filter_append, List.map_append, hclose] at hconnection
  simp only [kept_iff_of_spelledOut]
  constructor
  -- A kept header in another spelling would be a line of the text.
  · rintro ⟨hnone, hone⟩ item hitem hkept
    have hmem : item ∈ req.metadata.filter MetadataItem.kept :=
      List.mem_filter.mpr ⟨hitem, hkept⟩
    rw [hproxy, List.map_eq_nil_iff, List.filter_eq_nil_iff] at hnone
    rw [hconnection, List.append_left_eq_self, List.map_eq_nil_iff,
      List.filter_eq_nil_iff] at hone
    constructor
    · simpa using hnone item (List.mem_append_left _ hmem)
    · simpa using hone item hmem
  · intro h
    have hkept : ∀ item ∈ req.metadata.filter MetadataItem.kept,
        strcaseeq item.key (bytes "Proxy-Connection") = false ∧
          strcaseeq item.key (bytes "Connection") = false := by
      intro item hitem
      obtain ⟨hmem, hkept⟩ := List.mem_filter.mp hitem
      exact h item hmem hkept
    constructor
    · rw [hproxy, List.map_eq_nil_iff, List.filter_eq_nil_iff]
      intro item hitem
      rcases List.mem_append.mp hitem with hitem | hitem
      · simp [(hkept item hitem).1]
      · split at hitem
        · obtain rfl := List.mem_singleton.mp hitem
          decide
        · cases hitem
    · rw [hconnection, List.append_left_eq_self, List.map_eq_nil_iff, List.filter_eq_nil_iff]
      intro item hitem
      simp [(hkept item hitem).2]

/-- A request with one header for the proxy. -/
def aboutConnection (name : String) : List Byte :=
  bytes "GET http://h/ HTTP/1.1\r\n" ++ bytes name ++ bytes ": keep-alive\r\n\r\n"

/-- The request that `read_header` makes of it. -/
def connectionRequest (name : String) : HeaderRequest :=
  ⟨.get, .http11, some (bytes "http://h/"), [⟨bytes name, bytes "keep-alive"⟩]⟩

theorem oneConnection_iff_exact :
    ∃ text, buildRequest
        ⟨.get, .http11, bytes "http://h/", [⟨bytes "Connection", bytes "keep-alive"⟩]⟩ = some text ∧
      OneConnection .http11 text := by
  refine ⟨_, rfl, ?_⟩
  exact (oneConnection_iff .invalid ⟨aboutConnection "Connection", [5]⟩
    (connectionRequest "Connection") _ _ (by decide) rfl rfl).mpr (by decide)

/-- A client that writes `connection` in small letters gets a second header through. -/
theorem connection_small :
    ∃ header req text, (readHeader .invalid ⟨aboutConnection "connection", []⟩).1 = some header ∧
      header.accepted = some req ∧ buildRequest req = some text ∧
      (headerLinesOf text).filter (named (bytes "Connection")) =
        [bytes "connection: keep-alive\r", bytes "Connection: close\r"] ∧
      ¬ OneConnection req.version text := by
  refine ⟨connectionRequest "connection", _, _, by decide, rfl, rfl, by decide, fun h => ?_⟩
  exact absurd h.connection (by decide)

end Proxy
end OperatingSystems
