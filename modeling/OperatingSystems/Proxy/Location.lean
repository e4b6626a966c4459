import OperatingSystems.Library.Scanf
import OperatingSystems.Library.UriReference
import OperatingSystems.Proxy.Redirects
import OperatingSystems.Proxy.Target

/-!
# Where a redirect leads

* `HostShadowed` — the `Host` item that `request_set_host` replaces is not the one that
  `list_get_key` looks up.
* `listGetKey_location_iff` — when the host of a `Location` is the one that is looked up next.
* `hostServer`, `connectServer` — the host and the port that `http_connect` connects to.
* `LocationKept` — what a `Location` and the current request must look like for the next request
  to go where the `Location` says, and not to be the same again.
* `followed_iff` — this is so for a redirect that is followed if and only if they look like this.
-/

namespace OperatingSystems
namespace Proxy

/-! ### The `Host` header -/

/-- The first item which is a `Host` item in any spelling is spelled otherwise than `Host`. -/
def HostShadowed (metadata : List MetadataItem) : Prop :=
  (metadata.find? fun item => strcaseeq item.key (bytes "Host")).any (·.key != bytes "Host") = true

instance (metadata : List MetadataItem) : Decidable (HostShadowed metadata) :=
  inferInstanceAs (Decidable (_ = _))

theorem listGetKey_cons (item : MetadataItem) (rest : List MetadataItem) (key : List Byte) :
    listGetKey (item :: rest) key =
      if item.key = key then some item.value else listGetKey rest key := by
  unfold listGetKey
  rw [List.find?_cons]
  by_cases hkey : item.key = key
  · simp [hkey]
  · have hne : (item.key == key) = false := by simpa using hkey
    simp [hkey, hne]

/-- What `list_get_key` finds after `request_set_host`. -/
theorem listGetKey_requestSetHost (host : List Byte) (metadata : List MetadataItem) :
    listGetKey (requestSetHost host metadata) (bytes "Host") =
      if HostShadowed metadata then listGetKey metadata (bytes "Host") else some host := by
  induction metadata with
  | nil =>
      have hshadow : ¬ HostShadowed [] := by simp [HostShadowed]
      rw [requestSetHost, listGetKey_cons, if_pos rfl, if_neg hshadow]
  | cons item rest ih =>
      rw [requestSetHost]
      cases hcase : strcaseeq item.key (bytes "Host") with
      | true =>
          -- the item is replaced, and it is the one that decides
          have hshadow : HostShadowed (item :: rest) ↔ item.key ≠ bytes "Host" := by
            simp [HostShadowed, hcase]
          rw [if_pos rfl, listGetKey_cons, listGetKey_cons]
          by_cases hkey : item.key = bytes "Host"
          · rw [if_pos hkey, if_neg (by rw [hshadow]; exact not_not_intro hkey)]
          · -- behind it the list is what it was
            rw [if_neg hkey, if_neg hkey, if_pos (hshadow.mpr hkey)]
      | false =>
          have hshadow : HostShadowed (item :: rest) ↔ HostShadowed rest := by
            simp [HostShadowed, hcase]
          have hkey : item.key ≠ bytes "Host" := by
            intro heq
            rw [heq] at hcase
            exact absurd hcase (by decide)
          rw [if_neg Bool.false_ne_true, listGetKey_cons, if_neg hkey, ih, listGetKey_cons,
            if_neg hkey]
          simp only [hshadow]

/-- The host that `sscanf` cuts off. -/
theorem scanHost_http (rest : List Byte) :
    scanHost (bytes "http://" ++ rest) =
      if (rest.takeWhile (· != 47)).take 255 = [] then none
      else some ((rest.takeWhile (· != 47)).take 255) := by
  have hscheme : startsWith (bytes "http://") (bytes "http://" ++ rest) = true := by
    simp [startsWith]
  have hdrop : (bytes "http://" ++ rest).drop 7 = rest := by
    rw [← show (bytes "http://").length = 7 by decide, List.drop_left]
  unfold scanHost
  rw [if_pos hscheme, hdrop]
  cases (rest.takeWhile (· != 47)).take 255 with
  | nil => rfl
  | cons b host => rfl

/-- For every request and every `Location` of the form `http://host`, with a host of at most 255
bytes and any path behind it: after `update_request_from_location` the `Host` that is looked up
is this host if and only if it was this host before, or the host is not empty and no `Host` item
in another spelling stands in front of the first one that is spelled `Host`. -/
theorem listGetKey_location_iff (req : Request) (host path : List Byte) (hhost : 47 ∉ host)
    (hfits : host.length ≤ 255) (hpath : path ≠ [] → path.head? = some 47) :
    listGetKey (updateRequestFromLocation req (bytes "http://" ++ host ++ path)).metadata
        (bytes "Host") = some host ↔
      listGetKey req.metadata (bytes "Host") = some host ∨
        host ≠ [] ∧ ¬ HostShadowed req.metadata := by
  have hscan : (host ++ path).takeWhile (· != 47) = host := by
    rw [takeWhile_append_notMem hhost]
    cases hcases : path with
    | nil => simp
    | cons b rest =>
        have hslash := hpath (by simp [hcases])
        rw [hcases, List.head?_cons, Option.some.injEq] at hslash
        simp [hslash]
  unfold updateRequestFromLocation
  rw [List.append_assoc, scanHost_http, hscan, List.take_of_length_le hfits]
  by_cases hempty : host = []
  · simp [hempty]
  · simp only [hempty, if_false, listGetKey_requestSetHost, ne_eq, not_false_eq_true, true_and]
    by_cases hshadow : HostShadowed req.metadata
    · simp [hshadow]
    · simp [hshadow]

/-- A `Host` item in capital letters in front of one that is spelled `Host`. -/
def capitalRequest : Request where
  method := .get
  version := .http11
  searchPath := bytes "http://a/"
  metadata := [⟨bytes "HOST", bytes "x"⟩, ⟨bytes "Host", bytes "a"⟩]

theorem listGetKey_location_iff_moved :
    listGetKey (updateRequestFromLocation plainRequest
      (bytes "http://" ++ bytes "b:1" ++ bytes "/c")).metadata (bytes "Host") = some (bytes "b:1") :=
  (listGetKey_location_iff plainRequest (bytes "b:1") (bytes "/c") (by decide) (by decide)
    (by decide)).mpr (.inr (by decide))

/-- The item in capital letters gets the new host, and the old one behind it is looked up. -/
theorem listGetKey_location_capital :
    ¬ ∀ (req : Request) (host path : List Byte), 47 ∉ host → host ≠ [] → host.length ≤ 255 →
      (path ≠ [] → path.head? = some 47) →
      listGetKey (updateRequestFromLocation req (bytes "http://" ++ host ++ path)).metadata
        (bytes "Host") = some host := by
  intro h
  have hcapital := h capitalRequest (bytes "b") (bytes "/") (by decide) (by decide) (by decide)
    (by decide)
  exact absurd hcapital (by decide)

/-! ### The next server and the next target -/

/-- The server that `http_connect` makes of the value of a `Host` header. -/
def hostServer (hostHeader : List Byte) : Server :=
  let host := hostHeader.take 255
  match strchr host 58 with
  | none => ⟨host, bytes "80"⟩
  | some colon => ⟨host.takeWhile (· != 58), (colon.drop 1).take 5⟩

/-- The server that `http_connect` connects to for a request. -/
def connectServer (req : Request) : Option Server :=
  (hostPort req).map fun server => ⟨server.1, server.2⟩

theorem connectServer_eq (req : Request) :
    connectServer req = (listGetKey req.metadata (bytes "Host")).map hostServer := by
  unfold connectServer hostPort hostServer
  rw [Option.map_map]
  congr 1
  funext hostHeader
  simp only [Function.comp_apply]
  cases strchr (hostHeader.take 255) 58 <;> rfl

section HostServer

variable {host port : List Byte}

theorem ne_colon (hcolon : 58 ∉ host) : ∀ b ∈ host, (b != 58) = true := by
  intro b hb
  rw [bne_iff_ne]
  rintro rfl
  exact hcolon hb

/-- A host alone is read as it is in an authority. -/
theorem hostServer_host (hfits : host.length ≤ 255) (hcolon : 58 ∉ host) :
    hostServer host = ⟨host, bytes "80"⟩ := by
  have hnone : strchr host 58 = none := by
    rw [strchr, List.dropWhile_eq_nil_iff.mpr (ne_colon hcolon)]
  simp only [hostServer, List.take_of_length_le hfits, hnone]

/-- So are a host and a port of at most five bytes. -/
theorem hostServer_port (hfits : (host ++ 58 :: port).length ≤ 255) (hcolon : 58 ∉ host)
    (hport : port.length ≤ 5) : hostServer (host ++ 58 :: port) = ⟨host, port⟩ := by
  have hstop : ∀ b ∈ (58 :: port).head?, (b != 58) = false := by simp
  have hfound : strchr (host ++ 58 :: port) 58 = some (58 :: port) := by
    rw [strchr, dropWhile_span (ne_colon hcolon) hstop]
  simp only [hostServer, List.take_of_length_le hfits, hfound,
    takeWhile_span (ne_colon hcolon) hstop, List.drop_one, List.tail_cons,
    List.take_of_length_le hport]

end HostServer

/-- The URL that a request is sent for, to the server that is connected. -/
def currentUrl (server : Server) (req : Request) : HttpUrl :=
  ⟨server, extractUri req.searchPath⟩

/-- The value of the item that `request_set_host` replaces. -/
def hostItem (metadata : List MetadataItem) : Option (List Byte) :=
  (metadata.find? fun item => strcaseeq item.key (bytes "Host")).map MetadataItem.value

/-- What is looked up next, when `sscanf` has cut off this host. -/
def nextHost (metadata : List MetadataItem) (scanned : List Byte) : Option (List Byte) :=
  if HostShadowed metadata then listGetKey metadata (bytes "Host") else some scanned

/-- The text that is looked up next names the server in the authority of the `Location`, read as
`http_connect` does: 255 bytes, a host up to the first colon, a port of five bytes. -/
def ServerKept (metadata : List MetadataItem) (scanned authority : List Byte) : Prop :=
  ∃ host, nextHost metadata scanned = some host ∧
    (hostServer host).Same (Server.ofAuthority authority)

/-- An authority is read alike when it has neither user information nor brackets, at most 255
bytes, and a port of one to five bytes or none, and `request_set_host` reaches the item that is
looked up. -/
theorem serverKept_of_plain {metadata : List MetadataItem} (host : List Byte)
    (port : Option (List Byte)) (hshadow : ¬ HostShadowed metadata) (hcolon : 58 ∉ host)
    (huser : 64 ∉ host ++ port.elim [] (58 :: ·))
    (hbracket : (host ++ port.elim [] (58 :: ·)).head? ≠ some 91)
    (hfits : (host ++ port.elim [] (58 :: ·)).length ≤ 255)
    (hport : ∀ p ∈ port, p ≠ [] ∧ p.length ≤ 5) :
    ServerKept metadata (host ++ port.elim [] (58 :: ·)) (host ++ port.elim [] (58 :: ·)) := by
  refine ⟨_, if_neg hshadow, ?_⟩
  cases port with
  | none =>
      simp only [Option.elim_none, List.append_nil] at *
      rw [hostServer_host hfits hcolon, Server.ofAuthority_host huser hcolon hbracket]
      exact Server.Same.refl _
  | some port =>
      obtain ⟨hne, hshort⟩ := hport port rfl
      simp only [Option.elim_some] at *
      rw [hostServer_port hfits hcolon hshort,
        Server.ofAuthority_port huser hcolon hbracket hne]
      exact Server.Same.refl _

/-- `extract_uri` finds the path and the query of the `Location`: there is a path without dot
segments and no fragment, or there is no path, and the first slash behind the authority, if any,
stands before a copy of the query and nothing else. -/
def TargetKept (url : UriReference) : Prop :=
  if url.path = [] then
    let found := (url.query ++ url.fragment).dropWhile (· != 47)
    found = [] ∧ url.query = [] ∨ found = 47 :: url.query
  else url.fragment = [] ∧ removeDotSegments url.path = url.path

/-- The next request goes where the `Location` says, and is another one: `sscanf` finds a host,
the server and the target are those of the `Location`, and it is not so that both the target and
the replaced value stay as they are. -/
def LocationKept (req : Request) (location : List Byte) : Prop :=
  let url := UriReference.parse location
  ∃ scanned authority, scanHost location = some scanned ∧ url.authority = some authority ∧
    (Server.ofAuthority authority).host ≠ [] ∧ ServerKept req.metadata scanned authority ∧
    TargetKept url ∧
    ¬ (extractUri location = extractUri req.searchPath ∧ hostItem req.metadata = some scanned)

theorem parse_http (rest : List Byte) :
    (UriReference.parse (bytes "http://" ++ rest)).scheme = some (bytes "http") ∧
      (UriReference.parse (bytes "http://" ++ rest)).authority =
        some (rest.takeWhile UriReference.inAuthority) ∧
      rest = rest.takeWhile UriReference.inAuthority ++
        ((UriReference.parse (bytes "http://" ++ rest)).path ++
          ((UriReference.parse (bytes "http://" ++ rest)).query ++
            (UriReference.parse (bytes "http://" ++ rest)).fragment)) := by
  have hshape : bytes "http://" ++ rest = bytes "http" ++ 58 :: (bytes "//" ++ rest) := by
    have hscheme : bytes "http://" = bytes "http" ++ 58 :: bytes "//" := by decide
    simp [hscheme]
  have hscheme := UriReference.splitScheme_append (bytes "http") (bytes "//" ++ rest) (by decide)
    (by decide +kernel)
  have hauthority := UriReference.splitAuthority_slashes rest
  have hbehind := UriReference.parse_append (bytes "http://" ++ rest)
  rw [hshape, hscheme, hauthority] at hbehind
  rw [hshape]
  refine ⟨?_, ?_, ?_⟩
  · simp only [UriReference.parse, hscheme]
  · simp only [UriReference.parse, hscheme, hauthority]
  · rw [hbehind, List.takeWhile_append_dropWhile]

/-- The target of an absolute `Location`. -/
theorem targetKept_iff {url : UriReference} (hpath : url.path ≠ [] → url.path.head? = some 47) :
    (strchr (url.path ++ (url.query ++ url.fragment)) 47).getD (bytes "/") =
        HttpUrl.targetOf url.path url.query ↔ TargetKept url := by
  have hslash : bytes "/" = [47] := by decide
  unfold HttpUrl.targetOf TargetKept
  by_cases hempty : url.path = []
  · simp only [hempty, if_true, List.nil_append, List.cons_append, strchr]
    cases hfound : (url.query ++ url.fragment).dropWhile (· != 47) with
    | nil => simp [hslash]
    | cons b found => simp
  · have hhead : (url.path ++ (url.query ++ url.fragment)).head? = some 47 := by
      rw [List.head?_append, hpath hempty, Option.some_or]
    have hshorter := length_removeDotSegments hempty
    simp only [hempty, if_false, strchr_of_head hhead, Option.getD_some]
    constructor
    · intro heq
      have hlength := congrArg List.length heq
      simp only [List.length_append] at hlength
      have hfragment : url.fragment = [] := List.length_eq_zero_iff.mp (by omega)
      rw [hfragment, List.append_nil] at heq
      exact ⟨hfragment, (List.append_cancel_right heq).symm⟩
    · rintro ⟨hfragment, hdots⟩
      rw [hfragment, hdots, List.append_nil]

/-- The header lines stay as they are if and only if the replaced value does. -/
theorem headerText_requestSetHost_iff (host : List Byte) (metadata : List MetadataItem) :
    metadata.flatMap headerText = (requestSetHost host metadata).flatMap headerText ↔
      hostItem metadata = some host := by
  induction metadata with
  | nil =>
      have hline : headerText ⟨bytes "Host", host⟩ ≠ [] := by
        have hkey : ¬ (bytes "Host" = bytes "Connection" ∨
            bytes "Host" = bytes "Proxy-Connection") := by
          decide
        rw [headerText, if_neg hkey]
        exact List.append_ne_nil_of_right_ne_nil _ (by decide)
      simp [requestSetHost, hostItem, hline.symm]
  | cons item rest ih =>
      rw [requestSetHost, hostItem, List.find?_cons]
      cases hcase : strcaseeq item.key (bytes "Host") with
      | true =>
          have hkept : ¬ (item.key = bytes "Connection" ∨ item.key = bytes "Proxy-Connection") := by
            rintro (hkey | hkey) <;>
            · rw [hkey] at hcase
              exact absurd hcase (by decide)
          simp [headerText, hkept]
      | false => simpa [hostItem] using ih

/-- The request behind a `Location` with a host. -/
theorem updateRequestFromLocation_of_scanHost {req : Request} {location scanned : List Byte}
    (hscan : scanHost location = some scanned) : updateRequestFromLocation req location =
      { req with metadata := requestSetHost scanned req.metadata, searchPath := location } := by
  rw [updateRequestFromLocation, hscan]

/-- The same text is sent again if and only if the target and the replaced value stay. -/
theorem buildRequest_location_iff {req : Request} {location scanned text : List Byte}
    (hscan : scanHost location = some scanned) (hpath : 13 ∉ req.searchPath)
    (hreturn : 13 ∉ location)
    (htext : buildRequest (updateRequestFromLocation req location) = some text) :
    buildRequest req = some text ↔
      extractUri location = extractUri req.searchPath ∧ hostItem req.metadata = some scanned := by
  rw [updateRequestFromLocation_of_scanHost hscan] at htext
  have htarget : sentTarget text = extractUri location := sentTarget_buildRequest hreturn htext
  rw [← headerText_requestSetHost_iff, ← htext]
  constructor
  · intro hsame
    have huri : extractUri location = extractUri req.searchPath :=
      htarget.symm.trans (sentTarget_buildRequest hpath (hsame.trans htext))
    refine ⟨huri, ?_⟩
    unfold buildRequest at hsame
    simp only [huri] at hsame
    cases hversion : versionText req.version with
    | none => simp [buildRequest, hversion] at htext
    | some version => simpa [hversion] using hsame
  · rintro ⟨huri, hlines⟩
    simp only [buildRequest, huri, hlines]

/-- A value that is replaced by itself. -/
theorem requestSetHost_of_hostItem {host : List Byte} {metadata : List MetadataItem}
    (h : hostItem metadata = some host) : requestSetHost host metadata = metadata := by
  induction metadata with
  | nil => simp [hostItem] at h
  | cons item rest ih =>
      rw [hostItem, List.find?_cons] at h
      rw [requestSetHost]
      cases hcase : strcaseeq item.key (bytes "Host") with
      | true =>
          rw [hcase] at h
          rw [if_pos rfl, ← Option.some.inj h]
      | false =>
          rw [hcase] at h
          rw [if_neg Bool.false_ne_true, ih h]

/-- The connection behind a `Location` with a host. -/
theorem connectServer_location {req : Request} {location scanned : List Byte}
    (hscan : scanHost location = some scanned) :
    connectServer (updateRequestFromLocation req location) =
      (nextHost req.metadata scanned).map hostServer := by
  rw [updateRequestFromLocation_of_scanHost hscan, connectServer_eq, listGetKey_requestSetHost]
  rfl

/-- After `update_request_from_location` the request goes to the resource that the `Location`
names, and is not the one that was sent before, if and only if the `Location` and the request look
like that. -/
theorem location_iff {req : Request} {server : Server} {location text : List Byte}
    (hserver : connectServer req = some server) (hpath : 13 ∉ req.searchPath)
    (hreturn : 13 ∉ location)
    (htext : buildRequest (updateRequestFromLocation req location) = some text) :
    (∃ url next, (currentUrl server req).resolve location = some url ∧
        connectServer (updateRequestFromLocation req location) = some next ∧
        next.Same url.server ∧ sentTarget text = url.target ∧
        ¬ (next.Same server ∧ buildRequest req = some text)) ↔
      LocationKept req location := by
  cases hscan : scanHost location with
  | none =>
      have hunchanged : updateRequestFromLocation req location = req := by
        rw [updateRequestFromLocation, hscan]
      rw [hunchanged] at htext ⊢
      constructor
      · rintro ⟨url, next, -, hnext, -, -, hanew⟩
        obtain rfl : server = next := Option.some.inj (hserver.symm.trans hnext)
        exact absurd ⟨Server.Same.refl server, htext⟩ hanew
      · rintro ⟨scanned, authority, hsome, -⟩
        rw [hscan] at hsome
        cases hsome
  | some scanned =>
      obtain ⟨rest, rfl⟩ : ∃ rest, location = bytes "http://" ++ rest := by
        unfold scanHost at hscan
        split at hscan
        · next hstart =>
          obtain ⟨rest, hrest⟩ := List.isPrefixOf_iff_prefix.mp hstart
          exact ⟨rest, hrest.symm⟩
        · cases hscan
      obtain ⟨hscheme, hauthority, hrest⟩ := parse_http rest
      have hagain := buildRequest_location_iff hscan hpath hreturn htext
      have hslash : 47 ∉ rest.takeWhile UriReference.inAuthority := fun hmem =>
        absurd (List.mem_takeWhile_imp hmem) (by decide)
      have huri : sentTarget text =
          (strchr ((UriReference.parse (bytes "http://" ++ rest)).path ++
            ((UriReference.parse (bytes "http://" ++ rest)).query ++
              (UriReference.parse (bytes "http://" ++ rest)).fragment)) 47).getD (bytes "/") := by
        rw [updateRequestFromLocation_of_scanHost hscan] at htext
        rw [sentTarget_buildRequest hreturn htext, ← extractUri_absolute hslash, ← hrest]
      have htarget := targetKept_iff
        (UriReference.head_path (s := bytes "http://" ++ rest) (by simp [hauthority]))
      have hhttp : strcaseeq (bytes "http") (bytes "http") = true := by decide
      have hresolve : (currentUrl server req).resolve (bytes "http://" ++ rest) =
          if (Server.ofAuthority (rest.takeWhile UriReference.inAuthority)).host = [] then none
          else some ⟨Server.ofAuthority (rest.takeWhile UriReference.inAuthority),
            HttpUrl.targetOf (UriReference.parse (bytes "http://" ++ rest)).path
              (UriReference.parse (bytes "http://" ++ rest)).query⟩ := by
        simp only [HttpUrl.resolve, hscheme, hauthority, Option.any_some, hhttp, Bool.not_true,
          Bool.false_eq_true, if_false]
      rw [hresolve, connectServer_location hscan]
      constructor
      · rintro ⟨url, next, hurl, hnext, hsame, hgoes, hanew⟩
        obtain ⟨host, hhost, rfl⟩ := Option.map_eq_some_iff.mp hnext
        split at hurl
        case isTrue => cases hurl
        case isFalse hne =>
            obtain rfl := Option.some.inj hurl
            refine ⟨scanned, _, hscan, hauthority, hne, ⟨host, hhost, hsame⟩,
              htarget.mp (huri.symm.trans hgoes), fun hresent => hanew ⟨?_, hagain.mpr hresent⟩⟩
            -- with the same value in the same place the same server is looked up
            rw [← connectServer_location hscan, updateRequestFromLocation_of_scanHost hscan,
              requestSetHost_of_hostItem hresent.2] at hnext
            obtain rfl : server = hostServer host := Option.some.inj (hserver.symm.trans hnext)
            exact Server.Same.refl _
      · rintro ⟨scanned', authority, hscan', hauthority', hne, ⟨host, hhost, hsame⟩, hkept, hanew⟩
        obtain rfl : scanned = scanned' := Option.some.inj (hscan.symm.trans hscan')
        obtain rfl := Option.some.inj (hauthority.symm.trans hauthority')
        rw [if_neg hne]
        exact ⟨_, _, rfl, Option.map_eq_some_iff.mpr ⟨host, hhost, rfl⟩, hsame,
          huri.trans (htarget.mpr hkept), fun hresent => hanew (hagain.mp hresent.2)⟩

/-- A `Location` value has no CR. -/
theorem notMem_locationOf {stream location : List Byte}
    (h : locationOf stream = some location) : 13 ∉ location := by
  obtain ⟨line, -, hline⟩ := List.mem_filterMap.mp (List.mem_of_getLast? h)
  unfold locationLine at hline
  split at hline
  · rw [← Option.some.inj hline]
    intro hmem
    exact absurd (List.mem_takeWhile_imp hmem) (by decide)
  · cases hline

theorem searchPath_location {req : Request} {location : List Byte} {c : Byte}
    (hpath : c ∉ req.searchPath) (hlocation : c ∉ location) :
    c ∉ (updateRequestFromLocation req location).searchPath := by
  unfold updateRequestFromLocation
  cases scanHost location with
  | none => exact hpath
  | some host => exact hlocation

namespace Loader

/-- For every request, every redirect response with a `Location`, and every upstream: if the
header loop goes on and sends its next request, then the server of the next connection and the
target in the request line are those of the resource that the `Location` names, seen from the
current URL, and it is not the request that this server has had already, if and only if the
`Location` and the request are as `LocationKept` says. -/
theorem followed_iff (env : Env) (l : Loader) (server : Server) (location text : List Byte)
    (fd : Nat) (hserver : connectServer l.request = some server)
    (hpath : 13 ∉ l.request.searchPath) (hlocation : locationOf l.conn.bytes = some location)
    (hcontinues : (l.readResponse.follow env location).targetSocket = some fd)
    (hsent : (l.nextHop env location).log.getLast? = some (.sendRequest (some fd) text)) :
    (∃ url next, (currentUrl server l.request).resolve location = some url ∧
        connectServer (l.nextHop env location).request = some next ∧
        next.Same url.server ∧ sentTarget text = url.target ∧
        ¬ (next.Same server ∧ buildRequest l.request = some text)) ↔
      LocationKept l.request location := by
  have hreached : l.nextReached env location = true := by
    by_contra hnot
    rw [follow_targetSocket_eq_none_iff.mpr (Bool.not_eq_true _ ▸ hnot)] at hcontinues
    cases hcontinues
  have hfollow := follow_of_reached hreached
  have hrequest : (l.nextHop env location).request =
      updateRequestFromLocation l.request location := by
    obtain ⟨log, hsend, -⟩ := (l.readResponse.follow env location).requestSend_fields
    rw [nextHop, hsend, hfollow]
  have htext : buildRequest (updateRequestFromLocation l.request location) = some text := by
    rw [nextHop, requestSend, hfollow] at hsent
    cases hbuild : buildRequest (updateRequestFromLocation l.request location) with
    | none => simp [hbuild] at hsent
    | some built =>
        simp only [hbuild, emit, List.getLast?_concat, Option.some.injEq,
          Event.sendRequest.injEq] at hsent
        rw [hsent.2]
  rw [hrequest]
  exact location_iff hserver hpath (notMem_locationOf hlocation) htext

/-- A redirect to another host. -/
theorem followed_iff_moved :
    ∃ text next,
      ((connectPhase (redirecting movedResponse plainResponse) plainRequest).nextHop
          (redirecting movedResponse plainResponse) (bytes "http://b/")).log.getLast? =
        some (.sendRequest (some 1) text) ∧ sentTarget text = bytes "/" ∧
      next.Same ⟨bytes "b", bytes "80"⟩ ∧
      connectServer ((connectPhase (redirecting movedResponse plainResponse) plainRequest).nextHop
        (redirecting movedResponse plainResponse) (bytes "http://b/")).request = some next := by
  have hkept : LocationKept plainRequest (bytes "http://b/") := by
    have hserver := @serverKept_of_plain plainRequest.metadata (bytes "b") none
      (by decide) (by decide) (by decide) (by decide) (by decide) (by simp)
    refine ⟨bytes "b", bytes "b", by decide, by decide, by decide, hserver, ?_, by decide⟩
    unfold TargetKept
    rw [if_neg (by decide)]
    exact ⟨by decide, by decide⟩
  obtain ⟨url, next, hurl, hnext, hsame, htarget, -⟩ :=
    (followed_iff (redirecting movedResponse plainResponse)
      (connectPhase (redirecting movedResponse plainResponse) plainRequest)
      ⟨bytes "a", bytes "80"⟩ (bytes "http://b/") _ 1 (by decide) (by decide) (by decide)
      (by decide) rfl).mpr hkept
  have hnamed : (currentUrl ⟨bytes "a", bytes "80"⟩ plainRequest).resolve (bytes "http://b/") =
      some ⟨⟨bytes "b", bytes "80"⟩, bytes "/"⟩ := by
    decide
  obtain rfl := Option.some.inj (hurl.symm.trans hnamed)
  exact ⟨_, next, rfl, htarget, hsame, hnext⟩

/-- A redirect to a path on the same host. -/
def pathResponse : List Byte :=
  bytes "HTTP/1.1 302 Found\r\nLocation: /new\r\n\r\n"

/-- The request is sent again to the same server as it was. -/
theorem followed_unchanged :
    let l := connectPhase (answering pathResponse) plainRequest
    let next := l.nextHop (answering pathResponse) (bytes "/new")
    locationOf l.conn.bytes = some (bytes "/new") ∧
      (l.readResponse.follow (answering pathResponse) (bytes "/new")).targetSocket = some 1 ∧
      connectServer l.request = some ⟨bytes "a", bytes "80"⟩ ∧
      connectServer next.request = some ⟨bytes "a", bytes "80"⟩ ∧
      (currentUrl ⟨bytes "a", bytes "80"⟩ l.request).resolve (bytes "/new") =
        some ⟨⟨bytes "a", bytes "80"⟩, bytes "/new"⟩ ∧
      ∃ text, l.log.getLast? = some (.sendRequest (some 0) text) ∧
        next.log.getLast? = some (.sendRequest (some 1) text) ∧ sentTarget text = bytes "/" := by
  refine ⟨?_, ?_, ?_, ?_, ?_, _, rfl, ?_, ?_⟩
  · decide
  · decide
  · decide
  · decide
  · decide
  · decide
  · decide

end Loader

end Proxy
end OperatingSystems
