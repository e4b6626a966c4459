import OperatingSystems.Proxy.Smuggling

/-!
# The target of the request line

* `Target` — the two forms of a request target: an absolute `http` URL without a fragment, and
  the origin form.
* `sentTarget_buildRequest` — the target that `build_request` writes is what `extract_uri`
  returns.
* `sentTarget_eq_iff` — for which targets this is the path and the query of the target.
-/

namespace OperatingSystems
namespace Proxy

/-- `http://` with an authority, a path and a query, each of which may be empty. -/
structure AbsoluteForm where
  authority : List Byte
  path : List Byte
  query : List Byte
  authority_clean : 47 ∉ authority ∧ 63 ∉ authority ∧ 35 ∉ authority
  path_rooted : path ≠ [] → path.head? = some 47
  path_clean : 63 ∉ path ∧ 35 ∉ path
  query_marked : query ≠ [] → query.head? = some 63
  query_clean : 35 ∉ query

/-- A request target. -/
inductive Target
  | absolute (url : AbsoluteForm)
  | origin (path : List Byte) (rooted : path.head? = some 47)

/-- The target as the client writes it. -/
def Target.text : Target → List Byte
  | absolute url => bytes "http://" ++ (url.authority ++ (url.path ++ url.query))
  | origin path _ => path

/-- The path and the query of a target; an empty path stands for `/`. -/
def Target.pathAndQuery : Target → List Byte
  | absolute url => if url.path = [] then 47 :: url.query else url.path ++ url.query
  | origin path _ => path

/-- The path is not left out in front of a query, and an origin form has nothing but the root. -/
def Target.Kept : Target → Prop
  | absolute url => url.path = [] → url.query = []
  | origin path _ => path = [47]

/-- What stands between `GET ` and the nine bytes of the version in the first line of a text. -/
def sentTarget (text : List Byte) : List Byte :=
  let line := (text.drop 4).takeWhile (· != 13)
  line.take (line.length - 9)

/-! ### `extract_uri` -/

theorem strstr_slashes (s : List Byte) :
    strstr (bytes "//") (bytes "http://" ++ s) = some (bytes "//" ++ s) := by
  have hscheme : bytes "http://" = [104, 116, 116, 112, 58, 47, 47] := by decide
  have hslashes : bytes "//" = [47, 47] := by decide
  simp [hscheme, hslashes, strstr]

/-- The first slash of what follows the authority. -/
theorem extractUri_absolute {authority rest : List Byte} (hauthority : 47 ∉ authority) :
    extractUri (bytes "http://" ++ (authority ++ rest)) = (strchr rest 47).getD (bytes "/") := by
  have hslashes : (bytes "//").length = 2 := by decide
  have hdrop : (bytes "//" ++ (authority ++ rest)).drop 2 = authority ++ rest := by
    rw [← hslashes, List.drop_left]
  have hskip : (authority ++ rest).dropWhile (· != 47) = rest.dropWhile (· != 47) := by
    refine List.dropWhile_append_of_pos fun b hb => ?_
    simp only [bne_iff_ne, ne_eq]
    rintro rfl
    exact hauthority hb
  unfold extractUri
  rw [strstr_slashes]
  simp only [hdrop, strchr, hskip]
  cases rest.dropWhile (· != 47) with
  | nil => rfl
  | cons b uri => rfl

theorem strchr_of_head {s : List Byte} {c : Byte} (h : s.head? = some c) : strchr s c = some s := by
  obtain ⟨rest, rfl⟩ := List.head?_eq_some_iff.mp h
  simp [strchr]

theorem length_strchr {s found : List Byte} {c : Byte} (h : strchr s c = some found) :
    found.length ≤ s.length := by
  unfold strchr at h
  split at h
  · cases h
  · exact Option.some.inj h ▸ List.length_dropWhile_le _ _

theorem length_strstr {needle s found : List Byte} (h : strstr needle s = some found) :
    found.length ≤ s.length ∧ needle <+: found := by
  induction s with
  | nil =>
      rw [strstr] at h
      split at h
      · next hnil =>
        obtain rfl := Option.some.inj h
        exact ⟨Nat.le_refl _, hnil ▸ List.prefix_rfl⟩
      · cases h
  | cons b s ih =>
      rw [strstr] at h
      split at h
      · next hprefix =>
        obtain rfl := Option.some.inj h
        exact ⟨Nat.le_refl _, hprefix⟩
      · obtain ⟨hlength, hprefix⟩ := ih h
        exact ⟨by rw [List.length_cons]; omega, hprefix⟩

/-- What `extract_uri` finds is shorter than the string it looks at. -/
theorem extractUri_shorter (searchPath : List Byte) :
    extractUri searchPath = [47] ∨ (extractUri searchPath).length < searchPath.length := by
  have hslash : bytes "/" = [47] := by decide
  unfold extractUri
  split
  · exact .inl hslash
  · next pathStart hstart =>
    obtain ⟨hlength, hprefix⟩ := length_strstr hstart
    split
    · exact .inl hslash
    · next uri huri =>
      right
      have htwo : 2 ≤ pathStart.length := by
        have hlen := hprefix.length_le
        rwa [show (bytes "//").length = 2 by decide] at hlen
      have hfound := length_strchr huri
      rw [List.length_drop] at hfound
      omega

/-- `extract_uri` gives the path and the query of exactly the targets that are kept. -/
theorem extractUri_text_iff (target : Target) :
    extractUri target.text = target.pathAndQuery ↔ target.Kept := by
  have hslash : bytes "/" = [47] := by decide
  cases target with
  | absolute url =>
      have huri : extractUri (bytes "http://" ++ (url.authority ++ (url.path ++ url.query))) = _ :=
        extractUri_absolute url.authority_clean.1
      simp only [Target.text, Target.pathAndQuery, Target.Kept, huri]
      by_cases hpath : url.path = []
      · simp only [hpath, List.nil_append, if_true, forall_const]
        by_cases hquery : url.query = []
        · simp [hquery, strchr, hslash]
        · -- the query is longer than what stands behind its first slash
          simp only [hquery, iff_false]
          intro heq
          have hlength := congrArg List.length heq
          cases hfound : strchr url.query 47 with
          | none =>
              simp [hfound, hslash, hquery] at heq
          | some found =>
              have hle := length_strchr hfound
              rw [hfound, Option.getD_some, List.length_cons] at hlength
              omega
      · obtain ⟨path, hcons⟩ := List.head?_eq_some_iff.mp (url.path_rooted hpath)
        have hhead : (url.path ++ url.query).head? = some 47 := by
          rw [hcons]
          rfl
        simp [hpath, strchr_of_head hhead]
  | origin path rooted =>
      simp only [Target.text, Target.pathAndQuery, Target.Kept]
      constructor
      · intro heq
        rcases extractUri_shorter path with huri | hshort
        · exact heq.symm.trans huri
        · rw [heq] at hshort
          omega
      · rintro rfl
        decide

/-! ### The request line -/

/-- The target in the text is the URI. -/
theorem sentTarget_buildRequest {req : Request} {text : List Byte}
    (hreturn : 13 ∉ req.searchPath) (htext : buildRequest req = some text) :
    sentTarget text = extractUri req.searchPath := by
  have hget : (bytes "GET ").length = 4 := by decide
  have hcrlf : bytes "\r\n" = [13, 10] := by decide
  have hvalid : req.version ≠ .invalid := by
    intro hinvalid
    simp [buildRequest, hinvalid, versionText] at htext
  have hname : (versionName req.version).length = 9 ∧ 13 ∉ versionName req.version := by
    cases hv : req.version with
    | http10 => decide
    | http11 => decide
    | invalid => exact absurd hv hvalid
  obtain ⟨rest, heq⟩ : ∃ rest, text =
      bytes "GET " ++ (extractUri req.searchPath ++ versionName req.version ++ 13 :: rest) := by
    rw [buildRequest_eq_lines hvalid, Option.some.injEq] at htext
    exact ⟨_, by rw [← htext, sentLines, hcrlf]; simp; rfl⟩
  have hline : ∀ b ∈ extractUri req.searchPath ++ versionName req.version, (b != 13) = true := by
    intro b hb
    simp only [bne_iff_ne, ne_eq]
    rintro rfl
    rcases List.mem_append.mp hb with hmem | hmem
    · rcases mem_extractUri hmem with hmem | hslash
      · exact hreturn hmem
      · exact absurd hslash (by decide)
    · exact hname.2 hmem
  unfold sentTarget
  rw [heq, ← hget, List.drop_left, List.takeWhile_append_of_pos hline]
  simp [hname.1]

/-- For every request that `client_handler` accepts with a target in absolute form or in origin
form, the request line that is sent names the path and the query of the target if and only if a
path stands in front of the query, or there is no query; in origin form only the root is sent as
it is. -/
theorem sentTarget_eq_iff (version : Version) (s : Socket) (header : HeaderRequest)
    (req : Request) (target : Target) (text : List Byte)
    (hread : (readHeader version s).1 = some header) (haccepted : header.accepted = some req)
    (htarget : req.searchPath = target.text) (htext : buildRequest req = some text) :
    sentTarget text = target.pathAndQuery ↔ target.Kept := by
  have hclean := (accepted_spec hread haccepted).2
  have hreturn : 13 ∉ req.searchPath := fun hmem => (hclean 13 hmem).1 rfl
  rw [sentTarget_buildRequest hreturn htext, htarget]
  exact extractUri_text_iff target

/-- A path with a double slash in it, and a query. -/
def slashesUrl : Target :=
  .absolute
    { authority := bytes "h:1"
      path := bytes "/a//b"
      query := bytes "?q=//c"
      authority_clean := by decide
      path_rooted := by decide
      path_clean := by decide
      query_marked := by decide
      query_clean := by decide }

/-- The request that `read_header` makes of a request line with this target. -/
def slashesRequest : HeaderRequest :=
  ⟨.get, .http10, some slashesUrl.text, []⟩

theorem sentTarget_eq_iff_slashes :
    ∃ text, buildRequest ⟨.get, .http10, slashesUrl.text, []⟩ = some text ∧
      sentTarget text = bytes "/a//b?q=//c" := by
  have hread :
      (readHeader .invalid ⟨bytes "GET http://h:1/a//b?q=//c HTTP/1.0\r\n\r\n", [3]⟩).1 =
        some slashesRequest := by
    decide
  have hkept : slashesUrl.Kept := by
    intro hpath
    exact absurd hpath (by decide)
  refine ⟨_, rfl, ?_⟩
  exact (sentTarget_eq_iff .invalid _ slashesRequest _ slashesUrl _ hread rfl rfl rfl).mpr hkept

/-- An empty path in front of a query. -/
def searchUrl : Target :=
  .absolute
    { authority := bytes "h"
      path := []
      query := bytes "?q"
      authority_clean := by decide
      path_rooted := by simp
      path_clean := by decide
      query_marked := by decide
      query_clean := by decide }

/-- `GET http://h?q` is sent as a request for `/`. -/
theorem sentTarget_search :
    ∃ header req text,
      (readHeader .invalid ⟨bytes "GET http://h?q HTTP/1.1\r\nHost: h\r\n\r\n", []⟩).1 =
          some header ∧
        header.accepted = some req ∧ req.method = .get ∧ req.searchPath = searchUrl.text ∧
        buildRequest req = some text ∧ sentTarget text = bytes "/" ∧
        sentTarget text ≠ searchUrl.pathAndQuery := by
  refine ⟨_, _, _, rfl, rfl, ?_, ?_, rfl, ?_, ?_⟩
  · decide
  · decide
  · decide
  · decide

end Proxy
end OperatingSystems
