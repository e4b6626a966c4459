import Mathlib.Algebra.BigOperators.Group.List.Basic
import OperatingSystems.Library.CString

/-!
# URI references and their resolution

A reference is cut into its components at the delimiters `:`, `/`, `?` and `#`.  The query and
the fragment keep the delimiter in front of them, so that an empty list is a component that is
not there.  `Server.ofAuthority` reads the host and the port in an authority.  `HttpUrl.resolve`
resolves a reference against the URL of an `http` resource: everything that is missing is taken
from the base, `.` and `..` segments are removed, and references with another scheme or without a
host name no `http` resource.
-/

namespace OperatingSystems

/-- The components of a reference. -/
structure UriReference where
  scheme : Option (List Byte)
  authority : Option (List Byte)
  path : List Byte
  query : List Byte
  fragment : List Byte
  deriving DecidableEq

namespace UriReference

/-- Bytes that do not end a scheme. -/
def inScheme (b : Byte) : Bool :=
  b ∉ bytes ":/?#"

/-- Bytes that do not end an authority. -/
def inAuthority (b : Byte) : Bool :=
  b ∉ bytes "/?#"

/-- Bytes that do not end a path. -/
def inPath (b : Byte) : Bool :=
  b ∉ bytes "?#"

/-- The scheme, and what stands behind its colon. -/
def splitScheme (s : List Byte) : Option (List Byte) × List Byte :=
  let name := s.takeWhile inScheme
  if name ≠ [] ∧ (s.drop name.length).head? = some 58 then (some name, s.drop (name.length + 1))
  else (none, s)

/-- The authority behind a double slash, and the rest. -/
def splitAuthority (s : List Byte) : Option (List Byte) × List Byte :=
  if startsWith (bytes "//") s then
    (some ((s.drop 2).takeWhile inAuthority), (s.drop 2).dropWhile inAuthority)
  else (none, s)

/-- The components of a string. -/
def parse (s : List Byte) : UriReference :=
  let rest := (splitAuthority (splitScheme s).2).2
  { scheme := (splitScheme s).1
    authority := (splitAuthority (splitScheme s).2).1
    path := rest.takeWhile inPath
    query := (rest.dropWhile inPath).takeWhile (· != 35)
    fragment := (rest.dropWhile inPath).dropWhile (· != 35) }

/-- What stands behind the authority. -/
theorem parse_append (s : List Byte) :
    (parse s).path ++ ((parse s).query ++ (parse s).fragment) =
      (splitAuthority (splitScheme s).2).2 := by
  show List.takeWhile _ _ ++ (List.takeWhile _ _ ++ List.dropWhile _ _) = _
  rw [List.takeWhile_append_dropWhile, List.takeWhile_append_dropWhile]

theorem splitScheme_append (name rest : List Byte) (hne : name ≠ [])
    (hname : ∀ b ∈ name, inScheme b) : splitScheme (name ++ 58 :: rest) = (some name, rest) := by
  have hcolon : inScheme 58 = false := by decide
  have htake : (name ++ 58 :: rest).takeWhile inScheme = name := by
    rw [List.takeWhile_append_of_pos hname, List.takeWhile_cons_of_neg (by simp [hcolon]),
      List.append_nil]
  unfold splitScheme
  simp [htake, hne, List.drop_append]

theorem splitAuthority_slashes (rest : List Byte) :
    splitAuthority (bytes "//" ++ rest) =
      (some (rest.takeWhile inAuthority), rest.dropWhile inAuthority) := by
  have hslashes : bytes "//" = [47, 47] := by decide
  simp [splitAuthority, startsWith, hslashes]

/-- The path behind an authority is empty, or it starts with a slash. -/
theorem head_path {s : List Byte} (hauthority : (parse s).authority ≠ none)
    (hpath : (parse s).path ≠ []) : (parse s).path.head? = some 47 := by
  have hdelimiters : bytes "/?#" = [47, 63, 35] ∧ bytes "?#" = [63, 35] := by decide
  simp only [parse] at *
  generalize (splitScheme s).2 = rest at *
  unfold splitAuthority at *
  split at hauthority
  · next hslashes =>
    simp only [hslashes, if_true] at hpath ⊢
    have hstop := List.head?_dropWhile_not inAuthority (rest.drop 2)
    cases hbehind : (rest.drop 2).dropWhile inAuthority with
    | nil => simp [hbehind] at hpath
    | cons b behind =>
        rw [hbehind] at hpath hstop
        have hin : inPath b = true := by
          by_contra hout
          simp [hout] at hpath
        rw [List.takeWhile_cons_of_pos hin, List.head?_cons]
        simp only [List.head?_cons, inAuthority, inPath, hdelimiters] at hstop hin
        simp only [List.mem_cons, List.not_mem_nil, or_false, not_or] at hin
        simp [hin] at hstop
        rw [hstop]
  · exact absurd rfl hauthority

end UriReference

/-! ### Dot segments -/

/-- The loop that removes `.` and `..`; the segments that are kept are in reverse order.  At the
end of a path both leave an empty segment behind. -/
def removeDots (kept : List (List Byte)) : List (List Byte) → List (List Byte)
  | [] => kept.reverse
  | segment :: rest =>
      if segment = bytes "." then
        if rest = [] then ([] :: kept).reverse else removeDots kept rest
      else if segment = bytes ".." then
        if rest = [] then ([] :: kept.tail).reverse else removeDots kept.tail rest
      else removeDots (segment :: kept) rest

/-- A path with its `.` and `..` segments removed, for a path that starts with a slash. -/
def removeDotSegments (path : List Byte) : List Byte :=
  (removeDots [] ((path.drop 1).splitOn 47)).flatMap (47 :: ·)

/-- The length of the path that consists of these segments. -/
def segmentsLength (segments : List (List Byte)) : Nat :=
  (segments.map fun segment => segment.length + 1).sum

theorem length_flatMap_slash (segments : List (List Byte)) :
    (segments.flatMap (47 :: ·)).length = segmentsLength segments := by
  simp [segmentsLength, List.length_flatMap]

@[simp] theorem segmentsLength_cons (segment : List Byte) (segments : List (List Byte)) :
    segmentsLength (segment :: segments) = segment.length + 1 + segmentsLength segments := by
  simp [segmentsLength]

@[simp] theorem segmentsLength_reverse (segments : List (List Byte)) :
    segmentsLength segments.reverse = segmentsLength segments := by
  simp [segmentsLength, List.sum_reverse]

theorem segmentsLength_tail (segments : List (List Byte)) :
    segmentsLength segments.tail ≤ segmentsLength segments := by
  cases segments with
  | nil => exact Nat.le_refl _
  | cons segment segments => simp

theorem segmentsLength_removeDots (kept segments : List (List Byte)) :
    segmentsLength (removeDots kept segments) ≤
      segmentsLength kept + segmentsLength segments := by
  induction segments generalizing kept with
  | nil => simp [removeDots]
  | cons segment rest ih =>
      have htail := segmentsLength_tail kept
      rw [removeDots, segmentsLength_cons]
      split
      · split
        · simp only [segmentsLength_reverse, segmentsLength_cons, List.length_nil]
          omega
        · have := ih kept
          omega
      · split
        · split
          · simp only [segmentsLength_reverse, segmentsLength_cons, List.length_nil]
            omega
          · have := ih kept.tail
            omega
        · have := ih (segment :: kept)
          rw [segmentsLength_cons] at this
          omega

theorem segmentsLength_splitOn (s : List Byte) : segmentsLength (s.splitOn 47) = s.length + 1 := by
  have hjoin : ([47] : List Byte).intercalate (s.splitOn 47) = s := List.intercalate_splitOn 47
  have hne : s.splitOn 47 ≠ [] := List.splitOn_ne_nil 47 s
  generalize s.splitOn 47 = segments at *
  subst hjoin
  induction segments with
  | nil => exact absurd rfl hne
  | cons segment segments ih =>
      cases segments with
      | nil => simp [segmentsLength, List.intercalate]
      | cons next segments =>
          have hrest := ih (List.cons_ne_nil _ _)
          rw [segmentsLength_cons, hrest]
          simp [List.intercalate]
          omega

/-- Removing dot segments makes no path longer. -/
theorem length_removeDotSegments {path : List Byte} (hne : path ≠ []) :
    (removeDotSegments path).length ≤ path.length := by
  have hremove := segmentsLength_removeDots [] ((path.drop 1).splitOn 47)
  have hpos : 0 < path.length := List.length_pos_iff.mpr hne
  rw [segmentsLength_splitOn, List.length_drop] at hremove
  rw [removeDotSegments, length_flatMap_slash]
  simp only [segmentsLength, List.map_nil, List.sum_nil] at hremove ⊢
  omega

/-! ### Servers -/

/-- A host and a port, as texts. -/
structure Server where
  host : List Byte
  port : List Byte
  deriving DecidableEq

/-- The text is a decimal number. -/
def isNumber (s : List Byte) : Bool :=
  s ≠ [] && s.all fun b => 48 ≤ b && b ≤ 57

/-- Ports are compared as numbers. -/
def samePort (port other : List Byte) : Bool :=
  port == other || isNumber port && isNumber other && decimal 0 port == decimal 0 other

namespace Server

/-- The same host, in any spelling, and the same port. -/
def Same (server other : Server) : Prop :=
  strcaseeq server.host other.host = true ∧ samePort server.port other.port = true

instance (server other : Server) : Decidable (Same server other) :=
  inferInstanceAs (Decidable (_ ∧ _))

theorem Same.refl (server : Server) : server.Same server := by
  simp [Same, strcaseeq, samePort]

/-- The server in an authority: behind the user information, the host up to a colon, where a host
in brackets may contain colons, and the port behind it; 80 if there is none. -/
def ofAuthority (authority : List Byte) : Server :=
  let text := (authority.reverse.takeWhile (· != 64)).reverse
  let host :=
    if text.head? = some 91 then text.takeWhile (· != 93) ++ (text.dropWhile (· != 93)).take 1
    else text.takeWhile (· != 58)
  let port := text.drop (host.length + 1)
  ⟨host, if port = [] then bytes "80" else port⟩

section OfAuthority

variable {host port : List Byte}

theorem reverse_takeWhile_reverse {s : List Byte} (hs : 64 ∉ s) :
    (s.reverse.takeWhile (· != 64)).reverse = s := by
  rw [List.takeWhile_eq_self_iff.mpr, List.reverse_reverse]
  intro b hb
  rw [bne_iff_ne]
  rintro rfl
  exact hs (List.mem_reverse.mp hb)

/-- A host alone. -/
theorem ofAuthority_host (huser : 64 ∉ host) (hcolon : 58 ∉ host)
    (hbracket : host.head? ≠ some 91) : ofAuthority host = ⟨host, bytes "80"⟩ := by
  have hall : host.takeWhile (· != 58) = host := by
    simpa using takeWhile_append_notMem hcolon []
  unfold ofAuthority
  rw [reverse_takeWhile_reverse huser]
  simp [hbracket, hall]

/-- A host and a port. -/
theorem ofAuthority_port (huser : 64 ∉ host ++ 58 :: port) (hcolon : 58 ∉ host)
    (hbracket : (host ++ 58 :: port).head? ≠ some 91) (hport : port ≠ []) :
    ofAuthority (host ++ 58 :: port) = ⟨host, port⟩ := by
  have hhost : (host ++ 58 :: port).takeWhile (· != 58) = host := by
    rw [takeWhile_append_notMem hcolon]
    simp
  have hdrop : (host ++ 58 :: port).drop (host.length + 1) = port := by
    rw [List.append_cons, ← List.length_singleton (a := (58 : Byte)), ← List.length_append,
      List.drop_left]
  unfold ofAuthority
  rw [reverse_takeWhile_reverse huser]
  simp only [hbracket, if_false, hhost, hdrop, hport]

end OfAuthority

end Server

/-! ### Resolution -/

/-- The URL of an `http` resource: its server, and its path with its query. -/
structure HttpUrl where
  server : Server
  target : List Byte
  deriving DecidableEq

namespace HttpUrl

/-- The path and the query behind an authority; an empty path stands for `/`. -/
def targetOf (path query : List Byte) : List Byte :=
  (if path = [] then [47] else removeDotSegments path) ++ query

/-- The target of a reference without an authority. -/
def relativeTarget (base : HttpUrl) (url : UriReference) : List Byte :=
  let basePath := base.target.takeWhile (· != 63)
  if url.path = [] then
    basePath ++ if url.query = [] then base.target.dropWhile (· != 63) else url.query
  else if url.path.head? = some 47 then removeDotSegments url.path ++ url.query
  else
    let directory := (basePath.reverse.dropWhile (· != 47)).reverse
    removeDotSegments (directory ++ url.path) ++ url.query

/-- The `http` resource that a reference names, seen from `base`. -/
def resolve (base : HttpUrl) (s : List Byte) : Option HttpUrl :=
  let url := UriReference.parse s
  if url.scheme.any (!strcaseeq (bytes "http") ·) then none
  else
    match url.authority with
    | some authority =>
        let server := Server.ofAuthority authority
        if server.host = [] then none else some ⟨server, targetOf url.path url.query⟩
    | none =>
        if url.scheme.isSome then none else some ⟨base.server, base.relativeTarget url⟩

end HttpUrl

end OperatingSystems
