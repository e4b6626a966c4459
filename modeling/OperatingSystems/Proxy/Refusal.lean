import OperatingSystems.Proxy.Segmentation
import OperatingSystems.Proxy.Smuggling

/-!
# Requests with another method

What the first line of the client's stream decides: whether `client_handler` answers `405`, goes
on with a `GET`, or closes the connection without an answer.

* `FirstLine` — the first line is a token, a space, a target and a rest that CRLF ends.
* `MethodAnswered` — another method than `GET` is answered with `405` and nothing else happens,
  and a `GET` is looked up under its target.
* `methodAnswered_iff` — `parse_method` gives up on a token that `methods` does not name before
  it sets `search_path`, and `client_handler` tests `search_path` before the method.
-/

namespace OperatingSystems
namespace Proxy

/-! ### The first line -/

/-- What separates the tokens of the request line. -/
def lineDelimiters : List Byte :=
  bytes " \r\n"

/-- The first line of the stream is a token, a space, a target and a rest that CRLF ends. -/
structure FirstLine (stream token target : List Byte) : Prop where
  token_ne_nil : token ≠ []
  token_clean : ∀ b ∈ token, b ∉ lineDelimiters
  target_clean : ∀ b ∈ target, b ∉ lineDelimiters
  shape : ∃ rest more, stream = token ++ 32 :: target ++ rest ++ bytes "\r\n" ++ more ∧
    10 ∉ rest ∧ ∀ b ∈ rest.head?, b ∈ lineDelimiters

theorem firstLine_take {line : List Byte} (hline : 10 ∉ line) (n : Nat) (more : List Byte) :
    firstLine n (line ++ 10 :: more) = (line ++ [10]).take n := by
  induction line generalizing n with
  | nil =>
      cases n with
      | zero => rfl
      | succ n => simp [firstLine]
  | cons b line ih =>
      simp only [List.mem_cons, not_or] at hline
      cases n with
      | zero => rfl
      | succ n =>
          rw [List.cons_append, firstLine, if_neg (Ne.symm hline.1), ih hline.2, List.cons_append,
            List.take_succ_cons]

/-- What is read as the request line: the line itself, as far as the buffer takes it, in which a
delimiter stands behind the target. -/
theorem FirstLine.requestLine {stream token target : List Byte}
    (h : FirstLine stream token target) :
    ∃ c rest, c ∈ lineDelimiters ∧ Proxy.requestLine stream =
      (token ++ 32 :: (target ++ c :: rest)).take (lineBufferSize - 1) := by
  obtain ⟨rest, more, rfl, hrest, hhead⟩ := h.shape
  have hcrlf : bytes "\r\n" = [13, 10] := by decide
  have hclean : ∀ {s : List Byte}, (∀ b ∈ s, b ∉ lineDelimiters) → 10 ∉ s := by
    intro s hs hmem
    exact hs 10 hmem (by decide)
  have hline : 10 ∉ token ++ 32 :: (target ++ (rest ++ [13])) := by
    have htoken := hclean h.token_clean
    have htarget := hclean h.target_clean
    simp [htoken, htarget, hrest]
  have hstream : token ++ 32 :: target ++ rest ++ bytes "\r\n" ++ more =
      (token ++ 32 :: (target ++ (rest ++ [13]))) ++ 10 :: more := by
    simp [hcrlf]
  have hread : Proxy.requestLine (token ++ 32 :: target ++ rest ++ bytes "\r\n" ++ more) =
      (token ++ 32 :: (target ++ (rest ++ [13, 10]))).take (lineBufferSize - 1) := by
    rw [Proxy.requestLine, hstream, firstLine_take hline]
    simp
  cases rest with
  | nil => exact ⟨13, [10], by decide, hread⟩
  | cons c rest =>
      refine ⟨c, rest ++ [13, 10], hhead c (by simp), ?_⟩
      rw [hread, List.cons_append]

/-! ### The tokens of the line -/

/-- The first token goes up to the first delimiter. -/
theorem strsepTokens_head (delimiters s : List Byte) :
    ∃ tokens, strsepTokens delimiters s = s.takeWhile (· ∉ delimiters) :: tokens := by
  unfold strsepTokens
  induction s with
  | nil => exact ⟨[], rfl⟩
  | cons b s ih =>
      obtain ⟨tokens, ih⟩ := ih
      by_cases hb : b ∈ delimiters
      · exact ⟨s.splitOnP (· ∈ delimiters), by simp [List.splitOnP_cons_eq_if_modifyHead, hb]⟩
      · exact ⟨tokens, by simp [List.splitOnP_cons_eq_if_modifyHead, hb, ih]⟩

theorem strsepTokens_clean {delimiters s : List Byte} (hs : ∀ b ∈ s, b ∉ delimiters) :
    strsepTokens delimiters s = [s] := by
  unfold strsepTokens
  rw [List.splitOnP_eq_singleton]
  simpa using hs

/-- Behind the URL no token changes the method or the URL. -/
theorem parseTokens_version (tokens : List (List Byte)) (request : HeaderRequest) :
    (parseTokens .version tokens request).method = request.method ∧
      (parseTokens .version tokens request).searchPath = request.searchPath := by
  match tokens with
  | [] => exact ⟨rfl, rfl⟩
  | [_] => exact ⟨rfl, rfl⟩
  | _ :: _ :: _ => exact ⟨rfl, rfl⟩

/-- A line without a delimiter is one token, which is the method at most. -/
theorem parseMethod_clean {version : Version} {line : List Byte}
    (hline : ∀ b ∈ cstr line, b ∉ lineDelimiters) :
    (parseMethod (requestInit version) line).searchPath = none := by
  change (parseTokens .method (strsepTokens lineDelimiters (cstr line)) _).searchPath = none
  rw [strsepTokens_clean hline, parseTokens]
  cases methods.find? (·.1 == cstr line) with
  | none => rfl
  | some found => rfl

/-- The method that `parse_method` finds for a token. -/
def methodOf (token : List Byte) : Option Method :=
  (methods.find? (·.1 == token)).map Prod.snd

theorem methodOf_eq_none_iff (token : List Byte) :
    methodOf token = none ↔ token ∉ methods.map Prod.fst := by
  unfold methodOf
  rw [Option.map_eq_none_iff, List.find?_eq_none, List.mem_map]
  constructor
  · rintro h ⟨entry, hmem, rfl⟩
    exact h entry hmem (by simp)
  · intro h entry hmem heq
    exact h ⟨entry, hmem, by simpa using heq⟩

/-- Only `GET` is parsed as `GET`. -/
theorem methodOf_eq_get_iff (token : List Byte) :
    methodOf token = some .get ↔ token = bytes "GET" := by
  constructor
  · intro h
    obtain ⟨found, hfound, hget⟩ := Option.map_eq_some_iff.mp h
    have hname : found.1 = token := by simpa using List.find?_some hfound
    have hall : ∀ entry ∈ methods, entry.2 = .get → entry.1 = bytes "GET" := by decide
    exact hname ▸ hall found (List.mem_of_find?_eq_some hfound) hget
  · rintro rfl
    decide

/-- A line with a space behind its first token. -/
theorem parseMethod_line {version : Version} {line token after : List Byte}
    (hline : cstr line = token ++ 32 :: after) (htoken : ∀ b ∈ token, b ∉ lineDelimiters) :
    (parseMethod (requestInit version) line).searchPath =
        (methodOf token).map (fun _ => after.takeWhile (· ∉ lineDelimiters)) ∧
      (parseMethod (requestInit version) line).method = (methodOf token).getD .unknown := by
  obtain ⟨tokens, hafter⟩ := strsepTokens_head lineDelimiters after
  have htokens : strsepTokens (bytes " \r\n") (cstr line) =
      token :: after.takeWhile (· ∉ lineDelimiters) :: tokens := by
    rw [hline, ← hafter]
    exact strsepTokens_cons htoken (by decide) after
  unfold parseMethod methodOf
  rw [htokens, parseTokens]
  cases methods.find? (·.1 == token) with
  | none => exact ⟨rfl, rfl⟩
  | some found =>
      obtain ⟨hmethod, hpath⟩ := parseTokens_version tokens
        ⟨found.2, version, some (after.takeWhile (· ∉ lineDelimiters)), []⟩
      exact ⟨hpath, hmethod⟩

/-! ### The target -/

/-- The second token is the whole target if no NUL and no end of the buffer stands in it. -/
theorem takeWhile_target_iff {target : List Byte} (rest : List Byte) {c : Byte} (n : Nat)
    (htarget : ∀ b ∈ target, b ∉ lineDelimiters) (hc : c ∈ lineDelimiters) :
    (cstr ((target ++ c :: rest).take n)).takeWhile (· ∉ lineDelimiters) = target ↔
      0 ∉ target ∧ target.length ≤ n := by
  constructor
  · intro h
    have hsublist := List.takeWhile_sublist (fun b => decide (b ∉ lineDelimiters))
      (l := cstr ((target ++ c :: rest).take n))
    rw [h] at hsublist
    constructor
    · intro hmem
      exact absurd (List.mem_takeWhile_imp (hsublist.subset hmem)) (by decide)
    · have hlength := hsublist.length_le
      have hcstr := (List.takeWhile_sublist (fun b : Byte => b != 0)
        (l := (target ++ c :: rest).take n)).length_le
      have htake := List.length_take_le n (target ++ c :: rest)
      unfold cstr at hlength
      omega
  · rintro ⟨hnul, hlength⟩
    have hsplit : cstr ((target ++ c :: rest).take n) =
        target ++ cstr ((c :: rest).take (n - target.length)) := by
      rw [List.take_append, List.take_of_length_le hlength]
      exact takeWhile_append_notMem hnul _
    have hempty : (cstr ((c :: rest).take (n - target.length))).takeWhile
        (· ∉ lineDelimiters) = [] := by
      cases n - target.length with
      | zero => rfl
      | succ k =>
          have hne : c ≠ 0 := by
            rintro rfl
            exact absurd hc (by decide)
          simp [cstr, hne, hc]
    rw [hsplit, List.takeWhile_append_of_pos (by simpa using htarget), hempty, List.append_nil]

/-! ### The answer -/

/-- `client_handler` behind the test of the method. -/
def lookUp (env : Env) (map : CacheMap) (request : Request) : Option Outcome :=
  match mapFindByUrl map request.searchPath with
  | some entry =>
      if entry.complete then some ⟨map, streamNodes env 0 entry.nodes⟩ else none
  | none => some (missPath env map request)

theorem clientHandler_eq (env : Env) (map : CacheMap) (request : Request) :
    clientHandler env map request =
      if request.method ≠ .get then some ⟨map, [.sendClient notAllowedText]⟩
      else lookUp env map request :=
  rfl

/-- Another method than `GET` is answered with `405`, without a connection and with the map as
it was; a `GET` is not, and is looked up under its target. -/
def MethodAnswered (version : Version) (client : Socket) (env : Env) (map : CacheMap)
    (token target : List Byte) : Prop :=
  (token ≠ bytes "GET" → ∃ request, serve version client env map =
    some (request, some ⟨map, [.sendClient notAllowedText]⟩)) ∧
  (token = bytes "GET" → ∃ request, serve version client env map =
    some (request, lookUp env map request) ∧ request.searchPath = target)

/-- `methods` names the token, and the target of a `GET` has no NUL in it and fits into the
buffer of `read_header` behind `GET` and the space. -/
def MethodNamed (token target : List Byte) : Prop :=
  token ∈ methods.map Prod.fst ∧
    (token = bytes "GET" → 0 ∉ target ∧ target.length + 4 ≤ lineBufferSize - 1)

instance (token target : List Byte) : Decidable (MethodNamed token target) :=
  inferInstanceAs (Decidable (_ ∧ (_ → _)))

section Serve

variable {version : Version} {client : Socket} {env : Env} {map : CacheMap}
  {token target : List Byte}

/-- The run of `client_handler` by what `parse_method` makes of the first line. -/
theorem serve_eq (hstream : client.bytes ≠ []) {parsed : HeaderRequest}
    (hparsed : parseMethod (requestInit version) (requestLine client.bytes) = parsed) :
    serve version client env map = parsed.searchPath.map fun path =>
      (⟨parsed.method, parsed.version, path,
          (headerPieces client.bytes).filterMap fun piece => metadataItem piece.line⟩,
        clientHandler env map ⟨parsed.method, parsed.version, path,
          (headerPieces client.bytes).filterMap fun piece => metadataItem piece.line⟩) := by
  subst hparsed
  unfold serve HeaderRequest.accepted
  rw [readHeader_spec, if_neg hstream, Option.bind_some, Option.map_map]
  rfl

theorem FirstLine.stream_ne_nil (h : FirstLine client.bytes token target) :
    client.bytes ≠ [] := by
  obtain ⟨rest, more, hstream, -, -⟩ := h.shape
  simp [hstream]

/-- The string in the buffer is cut inside the token, or goes on behind it. -/
theorem FirstLine.cstr_requestLine (h : FirstLine client.bytes token target) :
    ((∀ b ∈ cstr (Proxy.requestLine client.bytes), b ∉ lineDelimiters) ∧
        (0 ∈ token ∨ lineBufferSize - 1 ≤ token.length)) ∨
      ∃ c rest, c ∈ lineDelimiters ∧ cstr (Proxy.requestLine client.bytes) =
        token ++ 32 :: cstr ((target ++ c :: rest).take (lineBufferSize - 2 - token.length)) := by
  obtain ⟨c, rest, hc, hline⟩ := h.requestLine
  rw [hline]
  by_cases hlong : lineBufferSize - 1 ≤ token.length
  · refine .inl ⟨fun b hb => ?_, .inr hlong⟩
    rw [List.take_append_of_le_length hlong] at hb
    exact h.token_clean b (List.mem_of_mem_take ((List.takeWhile_sublist _).subset hb))
  · have hsize : lineBufferSize - 1 - token.length = lineBufferSize - 2 - token.length + 1 := by
      omega
    rw [List.take_append, List.take_of_length_le (by omega), hsize, List.take_succ_cons]
    by_cases hnul : 0 ∈ token
    · refine .inl ⟨fun b hb => ?_, .inl hnul⟩
      have hcut : cstr (token ++
          32 :: (target ++ c :: rest).take (lineBufferSize - 2 - token.length)) = cstr token := by
        obtain ⟨front, back, rfl⟩ := List.append_of_mem hnul
        unfold cstr
        simp [List.takeWhile_append]
      rw [hcut] at hb
      exact h.token_clean b ((List.takeWhile_sublist _).subset hb)
    · refine .inr ⟨c, rest, hc, ?_⟩
      unfold cstr
      rw [takeWhile_append_notMem hnul]
      rfl

/-- Closing the connection without an answer is none of the two. -/
theorem not_methodAnswered_of_none (h : serve version client env map = none) :
    ¬MethodAnswered version client env map token target := by
  rintro ⟨hother, hget⟩
  by_cases htoken : token = bytes "GET"
  · obtain ⟨request, hserve, -⟩ := hget htoken
    rw [h] at hserve
    cases hserve
  · obtain ⟨request, hserve⟩ := hother htoken
    rw [h] at hserve
    cases hserve

/-- A request that `client_handler` works on. -/
theorem methodAnswered_of_serve {request : Request}
    (hserve : serve version client env map = some (request, clientHandler env map request))
    (hget : request.method = .get ↔ token = bytes "GET") :
    MethodAnswered version client env map token target ↔
      (token = bytes "GET" → request.searchPath = target) := by
  rw [clientHandler_eq] at hserve
  unfold MethodAnswered
  by_cases htoken : token = bytes "GET"
  · rw [if_neg (by simp [hget.mpr htoken])] at hserve
    constructor
    · rintro ⟨-, hanswered⟩ -
      obtain ⟨request', hrun, hpath⟩ := hanswered htoken
      rw [hserve, Option.some.injEq, Prod.mk.injEq] at hrun
      rw [hrun.1]
      exact hpath
    · intro hpath
      exact ⟨fun hne => absurd htoken hne, fun _ => ⟨_, hserve, hpath htoken⟩⟩
  · rw [if_pos (fun heq => htoken (hget.mp heq))] at hserve
    exact iff_of_true ⟨fun _ => ⟨_, hserve⟩, fun heq => absurd heq htoken⟩
      fun heq => absurd heq htoken

/-- For every first line of this form, `client_handler` does with the method what it should if
and only if `methods` names the token, and a `GET` has a target that can be read as a whole. -/
theorem methodAnswered_iff (h : FirstLine client.bytes token target) :
    MethodAnswered version client env map token target ↔ MethodNamed token target := by
  have hshort : ∀ name ∈ methods.map Prod.fst, 0 ∉ name ∧ name.length < lineBufferSize - 1 := by
    decide
  generalize hparsed : parseMethod (requestInit version) (requestLine client.bytes) = parsed
  have hserve : serve version client env map = _ := serve_eq h.stream_ne_nil hparsed
  rcases h.cstr_requestLine with ⟨hclean, hcut⟩ | ⟨c, rest, hc, hline⟩
  · -- The buffer ends inside the token, which no name in `methods` reaches.
    rw [← hparsed, parseMethod_clean hclean] at hserve
    refine iff_of_false (not_methodAnswered_of_none hserve) ?_
    rintro ⟨hnamed, -⟩
    obtain ⟨hnul, hlength⟩ := hshort token hnamed
    rcases hcut with hcut | hcut
    · exact hnul hcut
    · omega
  · obtain ⟨hpath, hmethod⟩ : _ ∧ _ := parseMethod_line hline h.token_clean
    rw [hparsed] at hpath hmethod
    have hnone := methodOf_eq_none_iff token
    have hget := methodOf_eq_get_iff token
    rw [hpath, hmethod] at hserve
    cases hfound : methodOf token with
    | none =>
        rw [hfound] at hserve
        refine iff_of_false (not_methodAnswered_of_none hserve) ?_
        rintro ⟨hnamed, -⟩
        exact hnone.mp hfound hnamed
    | some method =>
        rw [hfound] at hserve hnone hget
        rw [Option.some.injEq] at hget
        have hnamed : token ∈ methods.map Prod.fst := by
          by_contra habsent
          cases hnone.mpr habsent
        rw [methodAnswered_of_serve hserve hget, MethodNamed, and_iff_right hnamed]
        apply forall_congr'
        intro htoken
        have hlength : token.length = 3 := by
          rw [htoken]
          rfl
        have hroom : target.length ≤ lineBufferSize - 2 - token.length ↔
            target.length + 4 ≤ lineBufferSize - 1 := by
          rw [hlength]
          change target.length ≤ 8187 ↔ target.length + 4 ≤ 8191
          omega
        rw [← hroom]
        exact takeWhile_target_iff rest _ h.target_clean hc

end Serve

/-- The stream of a client that sends a request line only. -/
def lineStream (line : String) : Socket :=
  ⟨bytes line ++ bytes "\r\n\r\n", []⟩

theorem firstLine_put : FirstLine (lineStream "PUT / HTTP/1.1").bytes (bytes "PUT") (bytes "/") where
  token_ne_nil := by decide
  token_clean := by decide +kernel
  target_clean := by decide +kernel
  shape := ⟨bytes " HTTP/1.1", bytes "\r\n", by decide +kernel, by decide, by decide +kernel⟩

theorem methodAnswered_put :
    MethodAnswered .invalid (lineStream "PUT / HTTP/1.1") (answering plainResponse) []
      (bytes "PUT") (bytes "/") :=
  (methodAnswered_iff firstLine_put).mpr (by decide)

/-- `PATCH` is a method that the table does not have: no answer at all. -/
theorem methodAnswered_patch_false :
    ¬∀ (version : Version) (client : Socket) (env : Env) (map : CacheMap)
      (token target : List Byte), FirstLine client.bytes token target →
        MethodAnswered version client env map token target := by
  intro h
  have hline : FirstLine (lineStream "PATCH / HTTP/1.1").bytes (bytes "PATCH") (bytes "/") :=
    { token_ne_nil := by decide
      token_clean := by decide +kernel
      target_clean := by decide +kernel
      shape := ⟨bytes " HTTP/1.1", bytes "\r\n", by decide +kernel, by decide, by decide +kernel⟩ }
  obtain ⟨request, hserve⟩ := (h .invalid (lineStream "PATCH / HTTP/1.1") (answering plainResponse)
    [] _ _ hline).1 (by decide)
  have hnone : serve .invalid (lineStream "PATCH / HTTP/1.1") (answering plainResponse) [] = none := by
    decide +kernel
  rw [hnone] at hserve
  cases hserve

end Proxy
end OperatingSystems
