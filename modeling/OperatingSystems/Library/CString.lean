import Mathlib.Data.List.TakeWhile
import Mathlib.Algebra.Ring.Int.Defs
import Mathlib.Algebra.Ring.Nat

/-!
# C strings and the standard functions on them

A `char` buffer is the list of its bytes.  The string stored in a buffer is
`cstr buffer`, the bytes before the first NUL; functions that take a string
receive that list.  A pointer into a string is the rest of the string from
there, and a null pointer is `none`.

`strsep` and `strtok_r` differ in what they do with delimiters side by side: `strsep` returns
an empty token between them, `strtok_r` skips them.

`atoi` and `atoll` follow the usual library: leading white space, one sign,
decimal digits; the value saturates at the range of a 64-bit `long` and `atoi`
keeps its low 32 bits.
-/

namespace OperatingSystems

/-- One `char`. -/
abbrev Byte := UInt8

/-- The bytes of a string literal. -/
def bytes (literal : String) : List Byte :=
  literal.toList.map fun c => UInt8.ofNat c.toNat

/-- The string stored in a buffer. -/
def cstr (buffer : List Byte) : List Byte :=
  buffer.takeWhile (· != 0)

/-- `strchr(s, c)` for a character other than NUL. -/
def strchr (s : List Byte) (c : Byte) : Option (List Byte) :=
  match s.dropWhile (· != c) with
  | [] => none
  | rest => some rest

/-- `strstr(s, needle)`. -/
def strstr (needle : List Byte) : List Byte → Option (List Byte)
  | [] => if needle = [] then some [] else none
  | b :: s => if needle <+: b :: s then some (b :: s) else strstr needle s

/-- The tokens that `strsep` cuts off one after the other, to the end of the string. -/
def strsepTokens (delimiters s : List Byte) : List (List Byte) :=
  s.splitOnP (· ∈ delimiters)

/-- `strtok_r` with one delimiter: the token, and what the save pointer points to then. -/
def strtok (s : List Byte) (c : Byte) : Option (List Byte × List Byte) :=
  match s.dropWhile (· == c) with
  | [] => none
  | b :: rest => some ((b :: rest).takeWhile (· != c), ((b :: rest).dropWhile (· != c)).drop 1)

/-- `strncmp(s, literal, strlen(literal)) == 0` for a literal without NUL. -/
def startsWith (literal s : List Byte) : Bool :=
  literal.isPrefixOf s

/-- `tolower` in the C locale. -/
def toLower (b : Byte) : Byte :=
  if 65 ≤ b ∧ b ≤ 90 then b + 32 else b

/-- `strcasecmp(a, b) == 0`. -/
def strcaseeq (a b : List Byte) : Bool :=
  a.map toLower == b.map toLower

/-- `strncasecmp(s, literal, strlen(literal)) == 0` for a literal without NUL. -/
def startsWithCase (literal s : List Byte) : Bool :=
  startsWith (literal.map toLower) (s.map toLower)

/-- `isspace` in the C locale. -/
def isSpace (b : Byte) : Bool :=
  b == 32 || (9 ≤ b && b ≤ 13)

/-- The value of the leading decimal digits, continuing from `value`. -/
def decimal (value : Nat) : List Byte → Nat
  | [] => value
  | b :: s =>
      if 48 ≤ b ∧ b ≤ 57 then decimal (10 * value + (b.toNat - 48)) s else value

/-- Saturation at the range of a 64-bit signed integer. -/
def saturate64 (n : Int) : Int :=
  max (-2 ^ 63) (min n (2 ^ 63 - 1))

/-- Conversion to a 32-bit `int`: the low 32 bits. -/
def toInt32 (n : Int) : Int :=
  n.bmod (2 ^ 32)

/-- `atoll(s)`. -/
def atoll (s : List Byte) : Int :=
  match s.dropWhile isSpace with
  | [] => 0
  | b :: rest =>
      if b = 45 then saturate64 (-(decimal 0 rest))
      else if b = 43 then saturate64 (decimal 0 rest)
      else saturate64 (decimal 0 (b :: rest))

/-- `atoi(s)`. -/
def atoi (s : List Byte) : Int :=
  toInt32 (atoll s)

theorem cstr_of_notMem {buffer : List Byte} (h : 0 ∉ buffer) : cstr buffer = buffer := by
  refine List.takeWhile_eq_self_iff.mpr fun b hb => ?_
  simp only [bne_iff_ne, ne_eq]
  rintro rfl
  exact h hb

/-- A scan for a byte that does not occur in front goes on behind it. -/
theorem takeWhile_append_notMem {s : List Byte} {c : Byte} (h : c ∉ s) (rest : List Byte) :
    (s ++ rest).takeWhile (· != c) = s ++ rest.takeWhile (· != c) := by
  refine List.takeWhile_append_of_pos fun b hb => ?_
  simp only [bne_iff_ne, ne_eq]
  rintro rfl
  exact h hb

theorem strsepTokens_cons {delimiters token : List Byte} {c : Byte}
    (htoken : ∀ b ∈ token, b ∉ delimiters) (hc : c ∈ delimiters) (rest : List Byte) :
    strsepTokens delimiters (token ++ c :: rest) = token :: strsepTokens delimiters rest :=
  List.splitOnP_append_cons_of_forall_mem (by simpa using htoken) c (by simpa using hc) rest

/-- No token contains a delimiter. -/
theorem notMem_of_mem_strsepTokens {delimiters s token : List Byte}
    (htoken : token ∈ strsepTokens delimiters s) {b : Byte} (hb : b ∈ token) : b ∉ delimiters := by
  unfold strsepTokens at htoken
  induction s generalizing token with
  | nil =>
      rw [List.splitOnP_nil, List.mem_singleton] at htoken
      simp [htoken] at hb
  | cons a s ih =>
      rw [List.splitOnP_cons_eq_if_modifyHead] at htoken
      split at htoken
      · rcases List.mem_cons.mp htoken with rfl | htoken
        · cases hb
        · exact ih htoken hb
      · next ha =>
        obtain ⟨first, rest, heq⟩ := List.exists_cons_of_ne_nil
          (List.splitOnP_ne_nil (fun b => decide (b ∈ delimiters)) s)
        rw [heq, List.modifyHead_cons] at htoken
        rcases List.mem_cons.mp htoken with rfl | htoken
        · rcases List.mem_cons.mp hb with rfl | hb
          · simpa using ha
          · exact ih (heq ▸ List.mem_cons_self) hb
        · exact ih (heq ▸ List.mem_cons_of_mem _ htoken) hb

/-- A token that does not start with the delimiter is cut off at the first one. -/
theorem strtok_append {token : List Byte} {c : Byte} (hne : token ≠ []) (htoken : c ∉ token)
    (rest : List Byte) : strtok (token ++ c :: rest) c = some (token, rest) := by
  have hmem : ∀ b ∈ token, b ≠ c := fun b hb h => htoken (h ▸ hb)
  obtain ⟨a, token, rfl⟩ := List.exists_cons_of_ne_nil hne
  have hskip : (a :: token ++ c :: rest).dropWhile (· == c) = a :: token ++ c :: rest :=
    List.dropWhile_cons_of_neg (by simpa using hmem a List.mem_cons_self)
  have htake : (a :: token ++ c :: rest).takeWhile (· != c) = a :: token := by
    rw [List.takeWhile_append_of_pos (by simpa using hmem)]
    simp
  have hdrop : (a :: token ++ c :: rest).dropWhile (· != c) = c :: rest := by
    rw [List.dropWhile_append_of_pos (by simpa using hmem)]
    simp
  unfold strtok
  rw [hskip]
  simp only [List.cons_append] at htake hdrop ⊢
  rw [htake, hdrop]
  rfl

theorem toInt32_of_range {n : Int} (hlow : -2 ^ 31 ≤ n) (hhigh : n < 2 ^ 31) :
    toInt32 n = n := by
  unfold toInt32
  rw [Int.bmod_eq_of_le] <;> omega

end OperatingSystems
