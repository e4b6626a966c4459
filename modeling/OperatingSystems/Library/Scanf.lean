import OperatingSystems.Library.CString

/-!
# `sscanf` and `fgets`

A format is a list of directives.  `sscanf` carries them out one after the other and stops at the
first that does not match; it returns the values that were assigned, so their number is the result
of the C function (which also tells the end of the input from a mismatch, by -1, when there are
none).

* `sscanf_number`, `sscanf_word`, `sscanf_upTo` — one conversion on a text that has what it asks
  for.
* `fgets_append`, `fgets_ne_nil` — what `fgets` takes from a file.
* `fgets_line`, `fgets_full` — a line that fits into the buffer, and one that fills it.
* `cstr_strncpy` — when a `strncpy` leaves the string it was given.
-/

namespace OperatingSystems

/-! ### Numbers -/

/-- The value of a hexadecimal digit. -/
def digitValue (b : Byte) : Option Nat :=
  if 48 ≤ b ∧ b ≤ 57 then some (b.toNat - 48)
  else if 97 ≤ b ∧ b ≤ 102 then some (b.toNat - 87)
  else if 65 ≤ b ∧ b ≤ 70 then some (b.toNat - 55)
  else none

def isDigitOf (base : Nat) (b : Byte) : Bool :=
  (digitValue b).any (· < base)

/-- The number that digits are written for. -/
def numberOf (base : Nat) (digits : List Byte) : Nat :=
  digits.foldl (fun value b => base * value + (digitValue b).getD 0) 0

/-- `0x` in front of a hexadecimal number. -/
def skipPrefix (base : Nat) : List Byte → List Byte
  | 48 :: x :: s => if base = 16 ∧ (x = 120 ∨ x = 88) then s else 48 :: x :: s
  | s => s

/-- `ULONG_MAX` -/
def ulongMax : Nat := 2 ^ 64 - 1

/-- The digits behind the sign, and the rest. -/
def digitsOf (base : Nat) (s : List Byte) : Option (Nat × List Byte) :=
  let digits := (skipPrefix base s).takeWhile (isDigitOf base)
  if digits = [] then none
  else some (numberOf base digits, (skipPrefix base s).dropWhile (isDigitOf base))

/-- `strtoul`: a sign, and digits; a number that is too large saturates. -/
def strtoul (base : Nat) : List Byte → Option (Nat × List Byte)
  | 45 :: s => (digitsOf base s).map fun r =>
      (if ulongMax < r.1 then ulongMax else (2 ^ 64 - r.1) % 2 ^ 64, r.2)
  | 43 :: s => (digitsOf base s).map fun r => (min r.1 ulongMax, r.2)
  | s => (digitsOf base s).map fun r => (min r.1 ulongMax, r.2)

/-- `strtol`: white space, a sign, and digits; a number that is too large saturates. -/
def strtol (base : Nat) (s : List Byte) : Int :=
  let value (s : List Byte) : Int := ((digitsOf base s).map Prod.fst).getD 0
  match s.dropWhile isSpace with
  | 45 :: s => saturate64 (-value s)
  | 43 :: s => saturate64 (value s)
  | s => saturate64 (value s)

/-! ### Formats -/

/-- White space, a byte of the format, and the conversions `%lx` and `%lu`, `%<width>s`, and
`%<width>[^c]`. -/
inductive Directive
  | space
  | literal (b : Byte)
  | number (base : Nat)
  | word (width : Nat)
  | upTo (stop : Byte) (width : Nat)

inductive Value
  | number (n : Nat)
  | text (s : List Byte)
  deriving DecidableEq

def sscanf : List Directive → List Byte → List Value
  | [], _ => []
  | .space :: format, s => sscanf format (s.dropWhile isSpace)
  | .literal b :: format, s =>
      match s with
      | [] => []
      | c :: s => if c = b then sscanf format s else []
  | .number base :: format, s =>
      match strtoul base (s.dropWhile isSpace) with
      | none => []
      | some (n, s) => .number n :: sscanf format s
  | .word width :: format, s =>
      let word := ((s.dropWhile isSpace).takeWhile fun b => !isSpace b).take width
      if word = [] then []
      else .text word :: sscanf format ((s.dropWhile isSpace).drop word.length)
  | .upTo stop width :: format, s =>
      let text := (s.takeWhile (· != stop)).take width
      if text = [] then [] else .text text :: sscanf format (s.drop text.length)

/-! ### Digits -/

/-- A digit is none of the bytes with which anything else starts. -/
theorem ne_of_isDigitOf {base : Nat} {b : Byte} (hb : isDigitOf base b = true) :
    isSpace b = false ∧ b ≠ 45 ∧ b ≠ 43 ∧ b ≠ 0 := by
  have hvalue : (48 ≤ b.toNat ∧ b.toNat ≤ 57) ∨ (97 ≤ b.toNat ∧ b.toNat ≤ 102) ∨
      (65 ≤ b.toNat ∧ b.toNat ≤ 70) := by
    simp only [isDigitOf, digitValue, UInt8.le_iff_toNat_le] at hb
    split_ifs at hb with hdecimal hlower hupper
    · exact Or.inl hdecimal
    · exact Or.inr (Or.inl hlower)
    · exact Or.inr (Or.inr hupper)
    · simp at hb
  have hspace : isSpace b = false := by
    simp only [isSpace, Bool.or_eq_false_iff, beq_eq_false_iff_ne, ne_eq, Bool.and_eq_false_iff,
      decide_eq_false_iff_not, UInt8.le_iff_toNat_le, ← UInt8.toNat_inj]
    have : (32 : UInt8).toNat = 32 ∧ (9 : UInt8).toNat = 9 ∧ (13 : UInt8).toNat = 13 := by decide
    omega
  refine ⟨hspace, ?_, ?_, ?_⟩ <;> · rintro rfl; revert hvalue; decide

theorem isDigitOf_sixteen_of_ten {b : Byte} (hb : isDigitOf 10 b = true) :
    isDigitOf 16 b = true := by
  simp only [isDigitOf, Option.any_eq_true_iff_get, decide_eq_true_eq] at hb ⊢
  obtain ⟨hsome, hlt⟩ := hb
  exact ⟨hsome, by omega⟩

/-! ### Scans -/

/-- A scan stops behind `s` when the rest does not go on with what it looks for. -/
theorem takeWhile_span {p : Byte → Bool} {s rest : List Byte} (hs : ∀ b ∈ s, p b = true)
    (hrest : ∀ b ∈ rest.head?, p b = false) : (s ++ rest).takeWhile p = s := by
  rw [List.takeWhile_append_of_pos hs]
  cases rest with
  | nil => rw [List.takeWhile_nil, List.append_nil]
  | cons b rest => rw [List.takeWhile_cons_of_neg (by simp [hrest b rfl]), List.append_nil]

theorem dropWhile_span {p : Byte → Bool} {s rest : List Byte} (hs : ∀ b ∈ s, p b = true)
    (hrest : ∀ b ∈ rest.head?, p b = false) : (s ++ rest).dropWhile p = rest := by
  rw [List.dropWhile_append_of_pos hs]
  cases rest with
  | nil => rfl
  | cons b rest => rw [List.dropWhile_cons_of_neg (by simp [hrest b rfl])]

/-- Where a scan has stopped it does not go on, not even at the end of what it went through. -/
theorem head_dropWhile_append (p : Byte → Bool) (s : List Byte) {rest : List Byte}
    (hrest : ∀ b ∈ rest.head?, p b = false) : ∀ b ∈ (s.dropWhile p ++ rest).head?, p b = false := by
  intro b hb
  rw [List.head?_append] at hb
  have hstop := List.head?_dropWhile_not p s
  cases hleft : (s.dropWhile p).head? with
  | none =>
      rw [hleft] at hb
      exact hrest b hb
  | some c =>
      rw [hleft] at hb hstop
      obtain rfl : c = b := Option.some.inj hb
      exact hstop

/-- Blanks are skipped. -/
theorem dropWhile_blanks (n : Nat) {s : List Byte} (hs : ∀ b ∈ s.head?, isSpace b = false) :
    (List.replicate n 32 ++ s).dropWhile isSpace = s :=
  dropWhile_span (fun b hb => by rw [List.eq_of_mem_replicate hb]; rfl) hs

theorem skipPrefix_ten (s : List Byte) : skipPrefix 10 s = s := by
  fun_cases skipPrefix 10 s <;> simp_all

/-- Hexadecimal digits are no prefix, whatever comes behind them but an `x`. -/
theorem skipPrefix_digits {digits rest : List Byte}
    (hdigits : ∀ b ∈ digits, isDigitOf 16 b = true) (hne : digits ≠ [])
    (hrest : ∀ b ∈ rest.head?, b ≠ 120 ∧ b ≠ 88) :
    skipPrefix 16 (digits ++ rest) = digits ++ rest := by
  have hsecond : ∀ x s, digits ++ rest = 48 :: x :: s → x ≠ 120 ∧ x ≠ 88 := by
    intro x s heq
    match digits, hne with
    | [_], _ =>
        obtain ⟨-, rfl⟩ := List.cons.inj heq
        exact hrest x rfl
    | _ :: y :: _, _ =>
        have hy : y = x := (List.cons.inj (List.cons.inj heq).2).1
        have hdigit := hdigits x (by simp [hy])
        constructor <;> · rintro rfl; revert hdigit; decide
  generalize digits ++ rest = s at hsecond
  fun_cases skipPrefix 16 s with
  | case1 x s hx => exact absurd hx.2 (by simp [hsecond x s rfl])
  | case2 x s hx => rfl
  | case3 s hs => rfl

/-! ### One directive -/

/-- White space skips blanks, if there are any. -/
theorem sscanf_space (n : Nat) {s : List Byte} (hs : ∀ b ∈ s.head?, isSpace b = false)
    (format : List Directive) :
    sscanf (.space :: format) (List.replicate n 32 ++ s) = sscanf format s := by
  rw [sscanf, dropWhile_blanks n hs]

/-- Digits are read as far as they go. -/
theorem sscanf_number {base : Nat} {digits rest : List Byte} (format : List Directive)
    (hne : digits ≠ []) (hdigits : ∀ b ∈ digits, isDigitOf base b = true)
    (hrest : ∀ b ∈ rest.head?, isDigitOf base b = false)
    (hskip : skipPrefix base (digits ++ rest) = digits ++ rest) :
    sscanf (.number base :: format) (digits ++ rest) =
      .number (min (numberOf base digits) ulongMax) :: sscanf format rest := by
  have hread : digitsOf base (digits ++ rest) = some (numberOf base digits, rest) := by
    rw [digitsOf, hskip, takeWhile_span hdigits hrest, dropWhile_span hdigits hrest, if_neg hne]
  obtain ⟨b, digits, rfl⟩ := List.exists_cons_of_ne_nil hne
  obtain ⟨hspace, hminus, hplus, -⟩ := ne_of_isDigitOf (hdigits b (by simp))
  have hblank : (b :: digits ++ rest).dropWhile isSpace = b :: digits ++ rest :=
    List.dropWhile_cons_of_neg (by simp [hspace])
  have hnumber : strtoul base (b :: digits ++ rest) =
      some (min (numberOf base (b :: digits)) ulongMax, rest) := by
    rw [List.cons_append, strtoul.eq_3 _ _ (by simp_all) (by simp_all), ← List.cons_append, hread]
    rfl
  rw [sscanf, hblank, hnumber]

/-- A number that is asked for and does not come ends the reading. -/
theorem sscanf_number_none {b : Byte} {s : List Byte} (format : List Directive)
    (hspace : isSpace b = false) (hsign : b ≠ 45 ∧ b ≠ 43) (hdigit : isDigitOf 10 b = false) :
    sscanf (.number 10 :: format) (b :: s) = [] := by
  have hnone : strtoul 10 (b :: s) = none := by
    rw [strtoul.eq_3 _ _ (by simp_all) (by simp_all), digitsOf, skipPrefix_ten,
      List.takeWhile_cons_of_neg (by simp [hdigit]), if_pos rfl]
    rfl
  rw [sscanf, List.dropWhile_cons_of_neg (by simp [hspace]), hnone]

/-- A word is read to its end, or to the width of the conversion. -/
theorem sscanf_word {width : Nat} {word rest : List Byte} (format : List Directive)
    (hne : word ≠ []) (hword : ∀ b ∈ word, isSpace b = false) (hwidth : word.length ≤ width)
    (hrest : word.length = width ∨ ∀ b ∈ rest.head?, isSpace b = true) :
    sscanf (.word width :: format) (word ++ rest) = .text word :: sscanf format rest := by
  have hblank : (word ++ rest).dropWhile isSpace = word ++ rest := by
    obtain ⟨b, word, rfl⟩ := List.exists_cons_of_ne_nil hne
    exact List.dropWhile_cons_of_neg (by simp [hword b (by simp)])
  have hread : ((word ++ rest).takeWhile fun b => !isSpace b).take width = word := by
    rcases hrest with hfull | hspace
    · rw [List.takeWhile_append_of_pos (by simpa using hword),
        List.take_append_of_le_length (by omega), List.take_of_length_le (by omega)]
    · rw [takeWhile_span (by simpa using hword) (by simpa using hspace),
        List.take_of_length_le hwidth]
  rw [sscanf, hblank]
  simp only [hread, if_neg hne, List.drop_left]

/-- Text is read up to the byte that ends it, or to the width of the conversion. -/
theorem sscanf_upTo {stop : Byte} {width : Nat} {text rest : List Byte} (hne : text ≠ [])
    (hwidth : width ≠ 0) (htext : stop ∉ text) (hrest : ∀ b ∈ rest.head?, b = stop) :
    sscanf [.upTo stop width] (text ++ rest) = [.text (text.take width)] := by
  have hread : (text ++ rest).takeWhile (· != stop) = text := by
    refine takeWhile_span (fun b hb => ?_) (fun b hb => by simp [hrest b hb])
    simp only [bne_iff_ne, ne_eq]
    rintro rfl
    exact htext hb
  have hsome : text.take width ≠ [] := by simp [hne, hwidth]
  simp only [sscanf, hread, if_neg hsome]

/-! ### Lines -/

/-- The bytes up to the first newline, and the newline. -/
def upToNewline : List Byte → List Byte
  | [] => []
  | b :: s => if b = 10 then [b] else b :: upToNewline s

/-- `fgets(line, size, file)`: the line, and what is left of the file. -/
def fgets (size : Nat) (file : List Byte) : Option (List Byte × List Byte) :=
  if file = [] then none
  else
    let line := upToNewline (file.take (size - 1))
    some (line, file.drop line.length)

theorem upToNewline_append {text : List Byte} (htext : 10 ∉ text) (rest : List Byte) :
    upToNewline (text ++ rest) = text ++ upToNewline rest := by
  induction text with
  | nil => rfl
  | cons b text ih =>
      obtain ⟨hb, htext⟩ := not_or.mp (mt List.mem_cons.mpr htext)
      rw [List.cons_append, upToNewline, if_neg (Ne.symm hb), ih htext, List.cons_append]

theorem upToNewline_isPrefix (s : List Byte) : upToNewline s <+: s := by
  induction s with
  | nil => exact List.prefix_rfl
  | cons b s ih =>
      rw [upToNewline]
      split
      · exact (List.prefix_cons_inj b).mpr List.nil_prefix
      · exact (List.prefix_cons_inj b).mpr ih

/-- A line and the rest behind it are what the file was. -/
theorem fgets_append {size : Nat} {file line rest : List Byte}
    (h : fgets size file = some (line, rest)) : line ++ rest = file := by
  obtain ⟨-, h⟩ := Option.ite_none_left_eq_some.mp h
  obtain ⟨rfl, rfl⟩ := Prod.mk.inj (Option.some.inj h)
  have hprefix := (upToNewline_isPrefix (file.take (size - 1))).trans (List.take_prefix _ _)
  conv_rhs => rw [← List.prefix_iff_eq_append.mp hprefix]

/-- A buffer with room for a byte gets at least one. -/
theorem fgets_ne_nil {size : Nat} (hsize : 1 < size) {file line rest : List Byte}
    (h : fgets size file = some (line, rest)) : line ≠ [] := by
  obtain ⟨hne, h⟩ := Option.ite_none_left_eq_some.mp h
  obtain ⟨rfl, -⟩ := Prod.mk.inj (Option.some.inj h)
  cases file with
  | nil => exact absurd rfl hne
  | cons b file =>
      rw [show size - 1 = size - 2 + 1 by omega, List.take_succ_cons, upToNewline]
      split <;> simp

theorem fgets_eq_none_iff {size : Nat} {file : List Byte} :
    fgets size file = none ↔ file = [] := by
  simp [fgets]

/-- A line that fits is read with its newline. -/
theorem fgets_line {size : Nat} {text : List Byte} (htext : 10 ∉ text)
    (hsize : text.length + 1 < size) (rest : List Byte) :
    fgets size (text ++ 10 :: rest) = some (text ++ [10], rest) := by
  have htake : (text ++ 10 :: rest).take (size - 1) =
      text ++ 10 :: rest.take (size - 2 - text.length) := by
    rw [List.take_append, List.take_of_length_le (by omega),
      show size - 1 - text.length = size - 2 - text.length + 1 by omega, List.take_succ_cons]
  have hline : upToNewline ((text ++ 10 :: rest).take (size - 1)) = text ++ [10] := by
    rw [htake, upToNewline_append htext, upToNewline, if_pos rfl]
  have hdrop : (text ++ 10 :: rest).drop (text ++ [10]).length = rest := by
    rw [show text ++ 10 :: rest = text ++ [10] ++ rest by simp, List.drop_left]
  simp only [fgets, hline, hdrop, List.append_eq_nil_iff, reduceCtorEq, and_false, if_false]

/-- A line that leaves no room for its newline is read without it. -/
theorem fgets_full {size : Nat} {text : List Byte} (htext : 10 ∉ text)
    (hsize : text.length + 1 = size) (rest : List Byte) :
    fgets size (text ++ 10 :: rest) = some (text, 10 :: rest) := by
  have hline : upToNewline ((text ++ 10 :: rest).take (size - 1)) = text := by
    rw [List.take_append_of_le_length (by omega), List.take_of_length_le (by omega)]
    simpa [upToNewline] using upToNewline_append htext []
  simp only [fgets, hline, List.drop_left, List.append_eq_nil_iff, reduceCtorEq, and_false,
    if_false]

/-! ### `strncpy` -/

/-- `strncpy(dest, s, n)` for a buffer of at least `n` bytes. -/
def strncpy (dest s : List Byte) (n : Nat) : List Byte :=
  (s ++ List.replicate n 0).take n ++ dest.drop n

theorem length_strncpy {dest s : List Byte} {n : Nat} (h : n ≤ dest.length) :
    (strncpy dest s n).length = dest.length := by
  simp only [strncpy, List.length_append, List.length_take, List.length_replicate,
    List.length_drop]
  omega

theorem cstr_append_nul {s : List Byte} (hs : 0 ∉ s) (rest : List Byte) :
    cstr (s ++ 0 :: rest) = s := by
  rw [cstr, takeWhile_append_notMem hs, List.takeWhile_cons_of_neg (by decide), List.append_nil]

/-- A `strncpy` that fills all but the last byte of a buffer leaves a string there only if that
byte is the NUL. -/
theorem cstr_strncpy {dest s shown : List Byte} {n : Nat} (hdest : dest.length = n + 1)
    (hs : 0 ∉ s) (hlength : s.length ≤ n) (hshown : shown.length ≤ n) :
    cstr (strncpy dest s n) = shown ↔ s = shown ∧ (s.length = n → dest[n]? = some 0) := by
  have hlast : dest.drop n = [dest[n]] := by
    rw [List.drop_eq_getElem_cons (by omega), List.drop_of_length_le (by omega)]
  have hcopy : strncpy dest s n = s ++ (List.replicate (n - s.length) 0 ++ [dest[n]]) := by
    rw [strncpy, List.take_append, List.take_of_length_le hlength, List.take_replicate,
      Nat.min_eq_left (by omega), hlast, List.append_assoc]
  rw [hcopy, List.getElem?_eq_getElem (by omega), Option.some.injEq]
  rcases Nat.lt_or_eq_of_le hlength with hlt | heq
  · have hpad : List.replicate (n - s.length) (0 : Byte) ++ [dest[n]] =
        0 :: (List.replicate (n - s.length - 1) 0 ++ [dest[n]]) := by
      rw [show n - s.length = n - s.length - 1 + 1 by omega, List.replicate_succ]
      rfl
    rw [hpad, cstr_append_nul hs]
    exact ⟨fun h => ⟨h, fun hfull => absurd hfull (by omega)⟩, fun h => h.1⟩
  · rw [heq, Nat.sub_self, List.replicate_zero, List.nil_append]
    rcases eq_or_ne dest[n] 0 with hzero | hother
    · rw [hzero, cstr_append_nul hs]
      exact ⟨fun h => ⟨h, fun _ => rfl⟩, fun h => h.1⟩
    · rw [cstr, takeWhile_append_notMem hs, List.takeWhile_cons_of_pos (by simpa using hother)]
      constructor
      · intro h
        rw [← h, List.length_append, List.length_cons] at hshown
        omega
      · rintro ⟨-, h⟩
        exact absurd (h rfl) hother

end OperatingSystems
