import Mathlib.Data.Nat.Digits.Defs
import OperatingSystems.Library.Scanf

/-!
# `printf`

The conversions of numbers, and how what they print is read again.

* `numberOf_printNumber`, `isDigitOf_printNumber` — a printed number is written with digits and has
  its value.
* `sscanf_readText`, `sscanf_literals` — the text of a format is read over.
* `sscanf_prefixed` — a hexadecimal number behind `0x`.
-/

namespace OperatingSystems

/-! ### Printing -/

/-- The digits above nine are printed in lower case. -/
def digitByte (d : Nat) : Byte :=
  UInt8.ofNat (if d < 10 then 48 + d else 87 + d)

/-- `%d` and `%lu` of a number that is not negative, and `%lx`. -/
def printNumber (base n : Nat) : List Byte :=
  if n = 0 then [48] else (Nat.digits base n).reverse.map digitByte

/-- `%ld` -/
def printSigned : Int → List Byte
  | .ofNat n => printNumber 10 n
  | .negSucc n => 45 :: printNumber 10 (n + 1)

/-- The flag `0` with this width. -/
def padZeros (width : Nat) (text : List Byte) : List Byte :=
  List.replicate (width - text.length) 48 ++ text

/-- The flag `-` with this width. -/
def padBlanks (width : Nat) (text : List Byte) : List Byte :=
  text ++ List.replicate (width - text.length) 32

theorem digitValue_digitByte : ∀ d < 16, digitValue (digitByte d) = some d := by
  decide

theorem isDigitOf_digitByte {base d : Nat} (hd : d < base) (hbase : base ≤ 16) :
    isDigitOf base (digitByte d) = true := by
  simp [isDigitOf, digitValue_digitByte d (by omega), hd]

theorem isDigitOf_printNumber {base : Nat} (hone : 1 < base) (hbase : base ≤ 16) (n : Nat) :
    ∀ b ∈ printNumber base n, isDigitOf base b = true := by
  rw [printNumber]
  split
  · rw [List.forall_mem_singleton]
    exact isDigitOf_digitByte (d := 0) (by omega) hbase
  · rintro b hb
    obtain ⟨d, hd, rfl⟩ := List.mem_map.mp hb
    exact isDigitOf_digitByte (Nat.digits_lt_base hone (List.mem_reverse.mp hd)) hbase

theorem printNumber_ne_nil (base n : Nat) : printNumber base n ≠ [] := by
  rw [printNumber]
  split
  · exact List.cons_ne_nil _ _
  · simpa [Nat.digits_ne_nil_iff_ne_zero]

/-- The bytes of digits have the value of the digits. -/
theorem numberOf_digitBytes {base : Nat} (hbase : base ≤ 16) (digits : List Nat)
    (hdigits : ∀ d ∈ digits, d < base) :
    numberOf base (digits.reverse.map digitByte) = Nat.ofDigits base digits := by
  rw [numberOf]
  induction digits with
  | nil => rfl
  | cons d digits ih =>
      obtain ⟨hd, hdigits⟩ := List.forall_mem_cons.mp hdigits
      rw [List.reverse_cons, List.map_append, List.foldl_append, ih hdigits, Nat.ofDigits_cons,
        List.map_singleton, List.foldl_cons, List.foldl_nil, digitValue_digitByte d (by omega),
        Option.getD_some, Nat.add_comm]

theorem numberOf_printNumber {base : Nat} (hone : 1 < base) (hbase : base ≤ 16) (n : Nat) :
    numberOf base (printNumber base n) = n := by
  rw [printNumber]
  split
  case isTrue hzero =>
      rw [hzero]
      rfl
  case isFalse =>
      rw [numberOf_digitBytes hbase _ fun d hd => Nat.digits_lt_base hone hd, Nat.ofDigits_digits]

/-- Zeros in front do not count. -/
theorem numberOf_padZeros (base width : Nat) (text : List Byte) :
    numberOf base (padZeros width text) = numberOf base text := by
  have hzeros (n : Nat) : (List.replicate n (48 : Byte)).foldl
      (fun value b => base * value + (digitValue b).getD 0) 0 = 0 := by
    induction n with
    | zero => rfl
    | succ n ih =>
        rw [List.replicate_succ', List.foldl_append, ih]
        rfl
  rw [numberOf, padZeros, List.foldl_append, hzeros, numberOf]

theorem isDigitOf_padZeros {base : Nat} (hbase : 0 < base) (width : Nat) {text : List Byte}
    (h : ∀ b ∈ text, isDigitOf base b = true) :
    ∀ b ∈ padZeros width text, isDigitOf base b = true := by
  rintro b hb
  rcases List.mem_append.mp hb with hzero | htext
  · rw [List.eq_of_mem_replicate hzero]
    simpa [isDigitOf, digitValue] using hbase
  · exact h b htext

/-! ### Reading it again -/

/-- A format that is text. -/
def literals (text : List Byte) : List Directive :=
  text.map fun b => if isSpace b then .space else .literal b

/-- What is left behind a text that a format reads over. -/
def readText : List Byte → List Byte → Option (List Byte)
  | [], s => some s
  | b :: text, s =>
      if isSpace b then readText text (s.dropWhile isSpace)
      else if s.head? = some b then readText text s.tail
      else none

theorem sscanf_readText (text : List Byte) (format : List Directive) (s : List Byte) :
    sscanf (literals text ++ format) s = ((readText text s).map (sscanf format)).getD [] := by
  induction text generalizing s with
  | nil => rfl
  | cons b text ih =>
      rw [literals, List.map_cons, List.cons_append, readText]
      by_cases hb : isSpace b = true
      · rw [if_pos hb, if_pos hb, sscanf]
        exact ih _
      · rw [if_neg hb, if_neg hb]
        cases s with
        | nil => rfl
        | cons c s =>
            rw [sscanf, List.head?_cons, List.tail_cons]
            by_cases hc : c = b
            · rw [if_pos hc, if_pos (congrArg some hc)]
              exact ih s
            · rw [if_neg hc, if_neg (mt Option.some.inj hc)]
              rfl

/-- A text without white space is read as it stands. -/
theorem readText_eq_some_iff {text s rest : List Byte} (htext : ∀ b ∈ text, isSpace b = false) :
    readText text s = some rest ↔ s = text ++ rest := by
  induction text generalizing s with
  | nil => simp [readText]
  | cons b text ih =>
      obtain ⟨hb, htext⟩ := List.forall_mem_cons.mp htext
      rw [readText, if_neg (by simp [hb])]
      cases s with
      | nil => simp
      | cons c s =>
          by_cases hc : c = b
          · simp [hc, ih htext]
          · simp [hc]

theorem readText_append (first second s : List Byte) :
    readText (first ++ second) s = (readText first s).bind (readText second) := by
  induction first generalizing s with
  | nil => rfl
  | cons b first ih =>
      rw [List.cons_append, readText, readText]
      by_cases hb : isSpace b = true
      · rw [if_pos hb, if_pos hb, ih]
      · rw [if_neg hb, if_neg hb]
        by_cases hhead : s.head? = some b
        · rw [if_pos hhead, if_pos hhead, ih]
        · rw [if_neg hhead, if_neg hhead, Option.bind_none]

/-- White space stands alone. -/
def spaced : List Byte → Bool
  | b :: c :: text => !(isSpace b && isSpace c) && spaced (c :: text)
  | _ => true

/-- A format that is text reads this text. -/
theorem sscanf_literals {text rest : List Byte} (format : List Directive)
    (hspaced : spaced text = true) (hrest : ∀ b ∈ rest.head?, isSpace b = false) :
    sscanf (literals text ++ format) (text ++ rest) = sscanf format rest := by
  induction text with
  | nil => rfl
  | cons b text ih =>
      have htail : spaced text = true := by
        cases text with
        | nil => rfl
        | cons c text => exact (Bool.and_eq_true_iff.mp hspaced).2
      rw [literals, List.map_cons, List.cons_append, List.cons_append]
      by_cases hb : isSpace b = true
      · have hnext : ∀ c ∈ (text ++ rest).head?, isSpace c = false := by
          cases text with
          | nil => exact hrest
          | cons c text =>
              rintro _ ⟨rfl⟩
              simpa [spaced, hb] using (Bool.and_eq_true_iff.mp hspaced).1
        have hskip : (text ++ rest).dropWhile isSpace = text ++ rest := by
          cases hcases : text ++ rest with
          | nil => rfl
          | cons c s =>
              exact List.dropWhile_cons_of_neg (by simp [hnext c (by simp [hcases])])
        rw [if_pos hb, sscanf, List.dropWhile_cons_of_pos hb, hskip]
        exact ih htail
      · rw [if_neg hb, sscanf, if_pos rfl]
        exact ih htail

/-- A hexadecimal number behind `0x`. -/
theorem sscanf_prefixed {digits rest : List Byte} (format : List Directive) (hne : digits ≠ [])
    (hdigits : ∀ b ∈ digits, isDigitOf 16 b = true)
    (hrest : ∀ b ∈ rest.head?, isDigitOf 16 b = false) :
    sscanf (.number 16 :: format) (48 :: 120 :: (digits ++ rest)) =
      .number (min (numberOf 16 digits) ulongMax) :: sscanf format rest := by
  have hread : digitsOf 16 (48 :: 120 :: (digits ++ rest)) =
      some (numberOf 16 digits, rest) := by
    have hskip : skipPrefix 16 (48 :: 120 :: (digits ++ rest)) = digits ++ rest := by
      rw [skipPrefix, if_pos (by decide)]
    rw [digitsOf, hskip, takeWhile_span hdigits hrest, dropWhile_span hdigits hrest, if_neg hne]
  have hnumber : strtoul 16 (48 :: 120 :: (digits ++ rest)) =
      some (min (numberOf 16 digits) ulongMax, rest) := by
    rw [strtoul.eq_3 _ _ (by simp) (by simp), hread]
    rfl
  have hblank : (48 :: 120 :: (digits ++ rest)).dropWhile isSpace =
      48 :: 120 :: (digits ++ rest) :=
    List.dropWhile_cons_of_neg (by decide)
  rw [sscanf, hblank, hnumber]

end OperatingSystems
