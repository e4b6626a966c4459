import OperatingSystems.Pagemap.ReadPagemap

/-!
# The line of a page

`print_entry` prints what it says: the address, bits 63 and 62 and the lower 55 bits of the entry,
and the pathname can be read from the line again.
-/

namespace OperatingSystems.Pagemap

theorem toNat_bit (entry : BitVec 64) (i : Nat) :
    ((entry >>> i) &&& 1).toNat = (entry.getLsbD i).toNat := by
  rw [BitVec.toNat_and, BitVec.toNat_ushiftRight, BitVec.getLsbD, Nat.toNat_testBit,
    Nat.shiftRight_eq_div_pow]
  exact Nat.and_one_is_mod _

theorem toNat_pfn (entry : BitVec 64) : (pfn entry).toNat = entry.toNat % 2 ^ 55 := by
  have hmask : ((1 <<< 55 : BitVec 64) - 1).toNat = 2 ^ 55 - 1 := by decide
  rw [pfn, BitVec.toNat_and, hmask, Nat.and_two_pow_sub_one_eq_mod]

/-- `"Virtual Address: %lx | present: %lu | swapped: %lu | Page Frame Nmber: %lx | => %255[^\n]"` -/
def entryFormat : List Directive :=
  literals (bytes "Virtual Address: ") ++ .number 16 ::
    (literals (bytes " | present: ") ++ .number 10 ::
      (literals (bytes " | swapped: ") ++ .number 10 ::
        (literals (bytes " | Page Frame Nmber: ") ++ .number 16 ::
          (literals (bytes " | => ") ++ [.upTo 10 255]))))

/-- The blanks of the page frame number belong to the text behind it. -/
theorem sscanf_padBlanks (format : List Directive) {digits rest : List Byte} (hne : digits ≠ [])
    (hdigits : ∀ b ∈ digits, isDigitOf 16 b = true) (width : Nat)
    (hrest : ∀ b ∈ rest.head?, isSpace b = false) :
    sscanf (.number 16 :: .space :: format)
        (48 :: 120 :: (padBlanks width digits ++ 32 :: rest)) =
      .number (min (numberOf 16 digits) ulongMax) :: sscanf format rest := by
  have hblanks : padBlanks width digits ++ 32 :: rest =
      digits ++ (List.replicate (width - digits.length + 1) 32 ++ rest) := by
    rw [padBlanks, List.append_assoc, List.replicate_succ', List.append_assoc, List.singleton_append]
  rw [hblanks, sscanf_prefixed _ hne hdigits fun b hb => ?_, sscanf_space _ hrest]
  rw [List.replicate_succ] at hb
  obtain rfl := Option.some.inj hb
  decide

theorem digits_head_isSpace {base : Nat} (hone : 1 < base) (hbase : base ≤ 16) (n : Nat)
    (rest : List Byte) : ∀ b ∈ (printNumber base n ++ rest).head?, isSpace b = false := by
  obtain ⟨c, digits, hdigits⟩ := List.exists_cons_of_ne_nil (printNumber_ne_nil base n)
  rw [hdigits]
  rintro b ⟨rfl⟩
  exact (ne_of_isDigitOf (isDigitOf_printNumber hone hbase n c (by simp [hdigits]))).1

/-- A number between two texts. -/
theorem sscanf_printed (text : List Byte) (hspaced : spaced text = true) (n : Nat)
    (hn : n ≤ ulongMax) (format : List Directive) {rest : List Byte}
    (hrest : ∀ b ∈ rest.head?, isDigitOf 10 b = false) :
    sscanf (literals text ++ .number 10 :: format) (text ++ (printNumber 10 n ++ rest)) =
      .number n :: sscanf format rest := by
  rw [sscanf_literals _ hspaced (digits_head_isSpace (by decide) (by decide) n rest),
    sscanf_number format (printNumber_ne_nil 10 n)
      (isDigitOf_printNumber (by decide) (by decide) n) hrest (skipPrefix_ten _),
    numberOf_printNumber (by decide) (by decide), Nat.min_eq_left hn]

/-- No digit comes behind a number. -/
theorem blank_head {text : List Byte} (htext : text.head? = some 32) (base : Nat)
    (rest : List Byte) : ∀ b ∈ (text ++ rest).head?, isDigitOf base b = false := by
  intro b hb
  rw [List.head?_append, htext] at hb
  obtain rfl : (32 : Byte) = b := Option.some.inj hb
  rfl

/-- The line, field by field. -/
theorem printEntry_eq (addr : Nat) (entry : BitVec 64) (pathname : List Byte) :
    printEntry addr entry pathname =
      bytes "Virtual Address: " ++ 48 :: 120 :: (padZeros 12 (printNumber 16 addr) ++
        (bytes " | present: " ++ (printNumber 10 (present entry).toNat ++
          (bytes " | swapped: " ++ (printNumber 10 (swapped entry).toNat ++
            (bytes " | Page Frame Nmber: " ++ 48 :: 120 ::
              (padBlanks 10 (printNumber 16 (pfn entry).toNat) ++
                32 :: (bytes "| => " ++ (cstr pathname ++ [10]))))))))) := by
  have haddress : bytes "Virtual Address: 0x" = bytes "Virtual Address: " ++ [48, 120] := by
    decide +kernel
  have hframe : bytes " | Page Frame Nmber: 0x" = bytes " | Page Frame Nmber: " ++ [48, 120] := by
    decide +kernel
  have harrow : bytes " | => " = 32 :: bytes "| => " := by decide +kernel
  have hnewline : bytes "\n" = [10] := by decide +kernel
  rw [printEntry, haddress, hframe, harrow, hnewline]
  simp only [List.append_assoc, List.cons_append, List.nil_append]

/-- What is printed for a page can be read from the line. -/
theorem scanEntry {addr : Nat} (haddr : addr < 2 ^ 64) (entry : BitVec 64) {pathname : List Byte}
    (hne : cstr pathname ≠ []) (hhead : ∀ b ∈ (cstr pathname).head?, isSpace b = false)
    (hnewline : 10 ∉ cstr pathname) :
    sscanf entryFormat (printEntry addr entry pathname) =
      [.number addr, .number (entry.getLsbD 63).toNat, .number (entry.getLsbD 62).toNat,
        .number (entry.toNat % 2 ^ 55), .text ((cstr pathname).take 255)] := by
  have hbit (i : Nat) : ((entry >>> i) &&& 1).toNat ≤ ulongMax := by
    rw [toNat_bit]
    exact (Bool.toNat_le _).trans (by decide)
  have hpath : ∀ b ∈ (cstr pathname ++ [10]).head?, isSpace b = false := by
    obtain ⟨c, path, hpath⟩ := List.exists_cons_of_ne_nil hne
    rw [hpath] at hhead ⊢
    exact hhead
  have hzeros : padZeros 12 (printNumber 16 addr) ≠ [] := by
    simp [padZeros, printNumber_ne_nil]
  have hhex := isDigitOf_printNumber (show 1 < 16 by decide) le_rfl
  have harrow : literals (bytes " | => ") = .space :: literals (bytes "| => ") := by
    rw [show bytes " | => " = 32 :: bytes "| => " by decide +kernel]
    rfl
  have hle {n : Nat} (hn : n < 2 ^ 64) : min n ulongMax = n :=
    Nat.min_eq_left (Nat.le_sub_one_of_lt hn)
  rw [entryFormat, printEntry_eq, sscanf_literals _ (by decide +kernel) (by rintro b ⟨rfl⟩; decide),
    sscanf_prefixed _ hzeros (isDigitOf_padZeros (by decide) 12 (hhex addr))
      (blank_head (by decide +kernel) 16 _),
    numberOf_padZeros, numberOf_printNumber (by decide) le_rfl, hle haddr,
    sscanf_printed _ (by decide +kernel) (present entry).toNat (hbit 63) _
      (blank_head (by decide +kernel) 10 _),
    sscanf_printed _ (by decide +kernel) (swapped entry).toNat (hbit 62) _
      (blank_head (by decide +kernel) 10 _),
    sscanf_literals _ (by decide +kernel) (by rintro b ⟨rfl⟩; decide), harrow,
    List.cons_append, sscanf_padBlanks _ (printNumber_ne_nil 16 _) (hhex _) 10 ?_,
    numberOf_printNumber (by decide) le_rfl, hle (pfn entry).isLt,
    sscanf_literals _ (by decide +kernel) hpath,
    sscanf_upTo hne (by decide) hnewline (by rintro b ⟨rfl⟩; rfl), present, toNat_bit, swapped,
    toNat_bit, toNat_pfn]
  rintro b ⟨rfl⟩
  decide

/-- A page in memory. -/
theorem scanEntry_present :
    sscanf entryFormat (printEntry 4194304 (1 <<< 63 ||| 7) (bytes "/a" ++ [0])) =
      [.number 4194304, .number 1, .number 0, .number 7, .text (bytes "/a")] := by
  have hpath : cstr (bytes "/a" ++ [0]) = bytes "/a" := by decide +kernel
  have hread := scanEntry (show 4194304 < 2 ^ 64 by decide) (1 <<< 63 ||| 7)
    (show cstr (bytes "/a" ++ [0]) ≠ [] by decide +kernel) (by decide +kernel)
    (by decide +kernel)
  rw [hread, hpath]
  decide +kernel

end OperatingSystems.Pagemap
