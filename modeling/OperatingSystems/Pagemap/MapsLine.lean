import OperatingSystems.Pagemap.ParseMaps

/-!
# The lines of a maps file

A line has the form `start-end perms offset major:minor inode`, with or without a pathname behind,
and `scanLine` finds in it what `found` says.

* `sscanf_device` — the four fields in front of the device are read as they stand.
* `sscanf_fits`, `sscanf_cut` — what is read behind them when the device has room in its buffer, and
  when it has not.
-/

namespace OperatingSystems.Pagemap

/-! ### Fields -/

/-- A number is written with one digit or more. -/
def Digits (base : Nat) (field : List Byte) : Prop :=
  field ≠ [] ∧ ∀ b ∈ field, isDigitOf base b = true

/-- One line of a maps file, field by field.  The pathname stands behind blanks, and without one
there may be blanks at the end. -/
structure MapsLine where
  start : List Byte
  stop : List Byte
  perms : List Byte
  offset : List Byte
  major : List Byte
  minor : List Byte
  inode : List Byte
  padding : Nat
  pathname : Option (List Byte)
  start_digits : Digits 16 start
  start_le : numberOf 16 start ≤ ulongMax
  stop_digits : Digits 16 stop
  stop_le : numberOf 16 stop ≤ ulongMax
  length_perms : perms.length = 4
  perms_letters : ∀ b ∈ perms, isSpace b = false ∧ b ≠ 0
  offset_digits : Digits 16 offset
  major_digits : Digits 16 major
  minor_digits : Digits 16 minor
  inode_digits : Digits 10 inode
  pathname_text : ∀ path ∈ pathname,
    path ≠ [] ∧ (∀ b ∈ path.head?, isSpace b = false) ∧ 10 ∉ path ∧ 0 ∉ path

namespace MapsLine

variable (line : MapsLine)

def device : List Byte := line.major ++ 58 :: line.minor

/-- What stands behind the inode. -/
def name : List Byte :=
  match line.pathname with
  | none => List.replicate line.padding 32
  | some path => List.replicate (line.padding + 1) 32 ++ path

def text : List Byte :=
  line.start ++ 45 :: (line.stop ++ 32 :: (line.perms ++ 32 :: (line.offset ++
    32 :: (line.device ++ 32 :: (line.inode ++ line.name)))))

/-- The pathname that its mapping is to show. -/
def shown : List Byte :=
  match line.pathname with
  | none => bytes "[unknown]"
  | some path => path.take 255

/-- What is left in place of the pathname when only five bytes of the device are read as such and
the digits behind them as the inode. -/
def shifted : List Byte :=
  ((line.device.drop 5).dropWhile (isDigitOf 10) ++ 32 :: (line.inode ++ line.name)).dropWhile
    isSpace

/-- The sixth byte of the device is a decimal digit. -/
def sixthDigit : Bool :=
  (line.device.drop 5).head?.any (isDigitOf 10)

/-- The device has at most five bytes.  Or it has more, the sixth is a decimal digit, and the text
that moves into the place of the pathname happens to start like the pathname. -/
def FieldsFit : Prop :=
  line.device.length ≤ 5 ∨
    line.sixthDigit ∧ ∃ path ∈ line.pathname, line.shifted.take 255 = path.take 255

end MapsLine

/-! ### The fields of a line -/

section Fields

theorem Digits.head_isSpace {base : Nat} {field : List Byte} (h : Digits base field)
    (rest : List Byte) : ∀ b ∈ (field ++ rest).head?, isSpace b = false := by
  obtain ⟨b, field, rfl⟩ := List.exists_cons_of_ne_nil h.1
  rintro c ⟨rfl⟩
  exact (ne_of_isDigitOf (h.2 b (by simp))).1

theorem ne_newline {b : Byte} (hb : isSpace b = false) : b ≠ 10 := by
  rintro rfl
  exact absurd hb (by decide)

theorem Digits.plain {base : Nat} {field : List Byte} (h : Digits base field) :
    ∀ b ∈ field, b ≠ 0 ∧ b ≠ 10 := by
  intro b hb
  obtain ⟨hspace, -, -, hnul⟩ := ne_of_isDigitOf (h.2 b hb)
  exact ⟨hnul, ne_newline hspace⟩

/-- One blank. -/
theorem sscanf_blank (format : List Directive) {s : List Byte}
    (hs : ∀ b ∈ s.head?, isSpace b = false) :
    sscanf (.space :: format) (32 :: s) = sscanf format s :=
  sscanf_space 1 hs format

theorem sscanf_hex {digits : List Byte} (h : Digits 16 digits) (format : List Directive) {b : Byte}
    (hb : b = 45 ∨ b = 32) (rest : List Byte) :
    sscanf (.number 16 :: format) (digits ++ b :: rest) =
      .number (min (numberOf 16 digits) ulongMax) :: sscanf format (b :: rest) := by
  refine sscanf_number format h.1 h.2 ?_ (skipPrefix_digits h.2 h.1 ?_)
  · rintro c ⟨rfl⟩
    rcases hb with rfl | rfl <;> decide
  · rintro c ⟨rfl⟩
    rcases hb with rfl | rfl <;> decide

theorem sscanf_decimal {digits rest : List Byte} (h : Digits 10 digits) (format : List Directive)
    (hrest : ∀ b ∈ rest.head?, isDigitOf 10 b = false) :
    sscanf (.number 10 :: format) (digits ++ rest) =
      .number (min (numberOf 10 digits) ulongMax) :: sscanf format rest :=
  sscanf_number format h.1 h.2 hrest (skipPrefix_ten _)

end Fields

namespace MapsLine

variable (line : MapsLine)

theorem device_ne_nil : line.device ≠ [] := by simp [device]

/-- The device is hexadecimal digits and a colon. -/
theorem device_byte {b : Byte} (hb : b ∈ line.device) : isSpace b = false ∧ b ≠ 45 ∧ b ≠ 43 := by
  have hdigit : ∀ {field : List Byte}, Digits 16 field → b ∈ field →
      isSpace b = false ∧ b ≠ 45 ∧ b ≠ 43 := by
    intro field h hb
    obtain ⟨hspace, hminus, hplus, -⟩ := ne_of_isDigitOf (h.2 b hb)
    exact ⟨hspace, hminus, hplus⟩
  rcases List.mem_append.mp hb with hmajor | htail
  · exact hdigit line.major_digits hmajor
  · rcases List.mem_cons.mp htail with rfl | hminor
    · decide
    · exact hdigit line.minor_digits hminor

theorem perms_ne_nil : line.perms ≠ [] := by
  rw [← List.length_pos_iff, line.length_perms]
  decide

/-- The first four fields are read as they stand, up to the device. -/
theorem sscanf_device (tail : List Byte) :
    sscanf mapsFormat (line.text ++ tail) =
      .number (numberOf 16 line.start) :: .number (numberOf 16 line.stop) :: .text line.perms ::
        .number (min (numberOf 16 line.offset) ulongMax) ::
          sscanf [.word 5, .space, .number 10, .space, .upTo 10 255]
            (line.device ++ 32 :: (line.inode ++ (line.name ++ tail))) := by
  have hperms : ∀ b ∈ (line.perms ++ 32 :: (line.offset ++
      32 :: (line.device ++ 32 :: (line.inode ++ (line.name ++ tail))))).head?,
      isSpace b = false := by
    obtain ⟨b, perms, hperms⟩ := List.exists_cons_of_ne_nil line.perms_ne_nil
    rw [hperms]
    rintro c ⟨rfl⟩
    exact (line.perms_letters b (by simp [hperms])).1
  have hdevice : ∀ b ∈ (line.device ++ 32 :: (line.inode ++ (line.name ++ tail))).head?,
      isSpace b = false := by
    rw [device, List.append_assoc]
    exact line.major_digits.head_isSpace _
  have hword : sscanf
      [.word 4, .space, .number 16, .space, .word 5, .space, .number 10, .space, .upTo 10 255]
      (line.perms ++ 32 :: (line.offset ++ 32 :: (line.device ++ 32 :: (line.inode ++
        (line.name ++ tail))))) = .text line.perms :: sscanf
      [.space, .number 16, .space, .word 5, .space, .number 10, .space, .upTo 10 255]
      (32 :: (line.offset ++ 32 :: (line.device ++ 32 :: (line.inode ++
        (line.name ++ tail))))) :=
    sscanf_word _ line.perms_ne_nil (fun b hb => (line.perms_letters b hb).1)
      line.length_perms.le (Or.inl line.length_perms)
  simp only [text, mapsFormat, List.append_assoc, List.cons_append]
  rw [sscanf_hex line.start_digits _ (Or.inl rfl), Nat.min_eq_left line.start_le, sscanf]
  simp only [if_pos]
  rw [sscanf_hex line.stop_digits _ (Or.inr rfl), Nat.min_eq_left line.stop_le,
    sscanf_blank _ hperms, hword, sscanf_blank _ (line.offset_digits.head_isSpace _),
    sscanf_hex line.offset_digits _ (Or.inr rfl), sscanf_blank _ hdevice]

/-! ### What is scanned -/

/-- The `mapname` that the line is scanned for, if its mapping is not left out. -/
def found : Option (Option (List Byte)) :=
  if line.device.length ≤ 5 then some (line.pathname.map (·.take 255))
  else if line.sixthDigit then some (some (line.shifted.take 255))
  else none

theorem name_plain : ∀ b ∈ line.name, b ≠ 0 ∧ b ≠ 10 := by
  intro b hb
  rw [name] at hb
  cases hpath : line.pathname with
  | none =>
      rw [hpath] at hb
      rw [List.eq_of_mem_replicate hb]
      decide
  | some path =>
      rw [hpath] at hb
      obtain ⟨-, -, hnewline, hnul⟩ := line.pathname_text path hpath
      rcases List.mem_append.mp hb with hblank | hbyte
      · rw [List.eq_of_mem_replicate hblank]
        decide
      · exact ⟨fun h => hnul (h ▸ hbyte), fun h => hnewline (h ▸ hbyte)⟩

theorem behind_plain :
    ∀ b ∈ line.device ++ 32 :: (line.inode ++ line.name), b ≠ 0 ∧ b ≠ 10 := by
  simp only [device, List.forall_mem_append, List.forall_mem_cons]
  exact ⟨⟨line.major_digits.plain, by decide, line.minor_digits.plain⟩, by decide,
    line.inode_digits.plain, line.name_plain⟩

/-- No field holds the end of a string or of a line. -/
theorem text_plain : ∀ b ∈ line.text, b ≠ 0 ∧ b ≠ 10 := by
  have hperms : ∀ b ∈ line.perms, b ≠ 0 ∧ b ≠ 10 := by
    intro b hb
    obtain ⟨hspace, hnul⟩ := line.perms_letters b hb
    exact ⟨hnul, ne_newline hspace⟩
  have hbehind := line.behind_plain
  simp only [text, List.forall_mem_append, List.forall_mem_cons] at hbehind ⊢
  exact ⟨line.start_digits.plain, by decide, line.stop_digits.plain, by decide, hperms, by decide,
    line.offset_digits.plain, by decide, hbehind⟩

/-- The line as `fgets` hands it over, with its newline or without. -/
theorem cstr_text {tail : List Byte} (htail : tail = [] ∨ tail = [10]) :
    cstr (line.text ++ tail) = line.text ++ tail := by
  refine cstr_of_notMem fun hnul => ?_
  rcases List.mem_append.mp hnul with htext | htail'
  · exact (line.text_plain 0 htext).1 rfl
  · rcases htail with rfl | rfl <;> simp at htail'

theorem sscanf_pathname {tail : List Byte} (htail : tail = [] ∨ tail = [10]) :
    sscanf [.space, .upTo 10 255] (line.name ++ tail) =
      (line.pathname.map fun path => Value.text (path.take 255)).toList := by
  rw [sscanf, name]
  cases hpath : line.pathname with
  | none =>
      have hblank : (List.replicate line.padding 32 ++ tail).dropWhile isSpace = [] := by
        refine List.dropWhile_eq_nil_iff.mpr fun b hb => ?_
        rcases List.mem_append.mp hb with hblank | hend
        · rw [List.eq_of_mem_replicate hblank]
          rfl
        · rcases htail with rfl | rfl
          · cases hend
          · rw [List.mem_singleton.mp hend]
            rfl
      simp only [hblank]
      rfl
  | some path =>
      obtain ⟨hne, hspace, hnewline, -⟩ := line.pathname_text path hpath
      have hhead : ∀ b ∈ (path ++ tail).head?, isSpace b = false := by
        obtain ⟨b, path, rfl⟩ := List.exists_cons_of_ne_nil hne
        exact hspace
      simp only [List.append_assoc]
      rw [dropWhile_blanks _ hhead, sscanf_upTo hne (by decide) hnewline (by
        rcases htail with rfl | rfl <;> simp)]
      rfl

/-- A device that fits is read, and all that comes behind it. -/
theorem sscanf_fits (hfits : line.device.length ≤ 5) {tail : List Byte}
    (htail : tail = [] ∨ tail = [10]) :
    sscanf [.word 5, .space, .number 10, .space, .upTo 10 255]
        (line.device ++ 32 :: (line.inode ++ (line.name ++ tail))) =
      .text line.device :: .number (min (numberOf 10 line.inode) ulongMax) ::
        (line.pathname.map fun path => Value.text (path.take 255)).toList := by
  have hend : ∀ b ∈ (line.name ++ tail).head?, isDigitOf 10 b = false := by
    intro b hb
    have hcases : b = 32 ∨ b = 10 := by
      rw [name] at hb
      cases hpath : line.pathname with
      | none =>
          rw [hpath] at hb
          cases hpadding : line.padding with
          | zero => rcases htail with rfl | rfl <;> simp_all
          | succ n => simp_all [List.replicate_succ]
      | some path => simp_all [List.replicate_succ]
    rcases hcases with rfl | rfl <;> decide
  rw [sscanf_word _ line.device_ne_nil (fun b hb => (line.device_byte hb).1) hfits
      (Or.inr (by rintro b ⟨rfl⟩; rfl)),
    sscanf_blank _ (line.inode_digits.head_isSpace _), sscanf_decimal line.inode_digits _ hend,
    line.sscanf_pathname htail]

/-- The text that moves into the pathname's place starts with what is left of the device, or with
the inode. -/
theorem shifted_head : ∃ b s, line.shifted = b :: s ∧ (isDigitOf 16 b = true ∨ b = 58) := by
  cases hleft : (line.device.drop 5).dropWhile (isDigitOf 10) with
  | nil =>
      obtain ⟨b, inode, hinode⟩ := List.exists_cons_of_ne_nil line.inode_digits.1
      refine ⟨b, inode ++ line.name, ?_, Or.inl ?_⟩
      · have hskip : (32 :: (line.inode ++ line.name)).dropWhile isSpace = line.inode ++ line.name :=
          dropWhile_blanks 1 (line.inode_digits.head_isSpace _)
        rw [shifted, hleft, List.nil_append, hskip, hinode, List.cons_append]
      · exact isDigitOf_sixteen_of_ten (line.inode_digits.2 b (by simp [hinode]))
  | cons b left =>
      have hb : b ∈ line.device :=
        List.mem_of_mem_drop ((List.dropWhile_sublist _).subset (hleft ▸ List.mem_cons_self))
      refine ⟨b, left ++ 32 :: (line.inode ++ line.name), ?_, ?_⟩
      · rw [shifted, hleft]
        exact List.dropWhile_cons_of_neg (by simp [(line.device_byte hb).1])
      · rcases List.mem_append.mp hb with hmajor | htail
        · exact Or.inl (line.major_digits.2 b hmajor)
        · rcases List.mem_cons.mp htail with rfl | hminor
          · exact Or.inr rfl
          · exact Or.inl (line.minor_digits.2 b hminor)

theorem shifted_ne_nil : line.shifted ≠ [] := by
  obtain ⟨b, s, hshifted, -⟩ := line.shifted_head
  simp [hshifted]

theorem shifted_plain : ∀ b ∈ line.shifted, b ≠ 0 ∧ b ≠ 10 := by
  intro b hb
  refine line.behind_plain b ?_
  rcases List.mem_append.mp ((List.dropWhile_sublist _).subset hb) with hdevice | hbehind
  · exact List.mem_append_left _
      (List.mem_of_mem_drop ((List.dropWhile_sublist _).subset hdevice))
  · exact List.mem_append_right _ hbehind

theorem sscanf_shifted {tail : List Byte} (htail : tail = [] ∨ tail = [10]) :
    sscanf [.space, .upTo 10 255] ((line.device.drop 5).dropWhile (isDigitOf 10) ++
        32 :: (line.inode ++ (line.name ++ tail))) = [.text (line.shifted.take 255)] := by
  have hskip : ((line.device.drop 5).dropWhile (isDigitOf 10) ++
      32 :: (line.inode ++ (line.name ++ tail))).dropWhile isSpace = line.shifted ++ tail := by
    have hassoc : (line.device.drop 5).dropWhile (isDigitOf 10) ++
        32 :: (line.inode ++ (line.name ++ tail)) = (line.device.drop 5).dropWhile (isDigitOf 10) ++
          32 :: (line.inode ++ line.name) ++ tail := by simp
    rw [hassoc, List.dropWhile_append, if_neg]
    · rfl
    · rw [List.isEmpty_iff]
      exact line.shifted_ne_nil
  rw [sscanf, hskip]
  exact sscanf_upTo line.shifted_ne_nil (by decide) (fun h => (line.shifted_plain 10 h).2 rfl)
    (by rcases htail with rfl | rfl <;> simp)

/-- A device that does not fit is cut off at five bytes. -/
theorem sscanf_device_cut (hcut : 5 < line.device.length) (behind : List Byte) :
    sscanf [.word 5, .space, .number 10, .space, .upTo 10 255] (line.device ++ behind) =
      .text (line.device.take 5) ::
        sscanf [.number 10, .space, .upTo 10 255] (line.device.drop 5 ++ behind) := by
  obtain ⟨b, left, hleft⟩ : ∃ b left, line.device.drop 5 = b :: left :=
    List.exists_cons_of_ne_nil (by rw [ne_eq, List.drop_eq_nil_iff]; omega)
  have hb : b ∈ line.device := List.mem_of_mem_drop (hleft ▸ List.mem_cons_self)
  have hsplit : line.device ++ behind =
      line.device.take 5 ++ (line.device.drop 5 ++ behind) := by
    rw [← List.append_assoc, List.take_append_drop]
  have hspace : ∀ c ∈ (line.device.drop 5 ++ behind).head?, isSpace c = false := by
    rw [hleft]
    rintro c ⟨rfl⟩
    exact (line.device_byte hb).1
  rw [hsplit, sscanf_word _ (by simp [line.device_ne_nil])
    (fun c hc => (line.device_byte (List.mem_of_mem_take hc)).1) (List.length_take_le 5 _)
    (Or.inl (by rw [List.length_take]; omega))]
  exact congrArg _ (sscanf_space 0 hspace _)

/-- What is left of a device that is cut off is read as the inode, or ends the reading. -/
theorem sscanf_cut (hcut : 5 < line.device.length) {tail : List Byte}
    (htail : tail = [] ∨ tail = [10]) :
    ∃ inode, sscanf [.word 5, .space, .number 10, .space, .upTo 10 255]
        (line.device ++ 32 :: (line.inode ++ (line.name ++ tail))) =
      .text (line.device.take 5) ::
        if line.sixthDigit then [.number inode, .text (line.shifted.take 255)] else [] := by
  obtain ⟨b, left, hleft⟩ : ∃ b left, line.device.drop 5 = b :: left :=
    List.exists_cons_of_ne_nil (by rw [ne_eq, List.drop_eq_nil_iff]; omega)
  have hb : b ∈ line.device := List.mem_of_mem_drop (hleft ▸ List.mem_cons_self)
  have hsixth : line.sixthDigit = isDigitOf 10 b := by rw [sixthDigit, hleft]; rfl
  rw [line.sscanf_device_cut hcut, hleft]
  cases hdigit : isDigitOf 10 b with
  | false =>
      refine ⟨0, ?_⟩
      rw [hsixth, hdigit, List.cons_append,
        sscanf_number_none _ (line.device_byte hb).1 (line.device_byte hb).2 hdigit]
      rfl
  | true =>
      -- The digits at the front of what is left are the number, the rest starts with no digit.
      set digits := (b :: left).takeWhile (isDigitOf 10) with hdigits
      have hnumber : Digits 10 digits :=
        ⟨by simp [hdigits, hdigit], fun c hc => List.mem_takeWhile_imp hc⟩
      have hend : ∀ c ∈ ((b :: left).dropWhile (isDigitOf 10) ++
          32 :: (line.inode ++ (line.name ++ tail))).head?, isDigitOf 10 c = false :=
        head_dropWhile_append _ _ (by rintro c ⟨rfl⟩; decide)
      refine ⟨min (numberOf 10 digits) ulongMax, ?_⟩
      rw [hsixth, hdigit, ← List.takeWhile_append_dropWhile (p := isDigitOf 10) (l := b :: left),
        List.append_assoc, sscanf_decimal hnumber _ hend, ← hleft, line.sscanf_shifted htail]
      rfl

theorem scanLine_text {tail : List Byte} (htail : tail = [] ∨ tail = [10]) :
    scanLine (line.text ++ tail) =
      line.found.map fun mapname => (numberOf 16 line.start, numberOf 16 line.stop, mapname) := by
  rw [scanLine, line.cstr_text htail, line.sscanf_device]
  by_cases hfits : line.device.length ≤ 5
  · rw [line.sscanf_fits hfits htail, found, if_pos hfits]
    cases line.pathname <;> rfl
  · obtain ⟨inode, hread⟩ := line.sscanf_cut (Nat.lt_of_not_le hfits) htail
    rw [hread, found, if_neg hfits]
    cases line.sixthDigit <;> rfl

end MapsLine

/-- The newline that did not fit into the buffer is a line of its own for `fgets`. -/
theorem scanLine_newline : scanLine [10] = none := by
  decide

end OperatingSystems.Pagemap
