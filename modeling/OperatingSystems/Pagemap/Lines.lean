import OperatingSystems.Pagemap.MapsLine

/-!
# One mapping for each line

What `parse_maps` makes of a maps file.  `parseLines` is the loop on whole lines; a line that fills
the buffer costs it a second call of `fgets`, which finds the newline alone (`parseLoop_line`).

* `shows_iff` — when the entry of a line shows it.
* `parseLines_entries`, `parseLines_some` — each line has written the entry of its own number.
* `parseMaps_lists_iff` — when there is one mapping for each line.
-/

namespace OperatingSystems.Pagemap

/-- The file with these lines. -/
def mapsText (lines : List MapsLine) : List Byte :=
  lines.flatMap fun line => line.text ++ [10]

/-- The entry has what the line says. -/
def Mapping.Shows (mapping : Mapping) (line : MapsLine) : Prop :=
  mapping.start = numberOf 16 line.start ∧ mapping.stop = numberOf 16 line.stop ∧
    cstr mapping.pathname = line.shown

/-- One mapping for each line, in order; nothing was written past the array. -/
def Lists (lines : List MapsLine) (outcome : Outcome) : Prop :=
  ∃ mappings : List Mapping, outcome = .returns mappings lines.length ∧
    ∀ (i : Nat) (line : MapsLine), lines[i]? = some line →
      ∃ mapping, mappings[i]? = some mapping ∧ mapping.Shows line

/-! ### The entry of a line -/

namespace MapsLine

variable (line : MapsLine)

/-- What becomes of the entry for which the line is scanned. -/
def entry (mapping : Mapping) (mapname : Option (List Byte)) : Mapping :=
  mapping.set (numberOf 16 line.start) (numberOf 16 line.stop) mapname

/-- The last byte of the entry, which is not written, ends a pathname of full length. -/
def EndsIn (mapping : Mapping) : Prop :=
  ∀ path ∈ line.pathname, 255 ≤ path.length → mapping.pathname[255]? = some 0

theorem parseLine_text (mappings : List Mapping) (count : Nat) :
    parseLine mappings count (line.text ++ [10]) =
      match line.found with
      | none => some (mappings, count)
      | some mapname => mappings[count]?.map fun mapping =>
          (mappings.set count (line.entry mapping mapname), count + 1) := by
  rw [parseLine, line.scanLine_text (Or.inr rfl)]
  cases line.found <;> rfl

/-- The text that moves into the pathname's place does not read like a text that starts with
another byte. -/
theorem shifted_ne {text : List Byte}
    (htext : ∀ b ∈ text.head?, isDigitOf 16 b = false ∧ b ≠ 58) : line.shifted.take 255 ≠ text := by
  rintro rfl
  obtain ⟨b, s, hshifted, hb⟩ := line.shifted_head
  obtain ⟨hdigit, hcolon⟩ := htext b (by rw [hshifted]; rfl)
  rcases hb with hb | hb
  · rw [hb] at hdigit
    cases hdigit
  · exact hcolon hb

theorem entry_shows (mapping : Mapping) (mapname : Option (List Byte)) :
    (line.entry mapping mapname).Shows line ↔
      cstr (setPathname mapping.pathname mapname) = line.shown :=
  ⟨fun h => h.2.2, fun h => ⟨rfl, rfl, h⟩⟩

theorem length_shown : line.shown.length ≤ 255 := by
  rw [shown]
  cases line.pathname with
  | none => decide
  | some path => exact List.length_take_le 255 path

/-- A `mapname` without NUL is shown if it is the pathname, and ended by the byte behind it. -/
theorem cstr_setPathname (mapping : Mapping) {mapname : List Byte} (hnul : 0 ∉ mapname) :
    cstr (setPathname mapping.pathname (some (mapname.take 255))) = line.shown ↔
      mapname.take 255 = line.shown ∧
        (255 ≤ mapname.length → mapping.pathname[255]? = some 0) := by
  have hfull : (mapname.take 255).length = 255 ↔ 255 ≤ mapname.length := by
    rw [List.length_take]
    omega
  rw [setPathname, cstr_strncpy mapping.length_pathname (fun h => hnul (List.mem_of_mem_take h))
    (List.length_take_le 255 _) line.length_shown, hfull]

theorem shows_iff (mapping : Mapping) :
    (∃ mapname ∈ line.found, (line.entry mapping mapname).Shows line) ↔
      line.FieldsFit ∧ line.EndsIn mapping := by
  simp only [entry_shows]
  rw [FieldsFit, EndsIn, found]
  split_ifs with hfits hsixth
  · -- The pathname is scanned, if there is one.
    cases hpath : line.pathname with
    | none =>
        have hunknown : cstr (setPathname mapping.pathname none) = line.shown := by
          rw [(setPathname_none mapping.length_pathname).cstr_eq, shown, hpath]
        simp [hfits, hunknown]
    | some path =>
        have hshown : path.take 255 = line.shown := by rw [shown, hpath]
        have hpathname := line.cstr_setPathname mapping (line.pathname_text path hpath).2.2.2
        simp only [Option.map_some, Option.mem_some_iff, exists_eq_left', hpathname]
        simp [hfits, hshown]
  · -- What stands behind the cut device is scanned in its place.
    have hpathname := line.cstr_setPathname mapping (fun h => (line.shifted_plain 0 h).1 rfl)
    simp only [Option.mem_some_iff, exists_eq_left', hpathname]
    cases hpath : line.pathname with
    | none =>
        have hshown : line.shown = bytes "[unknown]" := by rw [shown, hpath]
        have hne : line.shifted.take 255 ≠ bytes "[unknown]" := line.shifted_ne (by decide +kernel)
        simp [hshown, hne, hfits]
    | some path =>
        have hshown : line.shown = path.take 255 := by rw [shown, hpath]
        have hlength : line.shifted.take 255 = path.take 255 →
            (255 ≤ line.shifted.length ↔ 255 ≤ path.length) := by
          intro h
          have := congrArg List.length h
          simp only [List.length_take] at this
          omega
        simp only [hfits, hsixth, hshown, false_or, true_and, Option.mem_some_iff,
          exists_eq_left', forall_eq']
        exact and_congr_right fun h => by rw [hlength h]
  · simp [hfits, hsixth]

end MapsLine

/-! ### The loop -/

/-- Line by line, as long as nothing is written past the array. -/
def parseLines (lines : List MapsLine) (mappings : List Mapping) (count : Nat) :
    Option (List Mapping × Nat) :=
  lines.foldlM (fun (state : List Mapping × Nat) line =>
    parseLine state.1 state.2 (line.text ++ [10])) (mappings, count)

theorem parseLines_cons (line : MapsLine) (lines : List MapsLine) (mappings : List Mapping)
    (count : Nat) : parseLines (line :: lines) mappings count =
      (parseLine mappings count (line.text ++ [10])).bind fun state =>
        parseLines lines state.1 state.2 := by
  rw [parseLines, List.foldlM_cons]
  rfl

theorem mapsText_cons (line : MapsLine) (lines : List MapsLine) :
    mapsText (line :: lines) = line.text ++ 10 :: mapsText lines := by
  simp [mapsText]

/-- A line for which the buffer has no room takes one more call of `fgets`, which finds its
newline alone. -/
theorem parseLoop_line (line : MapsLine) (hshort : line.text.length < 1024)
    (mappings : List Mapping) (count : Nat) {calls : Nat} {rest : List Byte}
    (hcalls : (line.text ++ 10 :: rest).length < calls) :
    ∃ left, rest.length < left ∧ parseLoop calls mappings count (line.text ++ 10 :: rest) =
      match parseLine mappings count (line.text ++ [10]) with
      | none => .undefined
      | some (mappings, count) => parseLoop left mappings count rest := by
  have hnewline : 10 ∉ line.text := fun h => (line.text_plain 10 h).2 rfl
  rw [List.length_append, List.length_cons] at hcalls
  obtain ⟨calls, rfl⟩ : ∃ n, calls = n + 1 := ⟨calls - 1, by omega⟩
  rcases Nat.lt_or_eq_of_le hshort with hroom | hfull
  · refine ⟨calls, by omega, ?_⟩
    rewrite [parseLoop, fgets_line hnewline hroom]
    rfl
  · obtain ⟨calls, rfl⟩ : ∃ n, calls = n + 1 := ⟨calls - 1, by omega⟩
    refine ⟨calls, by omega, ?_⟩
    have hsame : parseLine mappings count line.text =
        parseLine mappings count (line.text ++ [10]) := by
      rw [parseLine, parseLine, line.scanLine_text (Or.inr rfl), ← line.scanLine_text (Or.inl rfl),
        List.append_nil]
    have hskip : ∀ (mappings : List Mapping) (count : Nat),
        parseLoop (calls + 1) mappings count (10 :: rest) =
          parseLoop calls mappings count rest := by
      intro mappings count
      have hread : fgets 1024 (10 :: rest) = some ([10], rest) :=
        fgets_line (List.not_mem_nil) (by decide) rest
      simp only [parseLoop, hread, parseLine, scanLine_newline]
    rw [parseLoop, fgets_full hnewline hfull, ← hsame]
    dsimp only
    cases parseLine mappings count line.text with
    | none => rfl
    | some state => exact hskip state.1 state.2

/-- The calls of `fgets` suffice, and read the file line by line. -/
theorem parseLoop_text (lines : List MapsLine)
    (hshort : ∀ line ∈ lines, line.text.length < 1024) (mappings : List Mapping) (count : Nat)
    {calls : Nat} (hcalls : (mapsText lines).length < calls) :
    parseLoop calls mappings count (mapsText lines) =
      match parseLines lines mappings count with
      | none => .undefined
      | some (mappings, count) => .returns mappings count := by
  induction lines generalizing mappings count calls with
  | nil =>
      obtain ⟨calls, rfl⟩ := Nat.exists_eq_add_of_lt hcalls
      rfl
  | cons line lines ih =>
      obtain ⟨hline, hlines⟩ := List.forall_mem_cons.mp hshort
      rw [mapsText_cons] at hcalls ⊢
      obtain ⟨left, hleft, hloop⟩ := parseLoop_line line hline mappings count hcalls
      rw [hloop, parseLines_cons]
      cases parseLine mappings count (line.text ++ [10]) with
      | none => rfl
      | some state => exact ih hlines state.1 state.2 hleft

/-- Every line adds one entry at most.  When all of them do, each has written the entry of its
own number. -/
theorem parseLines_entries (lines : List MapsLine) {mappings after : List Mapping}
    {count last : Nat} (h : parseLines lines mappings count = some (after, last)) :
    last ≤ count + lines.length ∧ (∀ i < count, after[i]? = mappings[i]?) ∧
      (last = count + lines.length → ∀ (i : Nat) (line : MapsLine), lines[i]? = some line →
        ∃ mapping ∈ mappings[count + i]?, ∃ mapname ∈ line.found,
          after[count + i]? = some (line.entry mapping mapname)) := by
  induction lines generalizing mappings count with
  | nil =>
      obtain ⟨rfl, rfl⟩ : mappings = after ∧ count = last := by simpa [parseLines] using h
      exact ⟨by simp, fun i _ => rfl, fun _ i line hline => by simp at hline⟩
  | cons line lines ih =>
      rw [parseLines_cons, line.parseLine_text] at h
      rw [List.length_cons]
      cases hfound : line.found with
      | none =>
          rw [hfound] at h
          obtain ⟨hlast, hframe, -⟩ := ih h
          exact ⟨by omega, hframe, fun hall => absurd hall (by omega)⟩
      | some mapname =>
          rw [hfound] at h
          cases hentry : mappings[count]? with
          | none => simp [hentry] at h
          | some mapping =>
              have htail : parseLines lines (mappings.set count (line.entry mapping mapname))
                  (count + 1) = some (after, last) := by
                rw [hentry] at h
                exact h
              obtain ⟨hlast, hframe, hentries⟩ := ih htail
              have hcount : count < mappings.length := (List.getElem?_eq_some_iff.mp hentry).1
              refine ⟨by omega, fun i hi => ?_, fun hall i next hnext => ?_⟩
              · rw [hframe i (by omega), List.getElem?_set_ne (by omega)]
              · cases i with
                | zero =>
                    obtain rfl : line = next := Option.some.inj hnext
                    refine ⟨mapping, hentry, mapname, hfound, ?_⟩
                    rw [Nat.add_zero, hframe count (by omega), List.getElem?_set_self hcount]
                | succ i =>
                    obtain ⟨old, hold, name, hname, hafter⟩ := hentries (by omega) i next hnext
                    rw [show count + (i + 1) = count + 1 + i by omega]
                    rw [List.getElem?_set_ne (by omega)] at hold
                    exact ⟨old, hold, name, hname, hafter⟩

/-- Lines that are all scanned find entries as long as the array has them. -/
theorem parseLines_some (lines : List MapsLine) {mappings : List Mapping} {count : Nat}
    (hfound : ∀ line ∈ lines, ∃ mapname, line.found = some mapname)
    (hroom : count + lines.length ≤ mappings.length) :
    ∃ after, parseLines lines mappings count = some (after, count + lines.length) := by
  induction lines generalizing mappings count with
  | nil => exact ⟨mappings, rfl⟩
  | cons line lines ih =>
      obtain ⟨⟨mapname, hline⟩, hlines⟩ := List.forall_mem_cons.mp hfound
      rw [List.length_cons] at hroom ⊢
      have hentry : mappings[count]? = some mappings[count] := List.getElem?_eq_getElem (by omega)
      have hroom' : count + 1 + lines.length ≤
          (mappings.set count (line.entry mappings[count] mapname)).length := by
        rw [List.length_set]
        omega
      obtain ⟨after, hafter⟩ := ih hlines hroom'
      refine ⟨after, ?_⟩
      rw [parseLines_cons, line.parseLine_text, hline, hentry]
      rw [show count + (lines.length + 1) = count + 1 + lines.length by omega]
      exact hafter

/-! ### One mapping for each line -/

section Shows

variable {lines : List MapsLine} {mappings after : List Mapping}

theorem fits_of_shows (hlines : parseLines lines mappings 0 = some (after, lines.length))
    (hshows : ∀ (i : Nat) (line : MapsLine), lines[i]? = some line →
      ∃ mapping, after[i]? = some mapping ∧ mapping.Shows line) :
    lines.length ≤ mappings.length ∧
      ∀ (i : Nat) (line : MapsLine), lines[i]? = some line → line.FieldsFit ∧
        ∀ mapping ∈ mappings[i]?, line.EndsIn mapping := by
  have hentries : ∀ (i : Nat) (line : MapsLine), lines[i]? = some line →
      ∃ mapping ∈ mappings[i]?, ∃ mapname ∈ line.found,
        after[i]? = some (line.entry mapping mapname) := by
    simpa only [Nat.zero_add] using (parseLines_entries lines hlines).2.2 (Nat.zero_add _).symm
  refine ⟨?_, fun i line hline => ?_⟩
  · -- The last line has an entry.
    rcases Nat.eq_zero_or_pos lines.length with hnone | hsome
    · omega
    · obtain ⟨mapping, hmapping, -⟩ := hentries (lines.length - 1) _
        (List.getElem?_eq_getElem (by omega))
      have := (List.getElem?_eq_some_iff.mp hmapping).1
      omega
  · obtain ⟨mapping, hmapping, mapname, hname, hafter⟩ := hentries i line hline
    obtain ⟨shown, hshown, hshow⟩ := hshows i line hline
    obtain rfl : line.entry mapping mapname = shown := Option.some.inj (hafter.symm.trans hshown)
    obtain ⟨hfit, hend⟩ := (line.shows_iff mapping).mp ⟨mapname, hname, hshow⟩
    refine ⟨hfit, fun other hother => ?_⟩
    obtain rfl : mapping = other := Option.some.inj (hmapping.symm.trans hother)
    exact hend

theorem shows_of_fits (hroom : lines.length ≤ mappings.length)
    (hfit : ∀ (i : Nat) (line : MapsLine), lines[i]? = some line → line.FieldsFit ∧
      ∀ mapping ∈ mappings[i]?, line.EndsIn mapping) :
    ∃ after, parseLines lines mappings 0 = some (after, lines.length) ∧
      ∀ (i : Nat) (line : MapsLine), lines[i]? = some line →
        ∃ mapping, after[i]? = some mapping ∧ mapping.Shows line := by
  have hentry : ∀ (i : Nat) (line : MapsLine), lines[i]? = some line → ∃ mapping ∈ mappings[i]?,
      ∃ mapname ∈ line.found, (line.entry mapping mapname).Shows line := by
    intro i line hline
    have hi : i < mappings.length := by
      have := (List.getElem?_eq_some_iff.mp hline).1
      omega
    have hmapping : mappings[i]? = some mappings[i] := List.getElem?_eq_getElem hi
    obtain ⟨hfields, hend⟩ := hfit i line hline
    exact ⟨mappings[i], hmapping, (line.shows_iff _).mpr ⟨hfields, hend _ hmapping⟩⟩
  have hfound : ∀ line ∈ lines, ∃ mapname, line.found = some mapname := by
    intro line hline
    obtain ⟨i, hi⟩ := List.getElem?_of_mem hline
    obtain ⟨-, -, mapname, hname, -⟩ := hentry i line hi
    exact ⟨mapname, hname⟩
  have hroom' : 0 + lines.length ≤ mappings.length := by omega
  obtain ⟨after, hlines⟩ := parseLines_some lines hfound hroom'
  rw [Nat.zero_add] at hlines
  refine ⟨after, hlines, fun i line hline => ?_⟩
  obtain ⟨mapping, hmapping, mapname, hname, hshow⟩ := hentry i line hline
  obtain ⟨old, hold, name, hfound, hafter⟩ :=
    (parseLines_entries lines hlines).2.2 (Nat.zero_add _).symm i line hline
  rw [Nat.zero_add] at hold hafter
  obtain rfl : mapping = old := Option.some.inj (hmapping.symm.trans hold)
  obtain rfl : mapname = name := Option.some.inj (hname.symm.trans hfound)
  exact ⟨_, hafter, hshow⟩

end Shows

/-- `parse_maps` returns one mapping for each line, with what the line says, exactly if the array
has an entry for each, no device is wider than its buffer (or the text that moves into the place of
the pathname happens to be the same), and an entry whose pathname fills it ended in a NUL before. -/
theorem parseMaps_lists_iff (lines : List MapsLine)
    (hshort : ∀ line ∈ lines, line.text.length < 1024) (malloced : Option Block) :
    Lists lines (parseMaps (some (mapsText lines)) malloced) ↔
      lines.length ≤ (Block.mappings malloced).length ∧
        ∀ (i : Nat) (line : MapsLine), lines[i]? = some line → line.FieldsFit ∧
          ∀ mapping ∈ (Block.mappings malloced)[i]?, line.EndsIn mapping := by
  have hparse : parseMaps (some (mapsText lines)) malloced =
      match parseLines lines (Block.mappings malloced) 0 with
      | none => .undefined
      | some (mappings, count) => .returns mappings count :=
    parseLoop_text lines hshort _ 0 (Nat.lt_succ_self _)
  rw [hparse]
  constructor
  · rintro ⟨after, houtcome, hshows⟩
    refine fits_of_shows ?_ hshows
    cases hresult : parseLines lines (Block.mappings malloced) 0 with
    | none => simp [hresult] at houtcome
    | some state =>
        rw [hresult] at houtcome
        obtain ⟨rfl, hcount⟩ := Outcome.returns.inj houtcome
        exact congrArg some (Prod.ext rfl hcount)
  · rintro ⟨hroom, hfit⟩
    obtain ⟨after, hlines, hshows⟩ := shows_of_fits hroom hfit
    exact ⟨after, by rw [hlines], hshows⟩

/-- A line of a library on the device with this major number. -/
def libraryLine (major : List Byte) (hmajor : Digits 16 major) : MapsLine where
  start := bytes "00400000"
  stop := bytes "0040b000"
  perms := bytes "r--p"
  offset := bytes "00000000"
  major := major
  minor := bytes "02"
  inode := bytes "5"
  padding := 10
  pathname := some (bytes "/a")
  start_digits := ⟨by decide +kernel, by decide +kernel⟩
  start_le := by decide +kernel
  stop_digits := ⟨by decide +kernel, by decide +kernel⟩
  stop_le := by decide +kernel
  length_perms := by decide +kernel
  perms_letters := by decide +kernel
  offset_digits := ⟨by decide +kernel, by decide +kernel⟩
  major_digits := hmajor
  minor_digits := ⟨by decide +kernel, by decide +kernel⟩
  inode_digits := ⟨by decide +kernel, by decide +kernel⟩
  pathname_text := by
    rintro path ⟨rfl⟩
    decide +kernel

/-- A line whose device is `08:02`. -/
def diskLine : MapsLine := libraryLine (bytes "08") ⟨by decide +kernel, by decide +kernel⟩

/-- A line whose device is `103:02`. -/
def wideLine : MapsLine := libraryLine (bytes "103") ⟨by decide +kernel, by decide +kernel⟩

/-- An array of zeros. -/
def zeroBlock : Block where
  entries := List.replicate 1024 ⟨0, 0, List.replicate 256 0, List.length_replicate⟩
  length_entries := List.length_replicate

theorem parseMaps_lists_library :
    Lists [diskLine] (parseMaps (some (mapsText [diskLine])) (some zeroBlock)) := by
  refine (parseMaps_lists_iff _ (by decide +kernel) _).mpr ⟨?_, fun i line hline => ?_⟩
  · rw [show Block.mappings (some zeroBlock) = zeroBlock.entries from rfl,
      zeroBlock.length_entries]
    simp
  · cases i with
    | zero =>
        obtain rfl : diskLine = line := Option.some.inj hline
        refine ⟨Or.inl (by decide +kernel), fun mapping _ path hpath hlong => ?_⟩
        obtain rfl : bytes "/a" = path := Option.some.inj hpath
        exact absurd hlong (by decide +kernel)
    | succ i => simp at hline

/-- The pathname of the first entry. -/
def firstPathname : Outcome → Option (List Byte)
  | .returns mappings _ => mappings.head?.map fun mapping => cstr mapping.pathname
  | _ => none

/-- The last digit of `103:02` is read as the inode, and the inode as the start of the
pathname. -/
theorem parseMaps_not_lists_wide :
    ¬ Lists [wideLine] (parseMaps (some (mapsText [wideLine])) (some zeroBlock)) := by
  have hread : firstPathname (parseMaps (some (mapsText [wideLine])) (some zeroBlock)) =
      some (bytes "5           /a") := by
    decide +kernel
  rintro ⟨mappings, houtcome, hshows⟩
  obtain ⟨mapping, hmapping, -, -, hpathname⟩ := hshows 0 wideLine rfl
  rw [← List.head?_eq_getElem?] at hmapping
  rw [houtcome, firstPathname, hmapping, Option.map_some, hpathname] at hread
  have hne : wideLine.shown ≠ bytes "5           /a" := by decide +kernel
  exact hne (Option.some.inj hread)

end OperatingSystems.Pagemap
