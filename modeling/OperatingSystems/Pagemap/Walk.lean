import OperatingSystems.Library.StringBuffer
import OperatingSystems.Pagemap.Lines
import OperatingSystems.Pagemap.ReadPagemap

/-!
# The walk through the pages

* `walkAll` — one line after the other for a list of pages; `walkMappings_eq` — this is what the
  two loops do when no address wraps around.
* `walkAll_walked` — the lines are those of the first pages, and the walk ends with an entry that
  cannot be read or behind the last page.
* `readPagemap_ends_iff` — when the walk ends at all.
* `mainWalk_prints` — from the text of the maps file to the lines.
-/

namespace OperatingSystems.Pagemap

variable {pagemap : PagemapFile} {pageSize : Nat}

/-! ### Pages -/

/-- How many pages begin between two addresses. -/
def pageCount (pageSize start stop : Nat) : Nat := (stop - start + pageSize - 1) / pageSize

/-- The addresses of the pages of a mapping. -/
def Mapping.pages (pageSize : Nat) (mapping : Mapping) : List Nat :=
  List.range' mapping.start (pageCount pageSize mapping.start mapping.stop) pageSize

/-- The pages of the mappings, each with the pathname that it is printed with. -/
def visits (pageSize : Nat) (mappings : List Mapping) : List (Nat × List Byte) :=
  mappings.flatMap fun mapping => (mapping.pages pageSize).map (·, cstr mapping.pathname)

/-- One line for each of these pages, up to the first that cannot be read. -/
def walkAll (pagemap : PagemapFile) (pageSize : Nat) :
    List (Nat × List Byte) → List (List Byte) → Walk
  | [], lines => .returns lines
  | (addr, pathname) :: visits, lines =>
      match pagemap lines.length (entryOffset pageSize addr) with
      | none => .exits lines
      | some entry => walkAll pagemap pageSize visits (lines ++ [printEntry addr entry pathname])

theorem pageCount_of_le {start stop : Nat} (hpos : 0 < pageSize) (h : stop ≤ start) :
    pageCount pageSize start stop = 0 := by
  rw [pageCount, Nat.sub_eq_zero_of_le h, Nat.zero_add]
  exact Nat.div_eq_of_lt (Nat.sub_lt hpos Nat.one_pos)

theorem pageCount_of_lt {start stop : Nat} (hpos : 0 < pageSize) (h : start < stop) :
    pageCount pageSize start stop = pageCount pageSize (start + pageSize) stop + 1 := by
  rw [pageCount, pageCount, show stop - start + pageSize - 1 = stop - start - 1 + pageSize by omega,
    Nat.add_div_right _ hpos]
  rcases Nat.lt_or_ge (stop - start - 1) pageSize with hlast | hmore
  · rw [show stop - (start + pageSize) + pageSize - 1 = pageSize - 1 by omega,
      Nat.div_eq_of_lt hlast, Nat.div_eq_of_lt (by omega)]
  · rw [show stop - (start + pageSize) + pageSize - 1 = stop - start - 1 by omega]

/-- Only the string in the buffer is printed. -/
theorem printEntry_cstr (addr : Nat) (entry : BitVec 64) (pathname : List Byte) :
    printEntry addr entry (cstr pathname) = printEntry addr entry pathname := by
  rw [printEntry, cstr_of_notMem (notMem_cstr pathname), printEntry]

theorem walkAll_append (first second : List (Nat × List Byte)) (lines : List (List Byte)) :
    walkAll pagemap pageSize (first ++ second) lines =
      match walkAll pagemap pageSize first lines with
      | .returns lines => walkAll pagemap pageSize second lines
      | walk => walk := by
  induction first generalizing lines with
  | nil => rfl
  | cons visit first ih =>
      obtain ⟨addr, pathname⟩ := visit
      simp only [List.cons_append, walkAll]
      cases pagemap lines.length (entryOffset pageSize addr) with
      | none => rfl
      | some entry => exact ih _

/-- The loop over the pages, from an address from which none wraps around. -/
theorem walkPages_eq (hpos : 0 < pageSize) {mapping : Mapping}
    (hstop : mapping.stop + pageSize ≤ 2 ^ 64) {tests : Nat} (addr : Nat) (lines : List (List Byte))
    (htests : pageCount pageSize addr mapping.stop < tests) :
    walkPages pagemap pageSize mapping tests addr lines = walkAll pagemap pageSize
      ((List.range' addr (pageCount pageSize addr mapping.stop) pageSize).map
        (·, cstr mapping.pathname)) lines := by
  induction tests generalizing addr lines with
  | zero => omega
  | succ tests ih =>
      rw [walkPages]
      split
      case isTrue hlt =>
          have hnext : (addr + pageSize) % 2 ^ 64 = addr + pageSize := Nat.mod_eq_of_lt (by omega)
          rw [pageCount_of_lt hpos hlt] at htests ⊢
          rw [List.range'_succ, List.map_cons, walkAll]
          cases pagemap lines.length (entryOffset pageSize addr) with
          | none => rfl
          | some entry =>
              simp only [hnext, printEntry_cstr]
              exact ih _ _ (by omega)
      case isFalse hle =>
          rw [pageCount_of_le hpos (Nat.le_of_not_lt hle)]
          rfl

theorem walkMappings_eq (hpos : 0 < pageSize) {tests : Nat} {mappings : List Mapping}
    (hmappings : ∀ mapping ∈ mappings, mapping.stop + pageSize ≤ 2 ^ 64 ∧
      (mapping.pages pageSize).length < tests) (lines : List (List Byte)) :
    walkMappings pagemap pageSize tests mappings lines =
      walkAll pagemap pageSize (visits pageSize mappings) lines := by
  induction mappings generalizing lines with
  | nil => rfl
  | cons mapping mappings ih =>
      obtain ⟨⟨hstop, htests⟩, hmappings⟩ := List.forall_mem_cons.mp hmappings
      rw [Mapping.pages, List.length_range'] at htests
      rw [walkMappings, walkPages_eq hpos hstop _ _ htests, visits, List.flatMap_cons,
        walkAll_append, Mapping.pages]
      cases walkAll pagemap pageSize ((List.range' mapping.start
        (pageCount pageSize mapping.start mapping.stop) pageSize).map (·, cstr mapping.pathname))
        lines with
      | returns lines => exact ih hmappings lines
      | running lines => rfl
      | exits lines => rfl

/-! ### What is printed -/

/-- The lines belong to the first of these pages: each page was read at its own entry, and its line
says what was found there. -/
def Prints (pagemap : PagemapFile) (pageSize : Nat) (visits : List (Nat × List Byte))
    (lines : List (List Byte)) : Prop :=
  ∀ (i : Nat) (line : List Byte), lines[i]? = some line → ∃ addr pathname entry,
    visits[i]? = some (addr, pathname) ∧
      pagemap i (entryOffset pageSize addr) = some entry ∧ line = printEntry addr entry pathname

/-- All pages were printed, or those in front of the first that could not be read. -/
inductive Walked (pagemap : PagemapFile) (pageSize : Nat) (visits : List (Nat × List Byte)) :
    Walk → Prop
  | returns (lines : List (List Byte)) (prints : Prints pagemap pageSize visits lines)
      (all : lines.length = visits.length) : Walked pagemap pageSize visits (.returns lines)
  | exits (lines : List (List Byte)) (prints : Prints pagemap pageSize visits lines)
      (addr : Nat) (pathname : List Byte) (next : visits[lines.length]? = some (addr, pathname))
      (fails : pagemap lines.length (entryOffset pageSize addr) = none) :
      Walked pagemap pageSize visits (.exits lines)

/-- The pages behind those that are printed. -/
theorem walkAll_walked (before rest : List (Nat × List Byte)) {lines : List (List Byte)}
    (hlength : lines.length = before.length)
    (hprints : Prints pagemap pageSize (before ++ rest) lines) :
    Walked pagemap pageSize (before ++ rest) (walkAll pagemap pageSize rest lines) := by
  induction rest generalizing before lines with
  | nil => exact .returns lines hprints (by rw [hlength, List.append_nil])
  | cons visit rest ih =>
      obtain ⟨addr, pathname⟩ := visit
      have hnext : (before ++ (addr, pathname) :: rest)[lines.length]? = some (addr, pathname) := by
        rw [hlength, List.getElem?_append_right le_rfl, Nat.sub_self, List.getElem?_cons_zero]
      rw [walkAll]
      cases hread : pagemap lines.length (entryOffset pageSize addr) with
      | none => exact .exits lines hprints addr pathname hnext hread
      | some entry =>
          rw [List.append_cons] at hnext hprints ⊢
          refine ih _ (by simp [hlength]) fun i line hline => ?_
          rcases Nat.lt_or_ge i lines.length with hlt | hge
          · rw [List.getElem?_append_left hlt] at hline
            exact hprints i line hline
          · rw [List.getElem?_append_right hge, List.getElem?_singleton] at hline
            obtain ⟨hzero, hlast⟩ := Option.ite_none_right_eq_some.mp hline
            obtain rfl : i = lines.length := by omega
            exact ⟨addr, pathname, entry, hnext, hread, (Option.some.inj hlast).symm⟩

/-- The walk prints one line for each page of each mapping, in the order of the addresses, from the
entry of the page, and it ends at the first entry that cannot be read. -/
theorem readPagemap_walks (pagemap : PagemapFile) (hpos : 0 < pageSize) {tests count : Nat}
    {mappings : List Mapping} (hmappings : ∀ mapping ∈ mappings.take count,
      mapping.stop + pageSize ≤ 2 ^ 64 ∧ (mapping.pages pageSize).length < tests) :
    Walked pagemap pageSize (visits pageSize (mappings.take count))
      (readPagemap (some pagemap) pageSize tests mappings count) := by
  rw [readPagemap, walkMappings_eq hpos hmappings]
  exact walkAll_walked [] _ rfl nofun

/-- Two pages of a file `x`. -/
def twoPages : Mapping := ⟨4096, 12288, 120 :: List.replicate 255 0,
  by rw [List.length_cons, List.length_replicate]⟩

/-- The second page cannot be read. -/
theorem readPagemap_walks_fails : Walked (fun k _ => if k = 0 then some 7 else none) 4096
    (visits 4096 ([twoPages].take 1)) (readPagemap
      (some fun k _ => if k = 0 then some 7 else none) 4096 3 [twoPages] 1) :=
  readPagemap_walks _ (by decide) (by decide +kernel)

/-! ### Whether the walk ends -/

/-- Behind the last page of the address space the walk begins at its first again. -/
theorem walkPages_runs (hreads : ∀ k offset, (pagemap k offset).isSome = true)
    (hwrap : pageSize ∣ 2 ^ 64) {mapping : Mapping} (hstop : 2 ^ 64 < mapping.stop + pageSize)
    (tests : Nat) {addr : Nat} (haligned : pageSize ∣ addr) (haddr : addr < 2 ^ 64)
    (lines : List (List Byte)) :
    ∃ printed, walkPages pagemap pageSize mapping tests addr lines = .running printed := by
  induction tests generalizing addr lines with
  | zero => exact ⟨lines, rfl⟩
  | succ tests ih =>
      have hlast : addr + pageSize ≤ 2 ^ 64 := by
        have hgap : pageSize ≤ 2 ^ 64 - addr :=
          Nat.le_of_dvd (by omega) ((Nat.dvd_sub_iff_right haddr.le hwrap).mpr haligned)
        omega
      have hnext : pageSize ∣ (addr + pageSize) % 2 ^ 64 :=
        (Nat.dvd_mod_iff hwrap).mpr (Nat.dvd_add haligned (dvd_refl _))
      obtain ⟨entry, hentry⟩ := Option.isSome_iff_exists.mp (hreads lines.length
        (entryOffset pageSize addr))
      rw [walkPages, if_pos (by omega), hentry]
      exact ih hnext (Nat.mod_lt _ (by decide)) _

theorem walkMappings_returns (hreads : ∀ k offset, (pagemap k offset).isSome = true)
    (hwrap : pageSize ∣ 2 ^ 64) {mappings : List Mapping}
    (haligned : ∀ mapping ∈ mappings, pageSize ∣ mapping.start ∧
      mapping.start < mapping.stop ∧ mapping.stop < 2 ^ 64)
    {tests : Nat} {lines printed : List (List Byte)}
    (hreturns : walkMappings pagemap pageSize tests mappings lines = .returns printed) :
    ∀ mapping ∈ mappings, mapping.stop + pageSize ≤ 2 ^ 64 := by
  induction mappings generalizing lines with
  | nil => nofun
  | cons mapping mappings ih =>
      obtain ⟨⟨hstart, hlt, hstop⟩, haligned⟩ := List.forall_mem_cons.mp haligned
      rw [walkMappings] at hreturns
      refine List.forall_mem_cons.mpr ⟨?_, ?_⟩
      · by_contra hlast
        obtain ⟨out, hruns⟩ := walkPages_runs hreads hwrap (Nat.lt_of_not_le hlast) tests hstart
          (hlt.trans hstop) lines
        rw [hruns] at hreturns
        cases hreturns
      · split at hreturns
        case h_1 => exact ih haligned hreturns
        case h_2 hother => exact absurd hreturns (hother _)

theorem walkAll_returns (hreads : ∀ k offset, (pagemap k offset).isSome = true)
    (visits : List (Nat × List Byte)) (lines : List (List Byte)) :
    ∃ printed, walkAll pagemap pageSize visits lines = .returns printed := by
  induction visits generalizing lines with
  | nil => exact ⟨lines, rfl⟩
  | cons visit visits ih =>
      obtain ⟨entry, hentry⟩ := Option.isSome_iff_exists.mp (hreads lines.length
        (entryOffset pageSize visit.1))
      simp only [walkAll, hentry]
      exact ih _

/-- When every entry can be read, the walk comes to its end unless a mapping ends in the last page
of the address space: there the address wraps around and the mapping is begun again. -/
theorem readPagemap_ends_iff (hreads : ∀ k offset, (pagemap k offset).isSome = true)
    (hpos : 0 < pageSize) (hwrap : pageSize ∣ 2 ^ 64) {mappings : List Mapping} {count : Nat}
    (haligned : ∀ mapping ∈ mappings.take count, pageSize ∣ mapping.start ∧
      mapping.start < mapping.stop ∧ mapping.stop < 2 ^ 64) :
    (∃ tests lines, readPagemap (some pagemap) pageSize tests mappings count = .returns lines) ↔
      ∀ mapping ∈ mappings.take count, mapping.stop + pageSize ≤ 2 ^ 64 := by
  constructor
  · rintro ⟨tests, lines, hreturns⟩
    exact walkMappings_returns hreads hwrap haligned hreturns
  · intro hstop
    have htests : ∀ mapping ∈ mappings.take count,
        (mapping.pages pageSize).length < 2 ^ 64 := by
      intro mapping hmem
      have hle := Nat.div_le_self (mapping.stop - mapping.start + pageSize - 1) pageSize
      have hbound := hstop mapping hmem
      rw [Mapping.pages, List.length_range', pageCount]
      omega
    obtain ⟨printed, hprinted⟩ := walkAll_returns hreads (visits pageSize (mappings.take count)) []
    refine ⟨2 ^ 64, printed, ?_⟩
    rw [readPagemap, walkMappings_eq hpos fun mapping hmem =>
      ⟨hstop mapping hmem, htests mapping hmem⟩]
    exact hprinted

theorem readPagemap_ends_iff_twoPages : ∃ tests lines,
    readPagemap (some fun _ _ => some 7) 4096 tests [twoPages] 1 = .returns lines :=
  (readPagemap_ends_iff (fun _ _ => rfl) (by decide) (by decide) (by decide +kernel)).mpr
    (by decide +kernel)

/-! ### From the maps file -/

/-- The pages of the mappings that the lines stand for, each with the pathname that is shown. -/
def lineVisits (pageSize : Nat) (lines : List MapsLine) : List (Nat × List Byte) :=
  lines.flatMap fun line => (List.range' (numberOf 16 line.start)
    (pageCount pageSize (numberOf 16 line.start) (numberOf 16 line.stop)) pageSize).map
      (·, line.shown)

/-- Mappings that show the lines have their pages. -/
theorem visits_eq {lines : List MapsLine} {mappings : List Mapping}
    (hlength : lines.length ≤ mappings.length)
    (hshows : ∀ (i : Nat) (line : MapsLine), lines[i]? = some line →
      ∃ mapping, mappings[i]? = some mapping ∧ mapping.Shows line) :
    visits pageSize (mappings.take lines.length) = lineVisits pageSize lines := by
  have hpages : (mappings.take lines.length).map (fun mapping =>
      (mapping.pages pageSize).map (·, cstr mapping.pathname)) =
      lines.map fun line => (List.range' (numberOf 16 line.start)
        (pageCount pageSize (numberOf 16 line.start) (numberOf 16 line.stop)) pageSize).map
          (·, line.shown) := by
    refine List.ext_getElem (by simpa using hlength) fun i hi hi' => ?_
    rw [List.length_map] at hi'
    obtain ⟨mapping, hmapping, hstart, hstop, hpathname⟩ :=
      hshows i lines[i] (List.getElem?_eq_getElem hi')
    obtain ⟨hlt, hmapping⟩ := List.getElem?_eq_some_iff.mp hmapping
    simp only [List.getElem_map, List.getElem_take, hmapping, Mapping.pages, hstart, hstop,
      hpathname]
  rw [visits, lineVisits, List.flatMap_def, List.flatMap_def, hpages]

/-- For a maps file whose lines are all shown, the program prints a line for each page of each
mapping, in the order of the file, with the pathname of its line, up to the first entry that cannot
be read. -/
theorem mainWalk_prints {proc : Proc} {argument : List Byte} {lines : List MapsLine}
    {pagemap : PagemapFile} {malloced : Option Block} {tests : Nat} (hpos : 0 < pageSize)
    (hmaps : proc.maps (procPath argument (bytes "maps")) = some (mapsText lines))
    (hpagemap : proc.pagemap (procPath argument (bytes "pagemap")) = some pagemap)
    (hshort : ∀ line ∈ lines, line.text.length < 1024)
    (hroom : lines.length ≤ (Block.mappings malloced).length)
    (hfit : ∀ (i : Nat) (line : MapsLine), lines[i]? = some line → line.FieldsFit ∧
      ∀ mapping ∈ (Block.mappings malloced)[i]?, line.EndsIn mapping)
    (hpages : ∀ line ∈ lines, numberOf 16 line.stop + pageSize ≤ 2 ^ 64 ∧
      pageCount pageSize (numberOf 16 line.start) (numberOf 16 line.stop) < tests) :
    ∃ walk, mainWalk proc pageSize tests malloced argument = some walk ∧
      Walked pagemap pageSize (lineVisits pageSize lines) walk := by
  obtain ⟨after, hlines, hshows⟩ := shows_of_fits hroom hfit
  have hparse : parseMaps (some (mapsText lines)) malloced = .returns after lines.length := by
    rw [parseMaps, parseLoop_text lines hshort _ 0 (Nat.lt_succ_self _), hlines]
  have hlength : lines.length ≤ after.length := by
    by_contra hshorter
    obtain ⟨mapping, hmapping, -⟩ := hshows after.length lines[after.length]
      (List.getElem?_eq_getElem (Nat.lt_of_not_le hshorter))
    rw [List.getElem?_eq_none le_rfl] at hmapping
    cases hmapping
  refine ⟨readPagemap (some pagemap) pageSize tests after lines.length, ?_, ?_⟩
  · rw [mainWalk, hmaps, hparse, hpagemap]
  · rw [← visits_eq hlength hshows]
    refine readPagemap_walks pagemap hpos fun mapping hmem => ?_
    obtain ⟨i, hi, rfl⟩ := List.mem_take_iff_getElem.mp hmem
    have hline : i < lines.length := by omega
    obtain ⟨shown, hshown, hstart, hstop, -⟩ :=
      hshows i lines[i] (List.getElem?_eq_getElem hline)
    obtain ⟨hlt, rfl⟩ := List.getElem?_eq_some_iff.mp hshown
    rw [Mapping.pages, List.length_range', hstart, hstop]
    exact hpages lines[i] (List.getElem_mem hline)

theorem mainWalk_prints_library : ∃ walk,
    mainWalk ⟨fun _ => some (mapsText [diskLine]), fun _ => some fun _ _ => some 7⟩ 4096 12
      (some zeroBlock) (bytes "self") = some walk ∧
    Walked (fun _ _ => some 7) 4096 (lineVisits 4096 [diskLine]) walk := by
  refine mainWalk_prints (by decide) rfl rfl (by decide +kernel) ?_ (fun i line hline => ?_)
    (by decide +kernel)
  · rw [show Block.mappings (some zeroBlock) = zeroBlock.entries from rfl,
      zeroBlock.length_entries]
    simp
  · cases i with
    | zero =>
        obtain rfl : diskLine = line := Option.some.inj hline
        refine ⟨Or.inl (by decide +kernel), fun mapping _ path hpath hlong => ?_⟩
        obtain rfl : bytes "/a" = path := Option.some.inj hpath
        exact absurd hlong (by decide +kernel)
    | succ i => simp at hline

end OperatingSystems.Pagemap
