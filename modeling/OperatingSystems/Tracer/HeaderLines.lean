import Mathlib.Data.List.Basic
import Mathlib.Data.List.DropRight
import Mathlib.Data.List.TakeWhile
import OperatingSystems.Tracer.SyscallNames

/-!
# The lines of a header file

A line defines a name if it is `#define`, the mark, the name and anything behind it, with or
without blanks in between; the number is what `strtoul` reads behind the name.

* `scanDefine_of_defines`, `scanDefine_of_not_defines` — what one call of `sscanf` finds.
* `scanLine_iff` — what both calls find.
* `loadSyscallNames_names` — what the list holds for a header file.
-/

namespace OperatingSystems.Tracer

/-- The line defines `name` behind this mark, and goes on with `rest`. -/
structure Defines (mark line name rest : List Byte) : Prop where
  name_ne : name ≠ []
  name_letters : ∀ b ∈ name, isSpace b = false
  rest_head : ∀ b ∈ rest.head?, isSpace b = true
  blanks : ∃ gap lead, (∀ b ∈ gap, isSpace b = true) ∧ (∀ b ∈ lead, isSpace b = true) ∧
    line = bytes "#define" ++ (gap ++ (mark ++ (lead ++ (name ++ rest))))

/-- The two marks. -/
def marks : List (List Byte) := [nrMark, nr3264Mark]

theorem nrMark_mem : nrMark ∈ marks := List.mem_cons_self

theorem nr3264Mark_mem : nr3264Mark ∈ marks := List.mem_cons_of_mem _ List.mem_cons_self

theorem isSpace_of_mem_marks : ∀ mark ∈ marks, mark ≠ [] ∧ ∀ b ∈ mark, isSpace b = false := by
  decide +kernel

section Scan

variable {mark line name rest : List Byte}

theorem head_isSpace_of_letters {s : List Byte} (hne : name ≠ [])
    (h : ∀ b ∈ name, isSpace b = false) : ∀ b ∈ (name ++ s).head?, isSpace b = false := by
  obtain ⟨b, name, rfl⟩ := List.exists_cons_of_ne_nil hne
  rintro c ⟨rfl⟩
  exact h b List.mem_cons_self

/-- The text of the format is read over. -/
theorem readText_define {r : List Byte} (hmark : ∀ b ∈ mark, isSpace b = false) :
    readText (bytes "#define " ++ mark) line = some r ↔
      ∃ s, line = bytes "#define" ++ s ∧ s.dropWhile isSpace = mark ++ r := by
  have hsplit : bytes "#define " ++ mark = bytes "#define" ++ 32 :: mark := rfl
  rw [hsplit, readText_append, Option.bind_eq_some_iff]
  refine exists_congr fun s => ?_
  rw [readText_eq_some_iff (by decide +kernel), readText, if_pos (by decide),
    readText_eq_some_iff hmark]

theorem defines_iff (hmem : mark ∈ marks) : Defines mark line name rest ↔
    name ≠ [] ∧ ∃ r, readText (bytes "#define " ++ mark) line = some r ∧
      (r.dropWhile isSpace).takeWhile (fun b => !isSpace b) = name ∧
      (r.dropWhile isSpace).dropWhile (fun b => !isSpace b) = rest := by
  obtain ⟨hne, hmark⟩ := isSpace_of_mem_marks mark hmem
  constructor
  · rintro ⟨hname, hletters, hrest, gap, lead, hgap, hlead, rfl⟩
    refine ⟨hname, lead ++ (name ++ rest), (readText_define hmark).mpr ⟨_, rfl, ?_⟩, ?_⟩
    · exact dropWhile_span hgap (head_isSpace_of_letters hne hmark)
    · rw [dropWhile_span hlead (head_isSpace_of_letters hname hletters)]
      exact ⟨takeWhile_span (by simpa using hletters) (by simpa using hrest),
        dropWhile_span (by simpa using hletters) (by simpa using hrest)⟩
  · rintro ⟨hname, r, hread, rfl, rfl⟩
    obtain ⟨s, rfl, hs⟩ := (readText_define hmark).mp hread
    refine ⟨hname, fun b hb => by simpa using List.mem_takeWhile_imp hb, fun b hb => ?_,
      s.takeWhile isSpace, r.takeWhile isSpace, fun b hb => List.mem_takeWhile_imp hb,
      fun b hb => List.mem_takeWhile_imp hb, ?_⟩
    · have hstop := List.head?_dropWhile_not (fun b => !isSpace b) (r.dropWhile isSpace)
      rw [hb] at hstop
      simpa using hstop
    · rw [List.takeWhile_append_dropWhile, List.takeWhile_append_dropWhile, ← hs,
        List.takeWhile_append_dropWhile]

theorem Defines.unique {name' rest' : List Byte} (hmem : mark ∈ marks)
    (h : Defines mark line name rest) (h' : Defines mark line name' rest') :
    name = name' ∧ rest = rest' := by
  obtain ⟨-, r, hread, rfl, rfl⟩ := (defines_iff hmem).mp h
  obtain ⟨-, r', hread', rfl, rfl⟩ := (defines_iff hmem).mp h'
  obtain rfl := Option.some.inj (hread.symm.trans hread')
  exact ⟨rfl, rfl⟩

/-- A line with one mark does not have the other. -/
theorem Defines.not_nr3264 {name' rest' : List Byte} (h : Defines nrMark line name rest) :
    ¬Defines nr3264Mark line name' rest' := by
  intro h'
  obtain ⟨-, r, hread, -⟩ := (defines_iff nrMark_mem).mp h
  obtain ⟨-, r', hread', -⟩ := (defines_iff nr3264Mark_mem).mp h'
  obtain ⟨s, rfl, hs⟩ := (readText_define (isSpace_of_mem_marks _ nrMark_mem).2).mp hread
  obtain ⟨s', heq, hs'⟩ := (readText_define (isSpace_of_mem_marks _ nr3264Mark_mem).2).mp hread'
  obtain rfl := List.append_cancel_left heq
  -- The fifth byte of the mark tells them apart.
  have hfifth : (nrMark ++ r)[4]? = (nr3264Mark ++ r')[4]? := by rw [← hs, ← hs']
  rw [List.getElem?_append_left (by decide +kernel),
    List.getElem?_append_left (by decide +kernel)] at hfifth
  revert hfifth
  decide +kernel

theorem sscanf_define (mark line : List Byte) : sscanf (defineFormat mark) line =
    ((readText (bytes "#define " ++ mark) line).map
      (sscanf [.word 64, .space, .number 10])).getD [] :=
  sscanf_readText _ _ _

/-- The number is looked for behind the name. -/
theorem sscanf_value (rest : List Byte) : sscanf [.space, .number 10] rest =
    ((strtoul 10 (rest.dropWhile isSpace)).map fun r => [Value.number r.1]).getD [] := by
  rw [sscanf, sscanf, List.dropWhile_idempotent]
  cases strtoul 10 (rest.dropWhile isSpace) with
  | none => rfl
  | some r => rfl

/-- What is found in a line that defines a name. -/
theorem scanDefine_of_defines (hmem : mark ∈ marks) (hline : 0 ∉ line)
    (h : Defines mark line name rest) : scanDefine mark line =
      if 64 ≤ name.length then none
      else some ((strtoul 10 (rest.dropWhile isSpace)).map fun r => (name, r.1)) := by
  obtain ⟨hname, r, hread, hword, hrest⟩ := (defines_iff hmem).mp h
  have hbehind : r.dropWhile isSpace = name ++ rest := by
    rw [← hword, ← hrest, List.takeWhile_append_dropWhile]
  rw [hbehind] at hword
  have hname64 (format : List Directive) : sscanf (.word 64 :: format) r =
      .text (name.take 64) :: sscanf format ((name ++ rest).drop (name.take 64).length) := by
    have hsome : name.take 64 ≠ [] := by simp [hname]
    rw [sscanf]
    simp only [hbehind, hword, if_neg hsome]
  rw [scanDefine, cstr_of_notMem hline, sscanf_define, hread, Option.map_some, Option.getD_some,
    hname64]
  by_cases hlong : 64 ≤ name.length
  · have hfull : 64 ≤ (name.take 64).length := by
      rw [List.length_take]
      omega
    rw [if_pos hlong]
    exact if_pos hfull
  · rw [List.take_of_length_le (by omega), List.drop_left, sscanf_value, if_neg hlong]
    refine (if_neg hlong).trans ?_
    cases strtoul 10 (rest.dropWhile isSpace) with
    | none => rfl
    | some r => rfl

/-- Nothing is found in other lines. -/
theorem scanDefine_of_not_defines (hmem : mark ∈ marks) (hline : 0 ∉ line)
    (h : ∀ name rest, ¬Defines mark line name rest) : scanDefine mark line = some none := by
  have hvalues : sscanf (defineFormat mark) line = [] := by
    rw [sscanf_define]
    cases hread : readText (bytes "#define " ++ mark) line with
    | none => rfl
    | some r =>
        rw [Option.map_some, Option.getD_some, sscanf]
        have hword : ((r.dropWhile isSpace).takeWhile fun b => !isSpace b) = [] := by
          by_contra hne
          exact h _ _ ((defines_iff hmem).mpr ⟨hne, r, hread, rfl, rfl⟩)
        simp only [hword, List.take_nil, if_true]
  rw [scanDefine, cstr_of_notMem hline, hvalues]

/-- The line defines `name` behind this mark as the name of call `num`. -/
def NamesAt (mark line : List Byte) (num : Nat) (name : List Byte) : Prop :=
  ∃ rest, Defines mark line name rest ∧
    (strtoul 10 (rest.dropWhile isSpace)).map Prod.fst = some num

/-- What one call finds in a line whose name fits. -/
theorem scanDefine_iff (hmem : mark ∈ marks) (hline : 0 ∉ line)
    (hfits : ∀ name rest, Defines mark line name rest → name.length < 64) :
    ∃ result, scanDefine mark line = some result ∧
      ∀ num name, NamesAt mark line num name ↔ result = some (name, num) := by
  by_cases hdefines : ∃ name rest, Defines mark line name rest
  · obtain ⟨name, rest, h⟩ := hdefines
    have hscan := scanDefine_of_defines hmem hline h
    rw [if_neg (Nat.not_le_of_lt (hfits name rest h))] at hscan
    refine ⟨_, hscan, fun num name' => ⟨fun ⟨rest', h', hnum⟩ => ?_, fun hresult => ?_⟩⟩
    · obtain ⟨rfl, rfl⟩ := h.unique hmem h'
      obtain ⟨r, hr, rfl⟩ := Option.map_eq_some_iff.mp hnum
      rw [hr]
      rfl
    · obtain ⟨r, hr, hpair⟩ := Option.map_eq_some_iff.mp hresult
      obtain ⟨rfl, rfl⟩ := Prod.mk.inj hpair
      exact ⟨rest, h, by rw [hr]; rfl⟩
  · have hnone : ∀ name rest, ¬Defines mark line name rest :=
      fun name rest h => hdefines ⟨name, rest, h⟩
    refine ⟨none, scanDefine_of_not_defines hmem hline hnone, fun num name => ?_⟩
    exact ⟨fun ⟨rest, h, _⟩ => absurd h (hnone name rest), nofun⟩

end Scan

/-! ### Both calls -/

/-- The line has a name that does not fit. -/
def Overflows (line : List Byte) : Prop :=
  ∃ mark ∈ marks, ∃ name rest, Defines mark line name rest ∧ 64 ≤ name.length

/-- The line defines `name` as the name of call `num`. -/
def Names (line : List Byte) (num : Nat) (name : List Byte) : Prop :=
  ∃ mark ∈ marks, NamesAt mark line num name

section Line

variable {line : List Byte}

theorem scanLine_of_overflows (hline : 0 ∉ line) (h : Overflows line) : scanLine line = none := by
  obtain ⟨mark, hmem, name, rest, hdefines, hlong⟩ := h
  have hscan := scanDefine_of_defines hmem hline hdefines
  rw [if_pos hlong] at hscan
  rcases List.mem_pair.mp hmem with rfl | rfl
  · rw [scanLine, hscan]
  · have hfirst : scanDefine nrMark line = some none :=
      scanDefine_of_not_defines nrMark_mem hline fun _ _ h' => h'.not_nr3264 hdefines
    rw [scanLine, hfirst]
    exact hscan

/-- What both calls find in a line whose name fits. -/
theorem scanLine_iff (hline : 0 ∉ line) (hfits : ¬Overflows line) :
    ∃ result, scanLine line = some result ∧
      ∀ num name, Names line num name ↔ result = some (name, num) := by
  have hshort {mark : List Byte} (hmem : mark ∈ marks) :
      ∀ name rest, Defines mark line name rest → name.length < 64 := by
    intro name rest h
    by_contra hlong
    exact hfits ⟨mark, hmem, name, rest, h, Nat.le_of_not_lt hlong⟩
  obtain ⟨first, hfirst, hfirst'⟩ := scanDefine_iff nrMark_mem hline (hshort nrMark_mem)
  obtain ⟨second, hsecond, hsecond'⟩ :=
    scanDefine_iff nr3264Mark_mem hline (hshort nr3264Mark_mem)
  have hnames (num : Nat) (name : List Byte) : Names line num name ↔
      NamesAt nrMark line num name ∨ NamesAt nr3264Mark line num name := by
    simp [Names, marks]
  cases first with
  | none =>
      refine ⟨second, by rw [scanLine, hfirst, hsecond], fun num name => ?_⟩
      rw [hnames, hfirst', hsecond']
      simp
  | some found =>
      refine ⟨some found, by rw [scanLine, hfirst], fun num name => ?_⟩
      -- A line with the first mark does not have the second.
      obtain ⟨rest, hdefines, -⟩ := (hfirst' found.2 found.1).mpr rfl
      rw [hnames, hfirst', or_iff_left fun ⟨_, h, _⟩ => hdefines.not_nr3264 h]

end Line

/-! ### The file -/

/-- A header file, line by line. -/
def headerText (lines : List (List Byte)) : List Byte :=
  lines.flatMap (· ++ [10])

/-- Line by line, as long as every name fits. -/
def loadLines (list : SyscallList) (lines : List (List Byte)) : Option SyscallList :=
  lines.foldlM (fun list line => loadLine list (line ++ [10])) list

/-- A line that the buffer has room for. -/
def Plain (line : List Byte) : Prop :=
  0 ∉ line ∧ 10 ∉ line ∧ line.length + 1 < 256

theorem loadLoop_headerText {lines : List (List Byte)} (hplain : ∀ line ∈ lines, Plain line)
    (list : SyscallList) {calls : Nat} (hcalls : (headerText lines).length < calls) :
    loadLoop calls list (headerText lines) =
      match loadLines list lines with
      | none => .undefined
      | some list => .returns list := by
  induction lines generalizing list calls with
  | nil =>
      obtain ⟨calls, rfl⟩ := Nat.exists_eq_add_of_lt hcalls
      rfl
  | cons line lines ih =>
      obtain ⟨⟨-, hnewline, hroom⟩, hlines⟩ := List.forall_mem_cons.mp hplain
      have htext : headerText (line :: lines) = line ++ 10 :: headerText lines := by
        simp [headerText]
      rw [htext, List.length_append, List.length_cons] at hcalls
      obtain ⟨calls, rfl⟩ : ∃ n, calls = n + 1 := ⟨calls - 1, by omega⟩
      rw [htext, loadLoop, fgets_line hnewline hroom, loadLines, List.foldlM_cons]
      dsimp only
      cases loadLine list (line ++ [10]) with
      | none => rfl
      | some list => exact ih hlines list (by omega)

/-! ### The names -/

theorem Names.notMem {line name : List Byte} {num : Nat} (h : Names line num name)
    (hline : 0 ∉ line) : 0 ∉ name := by
  obtain ⟨mark, -, rest, hdefines, -⟩ := h
  obtain ⟨gap, lead, -, -, rfl⟩ := hdefines.blanks
  simp only [List.mem_append, not_or] at hline
  exact hline.2.2.2.2.1

theorem Names.length_lt {line name : List Byte} {num : Nat} (h : Names line num name)
    (hfits : ¬Overflows line) : name.length < 64 := by
  obtain ⟨mark, hmem, rest, hdefines, -⟩ := h
  by_contra hlong
  exact hfits ⟨mark, hmem, name, rest, hdefines, Nat.le_of_not_lt hlong⟩

theorem Overflows.length_le {line : List Byte} (h : Overflows line) : 64 ≤ line.length := by
  obtain ⟨mark, -, name, rest, hdefines, hlong⟩ := h
  obtain ⟨gap, lead, -, -, rfl⟩ := hdefines.blanks
  simp only [List.length_append]
  omega

/-- What the list answers after one more line. -/
theorem loadLine_names {line : List Byte} (hline : 0 ∉ line) (hfits : ¬Overflows line)
    (list : SyscallList) : ∃ list', loadLine list line = some list' ∧ ∀ num < maxSyscalls,
      (∀ name, Names line num name → getSyscallName list' num = name) ∧
      ((∀ name, ¬Names line num name) → getSyscallName list' num = getSyscallName list num) := by
  obtain ⟨result, hscan, hnames⟩ := scanLine_iff hline hfits
  cases result with
  | none =>
      refine ⟨list, by rw [loadLine, hscan]; rfl, fun num _ => ⟨fun name h => ?_, fun _ => rfl⟩⟩
      cases (hnames num name).mp h
  | some found =>
      obtain ⟨word, n⟩ := found
      have hword : Names line n word := (hnames n word).mpr rfl
      by_cases hn : n < maxSyscalls
      · refine ⟨Function.update list ⟨n, hn⟩ ((list ⟨n, hn⟩).set word), ?_, fun num _ => ?_⟩
        · rw [loadLine, hscan, Option.map_some]
          dsimp only
          rw [dif_pos hn]
        · rw [getSyscallName_update list ⟨n, hn⟩ (hword.length_lt hfits) (hword.notMem hline)]
          refine ⟨fun name h => ?_, fun h => if_neg fun heq => ?_⟩
          · obtain ⟨rfl, rfl⟩ := Prod.mk.inj (Option.some.inj ((hnames num name).mp h))
            exact if_pos rfl
          · exact h word (heq ▸ hword)
      · refine ⟨list, ?_, fun num hnum => ⟨fun name h => ?_, fun _ => rfl⟩⟩
        · rw [loadLine, hscan, Option.map_some]
          dsimp only
          rw [dif_neg hn]
        · obtain ⟨rfl, rfl⟩ := Prod.mk.inj (Option.some.inj ((hnames num name).mp h))
          exact absurd hnum hn

/-- The last of the lines that define a name for `num` defines this one. -/
def LastNames (lines : List (List Byte)) (num : Nat) (name : List Byte) : Prop :=
  ∃ before line after, lines = before ++ line :: after ∧ Names (line ++ [10]) num name ∧
    ∀ line ∈ after, ∀ name, ¬Names (line ++ [10]) num name

theorem lastNames_cons {line : List Byte} {lines : List (List Byte)} {num : Nat}
    {name : List Byte} (h : LastNames (line :: lines) num name) :
    LastNames lines num name ∨ Names (line ++ [10]) num name ∧
      ∀ line ∈ lines, ∀ name, ¬Names (line ++ [10]) num name := by
  obtain ⟨before, last, after, hsplit, hlast, hafter⟩ := h
  cases before with
  | nil =>
      obtain ⟨rfl, rfl⟩ := List.cons.inj hsplit
      exact .inr ⟨hlast, hafter⟩
  | cons first before =>
      obtain ⟨rfl, rfl⟩ := List.cons.inj hsplit
      exact .inl ⟨before, last, after, rfl, hlast, hafter⟩

theorem Plain.notMem_newline {line : List Byte} (h : Plain line) : 0 ∉ line ++ [10] := by
  rw [List.mem_append, not_or]
  exact ⟨h.1, by decide⟩

/-- Line by line, from the first to the last. -/
theorem loadLines_names {lines : List (List Byte)} (hplain : ∀ line ∈ lines, Plain line)
    (hfits : ∀ line ∈ lines, ¬Overflows (line ++ [10])) (list : SyscallList) :
    ∃ list', loadLines list lines = some list' ∧ ∀ num < maxSyscalls,
      (∀ name, LastNames lines num name → getSyscallName list' num = name) ∧
      ((∀ line ∈ lines, ∀ name, ¬Names (line ++ [10]) num name) →
        getSyscallName list' num = getSyscallName list num) := by
  induction lines generalizing list with
  | nil =>
      refine ⟨list, rfl, fun num _ => ⟨fun name h => ?_, fun _ => rfl⟩⟩
      obtain ⟨before, line, after, hsplit, -⟩ := h
      cases (List.append_eq_nil_iff.mp hsplit.symm).2
  | cons line lines ih =>
      obtain ⟨hhead, htail⟩ := List.forall_mem_cons.mp hplain
      obtain ⟨hfit, hfits⟩ := List.forall_mem_cons.mp hfits
      obtain ⟨middle, hmiddle, hnow⟩ := loadLine_names hhead.notMem_newline hfit list
      obtain ⟨list', hload, hlater⟩ := ih htail hfits middle
      refine ⟨list', by rw [loadLines, List.foldlM_cons, hmiddle]; exact hload, ?_⟩
      intro num hnum
      constructor
      · intro name h
        rcases lastNames_cons h with h | ⟨h, hnone⟩
        · exact (hlater num hnum).1 name h
        · rw [(hlater num hnum).2 hnone]
          exact (hnow num hnum).1 name h
      · intro h
        obtain ⟨hline, hlines⟩ := List.forall_mem_cons.mp h
        rw [(hlater num hnum).2 hlines, (hnow num hnum).2 hline]

theorem loadLines_of_overflows {lines : List (List Byte)} (hplain : ∀ line ∈ lines, Plain line)
    (h : ∃ line ∈ lines, Overflows (line ++ [10])) (list : SyscallList) :
    loadLines list lines = none := by
  induction lines generalizing list with
  | nil => simp at h
  | cons line lines ih =>
      obtain ⟨hhead, htail⟩ := List.forall_mem_cons.mp hplain
      rw [loadLines, List.foldlM_cons]
      by_cases hfit : Overflows (line ++ [10])
      · rw [loadLine, scanLine_of_overflows hhead.notMem_newline hfit]
        rfl
      · obtain ⟨middle, hmiddle, -⟩ := loadLine_names hhead.notMem_newline hfit list
        rw [hmiddle]
        obtain ⟨long, hmem, hlong⟩ := h
        obtain hmem := (List.mem_cons.mp hmem).resolve_left fun heq => hfit (heq ▸ hlong)
        exact ih htail ⟨long, hmem, hlong⟩ middle

/-- A header file with a name that does not fit is undefined behaviour.  Without one the list holds
for each number the name of the last line that defines it, and nothing where no line does. -/
theorem loadSyscallNames_names {lines : List (List Byte)} (hplain : ∀ line ∈ lines, Plain line) :
    ((∃ line ∈ lines, Overflows (line ++ [10])) →
      loadSyscallNames syscallList (some (headerText lines)) = .undefined) ∧
    ((∀ line ∈ lines, ¬Overflows (line ++ [10])) →
      ∃ list, loadSyscallNames syscallList (some (headerText lines)) = .returns list ∧
        ∀ num,
          (maxSyscalls ≤ num → getSyscallName list num = bytes "unknown") ∧
          (num < maxSyscalls →
            (∀ name, LastNames lines num name → getSyscallName list num = name) ∧
            ((∀ line ∈ lines, ∀ name, ¬Names (line ++ [10]) num name) →
              getSyscallName list num = []))) := by
  have hload := loadLoop_headerText hplain syscallList (Nat.lt_succ_self _)
  constructor
  · intro h
    rw [loadLines_of_overflows hplain h] at hload
    exact hload
  · intro h
    obtain ⟨list, hlines, hnames⟩ := loadLines_names hplain h syscallList
    rw [hlines] at hload
    refine ⟨list, hload, fun num => ⟨fun hnum => ?_, fun hnum => ?_⟩⟩
    · rw [getSyscallName, dif_neg (Nat.not_lt_of_le hnum)]
    · refine ⟨(hnames num hnum).1, fun hnone => ?_⟩
      rw [(hnames num hnum).2 hnone, getSyscallName_syscallList hnum]

/-- A number that two lines define, with either mark. -/
def twoDefinitions : List (List Byte) :=
  [bytes "#define __NR_lseek 62", bytes "#define  __NR3264_llseek 62"]

theorem loadSyscallNames_names_twoDefinitions :
    ∃ list, loadSyscallNames syscallList (some (headerText twoDefinitions)) = .returns list ∧
      getSyscallName list 62 = bytes "llseek" := by
  have hplain : ∀ line ∈ twoDefinitions, Plain line := by
    simp only [Plain]
    decide +kernel
  have hshort : ∀ line ∈ twoDefinitions, (line ++ [10]).length < 64 := by decide +kernel
  obtain ⟨list, hload, hlist⟩ := (loadSyscallNames_names hplain).2 fun line hmem h =>
    absurd h.length_le (Nat.not_le_of_lt (hshort line hmem))
  refine ⟨list, hload, ((hlist 62).2 (by decide)).1 _ ?_⟩
  refine ⟨[bytes "#define __NR_lseek 62"], bytes "#define  __NR3264_llseek 62", [], rfl, ?_,
    nofun⟩
  refine ⟨nr3264Mark, nr3264Mark_mem, bytes " 62\n", ?_, by decide +kernel⟩
  exact ⟨by decide +kernel, by decide +kernel, by decide +kernel, bytes "  ", [],
    by decide +kernel, nofun, by decide +kernel⟩

end OperatingSystems.Tracer
