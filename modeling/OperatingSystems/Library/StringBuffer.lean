import OperatingSystems.Library.CString

/-!
# Building a string in a block of memory

`strcpy` and `strcat` into a block that `malloc` has returned: the block is the list of its
bytes, and a call that would write behind its end has no result.  What is passed as a string is
a buffer too, of which the functions use the bytes before the first NUL.

* `HoldsString` — a block of so many bytes has this string in it.
* `strcat_holds` — one `strcat`, `strcats_holds` — a run of them: no byte is written behind the
  end if the lengths of the strings fit.
-/

namespace OperatingSystems

/-- `strlen(s)`. -/
def strlen (s : List Byte) : Nat :=
  (cstr s).length

/-- `strcpy(block, s)`. -/
def strcpy (block s : List Byte) : Option (List Byte) :=
  if strlen s < block.length then some (cstr s ++ 0 :: block.drop (strlen s + 1)) else none

/-- `strcat(block, s)`: the NUL at the end of the string in the block is overwritten. -/
def strcat (block s : List Byte) : Option (List Byte) :=
  if strlen block + strlen s < block.length then
    some (cstr block ++ cstr s ++ 0 :: block.drop (strlen block + strlen s + 1))
  else none

/-- One `strcat` after the other. -/
def strcats (block : List Byte) (parts : List (List Byte)) : Option (List Byte) :=
  parts.foldlM strcat block

/-- A block of `size` bytes with the string `text` in it. -/
structure HoldsString (block text : List Byte) (size : Nat) : Prop where
  length : block.length = size
  ends : ∃ rest, block = text ++ 0 :: rest
  clean : 0 ∉ text

variable {block text s : List Byte} {size : Nat}

theorem notMem_cstr (s : List Byte) : 0 ∉ cstr s := by
  intro hmem
  exact absurd (List.mem_takeWhile_imp hmem) (by decide)

theorem HoldsString.cstr_eq (h : HoldsString block text size) : cstr block = text := by
  obtain ⟨rest, rfl⟩ := h.ends
  unfold cstr
  rw [takeWhile_append_notMem h.clean]
  simp

theorem strcpy_holds (hblock : block.length = size) (hfits : strlen s < size) :
    ∃ block', strcpy block s = some block' ∧ HoldsString block' (cstr s) size := by
  unfold strcpy
  rw [if_pos (by omega)]
  refine ⟨_, rfl, ?_, ⟨_, rfl⟩, notMem_cstr s⟩
  unfold strlen at *
  simp only [List.length_append, List.length_cons, List.length_drop]
  omega

/-- The string grows by what is appended, and the block stays as large as it is. -/
theorem strcat_holds (h : HoldsString block text size) (hfits : text.length + strlen s < size) :
    ∃ block', strcat block s = some block' ∧ HoldsString block' (text ++ cstr s) size := by
  have hlength := h.length
  have hstrlen : strlen block = text.length := congrArg List.length h.cstr_eq
  unfold strcat
  rw [if_pos (by omega), h.cstr_eq, hstrlen]
  refine ⟨_, rfl, ?_, ⟨_, rfl⟩, ?_⟩
  · unfold strlen at *
    simp only [List.length_append, List.length_cons, List.length_drop]
    omega
  · rw [List.mem_append, not_or]
    exact ⟨h.clean, notMem_cstr s⟩

theorem strcats_append (block : List Byte) (parts more : List (List Byte)) :
    strcats block (parts ++ more) = (strcats block parts).bind fun block' => strcats block' more :=
  List.foldlM_append

@[simp] theorem strcats_singleton (block s : List Byte) : strcats block [s] = strcat block s := by
  unfold strcats
  simp

/-- No call of the run writes behind the end of the block if all strings fit into it together. -/
theorem strcats_holds {parts : List (List Byte)} (h : HoldsString block text size)
    (hfits : text.length + (parts.map strlen).sum < size) :
    ∃ block', strcats block parts = some block' ∧ HoldsString block' (text ++ parts.flatMap cstr) size := by
  induction parts generalizing block text with
  | nil =>
      refine ⟨block, rfl, ?_⟩
      rw [List.flatMap_nil, List.append_nil]
      exact h
  | cons s parts ih =>
      rw [List.map_cons, List.sum_cons] at hfits
      obtain ⟨next, hnext, hholds⟩ := strcat_holds (s := s) h (by omega)
      have hlength : (text ++ cstr s).length = text.length + strlen s := List.length_append
      obtain ⟨block', hrest, hresult⟩ := ih hholds (by omega)
      refine ⟨block', ?_, ?_⟩
      · change (strcat block s).bind (fun next => strcats next parts) = some block'
        rw [hnext, Option.bind_some, hrest]
      · rw [List.flatMap_cons, ← List.append_assoc]
        exact hresult

/-- What a run of calls appends is as long as the strings together. -/
theorem length_flatMap_cstr (parts : List (List Byte)) :
    (parts.flatMap cstr).length = (parts.map strlen).sum := by
  rw [List.length_flatMap]
  rfl

end OperatingSystems
