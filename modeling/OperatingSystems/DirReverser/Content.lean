import OperatingSystems.DirReverser.Reverse

/-!
# The content of a file

`copyContent` reads the source from its end, block by block, turns every block round in the buffer
and writes it behind the others.  `fileSize` returns its error `FSEEK_ERROR`, which is 2, as it
returns a size, so a file of two bytes is taken for a failure and nothing is copied.

* `reverseBuffer_eq` — the swaps turn the buffer round.
* `copyLoop_content` — what the loop writes.
* `copyContent_reverses_iff` — when the destination gets the bytes of the source in reverse order.
-/

namespace OperatingSystems
namespace DirReverser

open Files

/-! ### One block -/

section Buffer

variable {buffer : List Byte} {i j k : Nat}

theorem length_swapBytes : (swapBytes buffer i j).length = buffer.length := by
  simp [swapBytes]

/-- Two bytes change places. -/
theorem getElem?_swapBytes (hi : i < buffer.length) (hj : j < buffer.length) :
    (swapBytes buffer i j)[k]? =
      if k = j then buffer[i]? else if k = i then buffer[j]? else buffer[k]? := by
  unfold swapBytes
  rw [List.getElem?_set, List.length_set, List.getElem?_set]
  by_cases hkj : j = k
  · subst hkj
    rw [if_pos rfl, if_pos hj, if_pos rfl, List.getD_eq_getElem?_getD,
      List.getElem?_eq_getElem hi]
    rfl
  · rw [if_neg hkj, if_neg (Ne.symm hkj)]
    by_cases hki : i = k
    · subst hki
      rw [if_pos rfl, if_pos hi, if_pos rfl, List.getD_eq_getElem?_getD,
        List.getElem?_eq_getElem hj]
      rfl
    · rw [if_neg hki, if_neg (Ne.symm hki)]

/-- After `rounds` swaps the bytes at both ends stand where they belong. -/
theorem getElem?_swaps (buffer : List Byte) {rounds : Nat} (hrounds : rounds ≤ buffer.length / 2)
    (k : Nat) :
    let swapped := (List.range rounds).foldl
      (fun b i => swapBytes b i (buffer.length - i - 1)) buffer
    swapped.length = buffer.length ∧
      (k < buffer.length → swapped[k]? =
        if k < rounds ∨ buffer.length - rounds ≤ k then buffer[buffer.length - 1 - k]?
        else buffer[k]?) := by
  induction rounds generalizing k with
  | zero =>
      refine ⟨rfl, fun hk => ?_⟩
      rw [if_neg (by omega)]
      rfl
  | succ rounds ih =>
      have hlength := (ih (by omega) 0).1
      -- The two bytes of this round are still where they were.
      have hfront := (ih (by omega) rounds).2 (by omega)
      have hback := (ih (by omega) (buffer.length - rounds - 1)).2 (by omega)
      rw [if_neg (by omega)] at hfront hback
      simp only [List.range_succ, List.foldl_append, List.foldl_cons, List.foldl_nil]
      refine ⟨length_swapBytes.trans hlength, fun hk => ?_⟩
      rw [getElem?_swapBytes (by omega) (by omega), hfront, hback, (ih (by omega) k).2 hk]
      by_cases hkback : k = buffer.length - rounds - 1
      · rw [if_pos hkback, if_pos (by omega)]
        congr 1
        omega
      · rw [if_neg hkback]
        by_cases hkfront : k = rounds
        · rw [if_pos hkfront, if_pos (by omega)]
          congr 1
          omega
        · rw [if_neg hkfront]
          by_cases hdone : k < rounds ∨ buffer.length - rounds ≤ k
          · rw [if_pos hdone, if_pos (by omega)]
          · rw [if_neg hdone, if_neg (by omega)]

/-- Half as many swaps as there are bytes turn the buffer round. -/
theorem reverseBuffer_eq (buffer : List Byte) : reverseBuffer buffer = buffer.reverse := by
  apply List.ext_getElem?
  intro k
  obtain ⟨hlength, hswaps⟩ := getElem?_swaps buffer (le_refl (buffer.length / 2)) k
  by_cases hk : k < buffer.length
  · rw [reverseBuffer, hswaps hk, List.getElem?_reverse hk]
    split
    · rfl
    · next hmiddle =>
      congr 1
      omega
  · have hlen : (reverseBuffer buffer).length = buffer.length := hlength
    rw [List.getElem?_eq_none (by omega), List.getElem?_eq_none (by simpa using hk)]

end Buffer

/-! ### The file -/

variable {env : Env} {s : System} {f g : Nat}

/-- No call from now on fails. -/
def Succeeds (env : Env) (s : System) : Prop :=
  ∀ call, s.calls ≤ call → env.refuses call = false

/-- One block is read at the end of what remains, and written turned round. -/
theorem copyLoop_succ (f g fuel : Nat) (hok : Succeeds env s) {remaining : Nat}
    (hpos : 0 < remaining) (hsize : remaining ≤ (s.files.content f).length) :
    ∃ pos block, pos + block = remaining ∧ 0 < block ∧
      copyLoop env f g (fuel + 1) remaining s =
        copyLoop env f g fuel pos ⟨s.files.write g
          (s.files.content g ++ (((s.files.content f).drop pos).take block).reverse),
            s.calls + 3⟩ := by
  obtain ⟨block, hblock⟩ : ∃ block, block = if remaining ≥ bufSize then bufSize else remaining :=
    ⟨_, rfl⟩
  have hbuf : bufSize = 1024 := rfl
  have hle : block ≤ remaining := by
    split at hblock <;> omega
  refine ⟨remaining - block, block, by omega, by split at hblock <;> omega, ?_⟩
  have hseek : s.fseek env = (true, s.after s.files) := System.fseek_eq (hok _ (le_refl _))
  have hread : (s.after s.files).fread env f (remaining - block) block =
      (some (((s.files.content f).drop (remaining - block)).take block),
        (s.after s.files).after s.files) :=
    System.fread_eq (hok _ (Nat.le_succ _)) (by show _ ≤ (s.files.content f).length; omega)
  have hwrite : ∀ bytes, ((s.after s.files).after s.files).fwrite env g bytes =
      (true, ⟨s.files.write g (s.files.content g ++ bytes), s.calls + 3⟩) := fun bytes =>
    System.fwrite_eq (hok _ (by show s.calls ≤ s.calls + 1 + 1; omega))
  rw [copyLoop, if_neg (by omega), ← hblock]
  simp only [hseek, hread, hwrite, reverseBuffer_eq]

/-- The loop writes the first `remaining` bytes of the source, from the last to the first. -/
theorem copyLoop_content (hfg : f = g → (s.files.content f) = []) {fuel remaining : Nat}
    (hok : Succeeds env s) (hg : s.files.isFile g = true) (hfuel : remaining ≤ fuel)
    (hsize : remaining ≤ (s.files.content f).length) :
    (copyLoop env f g fuel remaining s).files.content g =
        s.files.content g ++ ((s.files.content f).take remaining).reverse ∧
      s.calls ≤ (copyLoop env f g fuel remaining s).calls := by
  induction fuel generalizing remaining s with
  | zero =>
      obtain rfl : remaining = 0 := by omega
      simp [copyLoop]
  | succ fuel ih =>
      rcases Nat.eq_zero_or_pos remaining with rfl | hpos
      · simp [copyLoop]
      · have hne : f ≠ g := by
          intro heq
          rw [hfg heq, List.length_nil] at hsize
          omega
        obtain ⟨pos, block, hsum, hblock, hround⟩ := copyLoop_succ f g fuel hok hpos hsize
        rw [hround]
        obtain ⟨files, hfiles⟩ : ∃ files, files = s.files.write g (s.files.content g ++
          (((s.files.content f).drop pos).take block).reverse) := ⟨_, rfl⟩
        have hsource : files.content f = s.files.content f :=
          hfiles ▸ FileSystem.content_write_of_ne hne _
        have hwritten : files.content g = s.files.content g ++
            (((s.files.content f).drop pos).take block).reverse :=
          hfiles ▸ FileSystem.content_write_self hg _
        have hfile : files.isFile g = true := hfiles ▸ (FileSystem.isFile_write ..).trans hg
        obtain ⟨hcontent, hcalls⟩ := ih (s := ⟨files, s.calls + 3⟩) (fun heq => absurd heq hne)
          (fun call hcall => hok call (Nat.le_of_add_right_le hcall)) hfile
          (show pos ≤ fuel by omega) (by rw [hsource]; omega)
        rw [← hfiles]
        refine ⟨?_, (Nat.le_add_right _ 3).trans hcalls⟩
        rw [hcontent, hsource, hwritten, List.append_assoc, ← List.reverse_append, ← hsum,
          ← List.take_add]

/-- All the calls but `ftell` succeed. -/
def SeeksSucceed (env : Env) (s : System) : Prop :=
  ∀ call, s.calls ≤ call → call ≠ s.calls + 1 → env.refuses call = false

/-- The size of the file, or -1 when `ftell` fails. -/
theorem fileSize_eq (f : Nat) (hok : SeeksSucceed env s) :
    fileSize env s f =
      (if env.refuses (s.calls + 1) then -1 else ((s.files.content f).length : Int),
        ⟨s.files, s.calls + 3⟩) := by
  have hend : s.fseek env = (true, s.after s.files) :=
    System.fseek_eq (hok _ (le_refl _) (by omega))
  have hstart : (⟨s.files, s.calls + 2⟩ : System).fseek env = (true, ⟨s.files, s.calls + 3⟩) :=
    System.fseek_eq (hok _ (Nat.le_add_right ..) (by show s.calls + 2 ≠ _; omega))
  have htell : (s.after s.files).ftell env f =
      (if env.refuses (s.calls + 1) then -1 else ((s.files.content f).length : Int),
        ⟨s.files, s.calls + 2⟩) := rfl
  simp only [fileSize, hend, htell, hstart]

/-- Two bytes are taken for an error; without `ftell` there is nothing to copy. -/
theorem copyContent_eq (f g : Nat) (hok : SeeksSucceed env s) :
    copyContent env s f g =
      if env.refuses (s.calls + 1) then ⟨s.files, s.calls + 3⟩
      else if (s.files.content f).length = 2 then ⟨s.files, s.calls + 3⟩
      else copyLoop env f g (s.files.content f).length (s.files.content f).length
        ⟨s.files, s.calls + 3⟩ := by
  have herror : fseekError = 2 := rfl
  simp only [copyContent, fileSize_eq f hok, herror]
  split
  · rfl
  · split
    · next htwo => rw [if_pos (by omega)]
    · next htwo => rw [if_neg (by omega), Int.toNat_natCast]

/-- A file that is not of two bytes is written from its last byte to its first. -/
theorem copyContent_content (hok : Succeeds env s) (hg : s.files.isFile g = true)
    (hempty : s.files.content g = []) (htwo : (s.files.content f).length ≠ 2) :
    (copyContent env s f g).files.content g = (s.files.content f).reverse ∧
      s.calls ≤ (copyContent env s f g).calls := by
  have htell : env.refuses (s.calls + 1) = false := hok _ (Nat.le_succ _)
  rw [copyContent_eq f g fun call hcall _ => hok call hcall, htell, if_neg Bool.false_ne_true,
    if_neg htwo]
  obtain ⟨hcontent, hcalls⟩ := copyLoop_content (s := ⟨s.files, s.calls + 3⟩)
    (fun hfg => hfg ▸ hempty) (fun call hcall => hok call (Nat.le_of_add_right_le hcall)) hg
    (le_refl _) (le_refl (s.files.content f).length)
  refine ⟨?_, (Nat.le_add_right _ 3).trans hcalls⟩
  rw [hcontent, hempty, List.take_length, List.nil_append]

/-- The destination, which `fopen` has emptied, gets the bytes of the source in reverse order, and a
copy of the copy is the source again, unless the source has two bytes or, when `ftell` fails, any. -/
theorem copyContent_reverses_iff (hok : SeeksSucceed env s) (hg : s.files.isFile g = true)
    (hempty : s.files.content g = []) :
    ((copyContent env s f g).files.content g = (s.files.content f).reverse ∧
      ∀ h, (copyContent env s f g).files.isFile h = true →
        (copyContent env s f g).files.content h = [] →
        (copyContent env (copyContent env s f g) g h).files.content h = s.files.content f) ↔
      if env.refuses (s.calls + 1) then s.files.content f = []
      else (s.files.content f).length ≠ 2 := by
  by_cases htell : env.refuses (s.calls + 1) = true
  · -- nothing is copied, neither from the source nor from the empty destination
    rw [copyContent_eq f g hok, if_pos htell, if_pos htell, hempty]
    constructor
    · rintro ⟨hreverse, -⟩
      exact List.reverse_eq_nil_iff.mp hreverse.symm
    · intro hnil
      refine ⟨by rw [hnil]; rfl, fun h hfile hfree => ?_⟩
      obtain ⟨hsecond, -⟩ := copyContent_content (s := ⟨s.files, s.calls + 3⟩) (f := g)
        (fun call hcall => hok call (by dsimp only at hcall; omega) (by dsimp only at hcall; omega))
        hfile hfree (by dsimp only; rw [hempty]; decide)
      rw [hsecond, hnil]
      exact congrArg List.reverse hempty
  · have hall : Succeeds env s := by
      intro call hcall
      by_cases hsecond : call = s.calls + 1
      · exact hsecond ▸ Bool.eq_false_iff.mpr htell
      · exact hok call hcall hsecond
    rw [if_neg htell]
    constructor
    · -- the destination stays empty when the size is taken for an error
      rintro ⟨hreverse, -⟩ htwo
      rw [copyContent_eq f g hok, if_neg htell, if_pos htwo, hempty] at hreverse
      simp [List.reverse_eq_nil_iff.mp hreverse.symm] at htwo
    · intro htwo
      obtain ⟨hreverse, hcalls⟩ := copyContent_content hall hg hempty htwo
      refine ⟨hreverse, fun h hfile hfree => ?_⟩
      obtain ⟨hsecond, -⟩ := copyContent_content (f := g)
        (fun call hcall => hall call (hcalls.trans hcall)) hfile hfree
        (by rwa [hreverse, List.length_reverse])
      rw [hsecond, hreverse, List.reverse_reverse]

/-- A file of these bytes, and two empty ones. -/
def fileOf (bytes : List Byte) : System where
  files := .ofList [.dir 0 [([97], 1), ([98], 2), ([99], 3)], .file bytes, .file [], .file []]
    (by rfl)
  calls := 0

theorem copyContent_reverses_three :
    (copyContent Env.plain (fileOf [120, 121, 122]) 1 2).files.content 2 = [122, 121, 120] ∧
      (copyContent Env.plain (copyContent Env.plain (fileOf [120, 121, 122]) 1 2) 2
        3).files.content 3 = [120, 121, 122] := by
  have hok : SeeksSucceed Env.plain (fileOf [120, 121, 122]) := fun _ _ _ => rfl
  obtain ⟨hreverse, hback⟩ := (copyContent_reverses_iff (f := 1) (g := 2) hok (by decide)
    (by decide)).mpr (by decide)
  exact ⟨hreverse, hback 3 (by decide) (by decide)⟩

/-- Every call succeeds, and nothing is written. -/
theorem copyContent_two :
    Succeeds Env.plain (fileOf [120, 121]) ∧ (fileOf [120, 121]).files.isFile 2 = true ∧
      (fileOf [120, 121]).files.content 2 = [] ∧
      (fileOf [120, 121]).files.content 1 = [120, 121] ∧
      (copyContent Env.plain (fileOf [120, 121]) 1 2).files.content 2 = [] :=
  ⟨fun _ _ => rfl, by decide, by decide, by decide, by decide⟩

end DirReverser
end OperatingSystems
