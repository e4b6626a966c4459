import OperatingSystems.FsManager.Commands

/-!
# What the commands do to names and contents

* `content_runs` — only `touch` changes what is in a file, and it empties it.
* `cat_runs` — as long as nothing is removed, every path leads where it led.
* `lsl_chmod` — `lsl` prints the permissions that `chmod` has set.
* `readlink_lnSym` — a link reads as the target that it was made with.
* `catLinkContent_eq` — when `catLinkContent` prints what `cat` prints.
* `cat_ln_rm` — a file stays under its second name.
-/

namespace OperatingSystems
namespace FsManager

open Files FileSystem

variable {env : Env} {n : Nat} {s s' : System} {setting : Setting} {d : Disk} {fs fs' : FileSystem}
  {path : List Byte}

/-! ### Contents -/

theorem content_of_node {i : Nat} (h : fs'.node i = fs.node i) : fs'.content i = fs.content i := by
  rw [content, content, h]

theorem content_remove (fs : FileSystem) (d : Nat) (name : List Byte) (i : Nat) :
    (fs.remove d name).content i = fs.content i := by
  by_cases hid : i = d
  · subst hid
    unfold content
    rw [node_remove, if_pos rfl]
    rcases fs.node i with _ | m
    · rfl
    · cases m <;> rfl
  · exact content_of_node (by rw [node_remove, if_neg hid])

/-- What is new is empty. -/
theorem content_created {d : Nat} {name : List Byte} {child : Node}
    (hchild : child = .file [] ∨ child = .dir d []) (h : fs.Created d name child fs') (i : Nat) :
    fs'.content i = fs.content i := by
  obtain ⟨p, es, hd, -, hnode⟩ := h.dir
  by_cases hfresh : i = fs.fresh
  · subst hfresh
    unfold content
    rw [hnode, addedNode_fresh, fs.unused _ le_rfl]
    rcases hchild with rfl | rfl <;> rfl
  by_cases hid : i = d
  · subst hid
    unfold content
    rw [hnode, addedNode_dir hd, hd]
  · exact content_of_node (by rw [hnode, addedNode_of_ne hfresh hid])

theorem content_named {d j : Nat} {name : List Byte} (h : fs.Named d name j fs') (i : Nat) :
    fs'.content i = fs.content i := by
  obtain ⟨p, es, hd, -, hnode⟩ := h.dir
  by_cases hid : i = d
  · subst hid
    unfold content
    rw [hnode, Function.update_self, hd]
  · exact content_of_node (by rw [hnode, Function.update_of_ne hid])

theorem content_newLink (fs : FileSystem) (target : List Byte) (i : Nat) :
    (fs.newLink target).content i = fs.content i := by
  by_cases hfresh : i = fs.fresh
  · subst hfresh
    unfold content
    rw [newLink_fresh, fs.unused _ le_rfl]
  · exact content_of_node (Function.update_of_ne hfresh ..)

/-- A call that changes the files or fails. -/
theorem attempt_files {P : FileSystem → Prop} {change : Option FileSystem} (hs : P s.files)
    (hchange : ∀ files, change = some files → P files) : P (s.attempt env change).2.files := by
  rcases hr : s.attempt env change with ⟨r, t⟩
  by_cases hzero : r = 0
  · subst hzero
    obtain ⟨files, hfiles, rfl, -⟩ := System.attempt_zero hr
    exact hchange files hfiles
  · obtain ⟨-, rfl⟩ := System.attempt_ne_zero hr hzero
    exact hs

theorem content_unlink (h : fs.unlink path = some fs') (i : Nat) : fs'.content i = fs.content i := by
  obtain ⟨-, d, name, j, -, -, -, rfl⟩ := unlink_eq_some_iff.mp h
  exact content_remove fs d name i

theorem content_rmdir (h : fs.rmdir path = some fs') (i : Nat) : fs'.content i = fs.content i := by
  obtain ⟨d, name, j, -, -, -, rfl⟩ := rmdir_eq_some_iff.mp h
  exact content_remove fs d name i

theorem content_myRmdir (n : Nat) (s : System) (path : List Byte) (i : Nat) :
    (myRmdir env n s path).2.files.content i = s.files.content i := by
  have hkeeps : Keeps env (fun fs => fs.content i = s.files.content i) (fun _ => True)
      fun _ _ => True :=
    ⟨fun _ _ _ _ _ _ _ _ _ => .inr (.inr trivial), fun _ _ _ _ _ _ _ _ _ => trivial,
      fun _ _ _ _ _ _ _ h _ _ hunlink => (content_unlink hunlink i).trans h,
      fun _ _ _ _ h hrmdir => (content_rmdir hrmdir i).trans h⟩
  exact hkeeps.myRmdir n s path trivial rfl

/-- The file that is opened is emptied, or new. -/
theorem content_openForWriting {j : Nat} (h : fs.openForWriting path = some (j, fs')) (i : Nat) :
    fs'.content i = fs.content i ∨ fs'.content i = [] := by
  rcases openForWriting_eq_some h with ⟨-, -, rfl⟩ | ⟨d, name, -, -, hcreated⟩
  · by_cases hij : i = j
    · subst hij
      refine .inr ?_
      unfold content
      rw [node_write, if_pos rfl]
      rcases fs.node i with _ | m
      · rfl
      · cases m <;> rfl
    · exact .inl (content_write_of_ne hij [])
  · exact .inl (content_created (.inl rfl) hcreated i)

/-! ### Runs -/

/-- The command is `touch`. -/
def touches : List (List Byte) → Bool
  | program :: _ :: _ => basename program = bytes "touch"
  | _ => false

/-- The command is `rmdir`, `rm`, `rmSymLink` or `rmHardLink`. -/
def removes : List (List Byte) → Bool
  | program :: _ :: _ => basename program = bytes "rmdir" ∨ basename program = bytes "rm" ∨
      basename program = bytes "rmSymLink" ∨ basename program = bytes "rmHardLink"
  | _ => false

theorem files_myLs : (myLs env n s path).2.files = s.files := by
  unfold myLs
  split
  case h_1 h => exact System.files_of_unchanged h
  case h_2 h => exact System.files_of_unchanged h

theorem files_myCat : (myCat env n s path).2.files = s.files := by
  unfold myCat
  split
  case h_1 h => exact System.files_of_unchanged h
  case h_2 file t h =>
      have hsame : (t.fgetcs env file).2.files = t.files := rfl
      exact hsame.trans (System.files_of_unchanged h)

theorem files_myReadlink : (myReadlink env s path).2.files = s.files := by
  unfold myReadlink
  split
  case h_1 h => exact System.files_of_unchanged h
  case h_2 h => exact System.files_of_unchanged h

theorem files_catLinkContent : (catLinkContent env n s path).2.files = s.files := by
  unfold catLinkContent
  split
  case h_1 h => exact System.files_of_unchanged h
  case h_2 h => exact files_myCat.trans (System.files_of_unchanged h)

theorem files_myTouch {P : FileSystem → Prop} {umask : Mode} (hs : P d.files)
    (htouch : ∀ files j, d.files.openForWriting path = some (j, files) → P files) :
    P (myTouch env n umask d path).files := by
  unfold myTouch
  rcases hopen : d.toSystem.fopenWrite env n path with ⟨_ | j, t⟩
  · rw [System.fopenWrite_none hopen]
    exact hs
  · obtain ⟨files, hfiles, rfl⟩ := System.fopenWrite_some hopen
    dsimp only
    split <;> exact htouch files j hfiles

theorem files_myMkdir {P : FileSystem → Prop} {umask : Mode} {mode : BitVec 32} (hs : P d.files)
    (hmkdir : ∀ files, d.files.mkdir path = some files → P files) :
    P (myMkdir env umask d path mode).files := by
  have hmade := @attempt_files env d.toSystem P (d.files.mkdir path) hs hmkdir
  unfold myMkdir
  split
  case h_1 t hcall => exact (congrArg (fun r => r.2.files) hcall : _ = t.files) ▸ hmade
  case h_2 t _ hcall => exact (congrArg (fun r => r.2.files) hcall : _ = t.files) ▸ hmade

theorem files_myLsl : (myLsl env d path).2.files = d.files := by
  unfold myLsl
  split <;> next hcall => exact System.files_of_unchanged hcall

theorem files_myChmod {mode : BitVec 32} : (myChmod env d path mode).files = d.files := by
  unfold myChmod
  split <;> next hcall => exact System.files_of_unchanged hcall

/-- A property of the files that every change of the command keeps. -/
theorem main_files {P : FileSystem → Prop} {argv : List (List Byte)} (hs : P d.files)
    (hmkdir : ∀ files path, d.files.mkdir path = some files → P files)
    (hlink : ∀ files path newPath, d.files.link path newPath = some files → P files)
    (hsymlink : ∀ files target path, d.files.symlink target path = some files → P files)
    (htouch : touches argv = true → ∀ files path j,
      d.files.openForWriting path = some (j, files) → P files)
    (hremove : removes argv = true →
      ∀ files path, d.files.unlinkOrRmdir path = some files → P files)
    (hrmdir : removes argv = true →
      ∀ path, P (myRmdir (setting.env d.mode) n d.toSystem path).2.files) :
    P (main setting n d argv).2.2.files := by
  unfold main
  split
  case h_2 => exact hs
  case h_1 program path more =>
      have hrm (hname : removes (program :: path :: more) = true) :
          P (myRm (setting.env d.mode) d.toSystem path).files :=
        attempt_files hs fun files => hremove hname files path
      have hsplit {c : Prop} [Decidable c] {a b : Int × List Byte × Disk}
          (ha : c → P a.2.2.files) (hb : P b.2.2.files) : P (if c then a else b).2.2.files := by
        split
        case isTrue hc => exact ha hc
        case isFalse => exact hb
      refine hsplit (fun _ => ?mkdir) <| hsplit (fun _ => ?ls) <|
        hsplit (fun hname => ?rmdir) <| hsplit (fun hname => ?touch) <| hsplit (fun _ => ?cat) <|
        hsplit (fun hname => ?rm) <| hsplit (fun _ => ?lnSym) <| hsplit (fun _ => ?readlink) <|
        hsplit (fun _ => ?catLinkContent) <| hsplit (fun hname => ?rmSymLink) <|
        hsplit (fun _ => ?ln) <| hsplit (fun hname => ?rmHardLink) <| hsplit (fun _ => ?lsl) <|
        hsplit (fun _ => ?chmod) hs
      case mkdir =>
          split
          · exact files_myMkdir hs fun files => hmkdir files path
          · exact hs
      case ls =>
          show P (myLs (setting.env d.mode) n d.toSystem path).2.files
          rw [files_myLs]
          exact hs
      case rmdir => exact hrmdir (decide_eq_true (.inl hname)) path
      case touch =>
          exact files_myTouch hs fun files j => htouch (decide_eq_true hname) files path j
      case cat =>
          show P (myCat (setting.env d.mode) n d.toSystem path).2.files
          rw [files_myCat]
          exact hs
      case rm => exact hrm (decide_eq_true (.inr (.inl hname)))
      case lnSym =>
          split
          · exact attempt_files hs fun files => hsymlink files path _
          · exact hs
      case readlink =>
          show P (myReadlink (setting.env d.mode) d.toSystem path).2.files
          rw [files_myReadlink]
          exact hs
      case catLinkContent =>
          show P (catLinkContent (setting.env d.mode) n d.toSystem path).2.files
          rw [files_catLinkContent]
          exact hs
      case rmSymLink => exact hrm (decide_eq_true (.inr (.inr (.inl hname))))
      case ln =>
          split
          · exact attempt_files hs fun files => hlink files path _
          · exact hs
      case rmHardLink => exact hrm (decide_eq_true (.inr (.inr (.inr hname))))
      case lsl =>
          show P (myLsl (setting.env d.mode) d path).2.files
          rw [files_myLsl]
          exact hs
      case chmod =>
          split
          · show P (myChmod (setting.env d.mode) d path _).files
            rw [files_myChmod]
            exact hs
          · exact hs

/-- What each command keeps, all of them keep. -/
theorem runs_keep {P : Disk → Prop} (commands : List (List (List Byte))) (hd : P d)
    (hmain : ∀ argv ∈ commands, ∀ d : Disk, P d → P (main setting n d argv).2.2) :
    P (runs setting n d commands) := by
  apply List.foldlRecOn (motive := P)
  · exact hd
  · exact fun d hd argv hmem => hmain argv hmem d hd

/-- After any commands a file has the content that it had, or none; it has the content that it had
if `touch` is not among them. -/
theorem content_runs (setting : Setting) (n : Nat) (d : Disk) (commands : List (List (List Byte)))
    (i : Nat) : (runs setting n d commands).files.content i = d.files.content i ∨
      (runs setting n d commands).files.content i = [] ∧
        ∃ argv ∈ commands, touches argv = true := by
  let P (fs : FileSystem) : Prop := fs.content i = d.files.content i ∨
    fs.content i = [] ∧ ∃ argv ∈ commands, touches argv = true
  refine runs_keep (P := fun d => P d.files) commands (.inl rfl) fun argv hmem t ht => ?_
  have hkept {files : FileSystem} (h : files.content i = t.files.content i) : P files := by
    show files.content i = _ ∨ _
    rw [h]
    exact ht
  refine main_files (P := P) ht (fun files path h => ?_) (fun files path newPath h => ?_)
    (fun files target path h => ?_) (fun htouch files path j h => ?_)
    (fun _ files path h => ?_) fun _ path => hkept (content_myRmdir n t.toSystem path i)
  · obtain ⟨d, name, -, hcreated⟩ := mkdir_eq_some h
    exact hkept (content_created (.inr rfl) hcreated i)
  · obtain ⟨-, -, d, name, e, newName, j, -, -, -, hnamed⟩ := link_eq_some h
    exact hkept (content_named hnamed i)
  · obtain ⟨-, -, e, newName, -, hnamed⟩ := symlink_eq_some h
    exact hkept ((content_named hnamed i).trans (content_newLink t.files target i))
  · rcases content_openForWriting h i with hsame | hempty
    · exact hkept hsame
    · exact .inr ⟨hempty, argv, hmem, htouch⟩
  · rcases unlinkOrRmdir_eq_some h with hunlink | hrmdir
    · exact hkept (content_unlink hunlink i)
    · exact hkept (content_rmdir hrmdir i)

/-- A command that removes nothing only adds entries. -/
theorem within_main (setting : Setting) (n : Nat) (d : Disk) {argv : List (List Byte)}
    (hargv : removes argv = false) : d.files.Within (main setting n d argv).2.2.files := by
  have hnot : ¬ removes argv = true := by rw [hargv]; simp
  refine main_files (P := fun fs => d.files.Within fs) (Within.refl _) (fun files path h => ?_)
    (fun files path newPath h => ?_) (fun files target path h => ?_) (fun _ files path j h => ?_)
    (fun hremoves => absurd hremoves hnot) fun hremoves => absurd hremoves hnot
  · obtain ⟨d, name, -, hcreated⟩ := mkdir_eq_some h
    exact hcreated.within
  · obtain ⟨-, -, d, name, e, newName, j, -, -, -, hnamed⟩ := link_eq_some h
    exact hnamed.within
  · obtain ⟨-, -, e, newName, -, hnamed⟩ := symlink_eq_some h
    exact (newLink_within d.files target).trans hnamed.within
  · rcases openForWriting_eq_some h with ⟨-, -, rfl⟩ | ⟨d, name, -, -, hcreated⟩
    · exact within_write d.files j []
    · exact hcreated.within

theorem within_runs (setting : Setting) (n : Nat) (d : Disk)
    {commands : List (List (List Byte))} (hcommands : ∀ argv ∈ commands, removes argv = false) :
    d.files.Within (runs setting n d commands).files :=
  runs_keep (P := fun t => d.files.Within t.files) commands (Within.refl _)
    fun argv hmem t ht => ht.trans (within_main setting n t (hcommands argv hmem))

/-- What `cat` prints when nothing is refused. -/
theorem output_myCat (hallowed : ∀ call, env.refuses call = false) :
    (myCat env n s path).1 =
      if n = 0 then [] else (s.files.find path).elim [] s.files.content := by
  unfold myCat
  by_cases hn : n = 0
  · simp [System.fopenRead, System.refusesOpen, hn]
  · cases hfind : s.files.find path with
    | none => simp [System.fopenRead, hfind]
    | some k =>
        rw [System.fopenRead_eq (hallowed _) hn hfind, if_neg hn]
        simp [System.fgetcs, hallowed, System.after]

/-- What a run of `cat` prints. -/
def catOutput (setting : Setting) (n : Nat) (d : Disk) (path : List Byte) : List Byte :=
  (myCat (setting.env d.mode) n d.toSystem path).1

/-- As long as nothing is removed and no call is refused, a path leads where it led, and `cat`
prints what it printed, or nothing if `touch` was among the commands. -/
theorem cat_runs {commands : List (List (List Byte))} {k : Nat}
    (hallowed : ∀ mode call, (setting.env mode).refuses call = false)
    (hcommands : ∀ argv ∈ commands, removes argv = false) (hk : d.files.find path = some k) :
    (runs setting n d commands).files.find path = some k ∧
      (catOutput setting n (runs setting n d commands) path = catOutput setting n d path ∨
        catOutput setting n (runs setting n d commands) path = [] ∧
          ∃ argv ∈ commands, touches argv = true) := by
  have hlater := (within_runs setting n d hcommands).find hk
  refine ⟨hlater, ?_⟩
  rw [catOutput, catOutput, output_myCat (hallowed _), output_myCat (hallowed _), hlater, hk,
    Option.elim_some, Option.elim_some]
  by_cases hn : n = 0
  · exact .inl (by rw [if_pos hn, if_pos hn])
  rw [if_neg hn, if_neg hn]
  exact content_runs setting n d commands k

/-- The file `/a`, which contains an `x`. -/
def oneFile : System where
  files := .ofList [.dir 0 [([97], 1)], .file [120]] (by decide)
  calls := 0

/-- Nothing is refused, whatever the permissions, and the mask is `022`. -/
def plainSetting : Setting := ⟨fun _ => Env.plain, 0o022#12⟩

/-- The same file with the permissions `0644`, in a directory with `0755`. -/
def oneFileDisk : Disk := ⟨oneFile, fun i => if i = 0 then 0o755#12 else 0o644#12⟩

/-- `ln /a /b`, then `chmod /a 600` -/
theorem cat_runs_ln :
    let after := runs plainSetting 8 oneFileDisk
      [[bytes "ln", [47, 97], [47, 98]], [bytes "chmod", [47, 97], bytes "600"]]
    after.files.find [47, 97] = some 1 ∧ catOutput plainSetting 8 after [47, 97] = [120] := by
  have hbefore : catOutput plainSetting 8 oneFileDisk [47, 97] = [120] := by decide +kernel
  have hkept := @cat_runs 8 plainSetting oneFileDisk [47, 97]
    [[bytes "ln", [47, 97], [47, 98]], [bytes "chmod", [47, 97], bytes "600"]] 1
    (fun _ _ => rfl) (by decide +kernel) (by decide +kernel)
  refine ⟨hkept.1, ?_⟩
  rcases hkept.2 with hsame | ⟨-, htouch⟩
  · rw [hsame, hbefore]
  · have hnone : ¬ ∃ argv ∈ [[bytes "ln", [47, 97], [47, 98]],
        [bytes "chmod", [47, 97], bytes "600"]], touches argv = true := by decide +kernel
    exact absurd htouch hnone

/-! ### Permissions -/

/-- The command is `chmod`. -/
def chmods : List (List Byte) → Bool
  | program :: _ :: _ => basename program = bytes "chmod"
  | _ => false

/-- A command other than `chmod` leaves the permissions of every node that there is. -/
theorem mode_main {argv : List (List Byte)} {i : Nat} (hi : i ≠ d.files.fresh)
    (hargv : chmods argv = false) : (main setting n d argv).2.2.mode i = d.mode i := by
  unfold main
  split
  case h_2 => rfl
  case h_1 program path more =>
      have hnot : basename program ≠ bytes "chmod" := by simpa [chmods] using hargv
      have hsplit {c : Prop} [Decidable c] {a b : Int × List Byte × Disk}
          (ha : c → a.2.2.mode i = d.mode i) (hb : b.2.2.mode i = d.mode i) :
          (if c then a else b).2.2.mode i = d.mode i := by
        split
        case isTrue hc => exact ha hc
        case isFalse => exact hb
      -- The other commands do not touch the permissions.
      refine hsplit (fun _ => ?mkdir) <| hsplit (fun _ => rfl) <| hsplit (fun _ => rfl) <|
        hsplit (fun _ => ?touch) <| hsplit (fun _ => rfl) <| hsplit (fun _ => rfl) <|
        hsplit (fun _ => ?lnSym) <| hsplit (fun _ => rfl) <| hsplit (fun _ => rfl) <|
        hsplit (fun _ => rfl) <| hsplit (fun _ => ?ln) <| hsplit (fun _ => rfl) <|
        hsplit (fun _ => ?lsl) <| hsplit (fun hchmod => absurd hchmod hnot) rfl
      case mkdir =>
          split
          · dsimp only
            unfold myMkdir
            split
            · exact Function.update_of_ne hi ..
            · rfl
          · rfl
      case touch =>
          dsimp only
          unfold myTouch
          split
          · split
            case isTrue hfresh => exact Function.update_of_ne (hfresh ▸ hi) ..
            case isFalse => rfl
          · rfl
      case lnSym => split <;> rfl
      case ln => split <;> rfl
      case lsl =>
          dsimp only
          unfold myLsl
          split <;> rfl

/-- After `chmod` of a node and any commands that remove nothing and are not `chmod`, `lsl` prints
the permissions that were set. -/
theorem lsl_chmod {commands : List (List (List Byte))} {i : Nat} {node : Node}
    {mode : BitVec 32} {last : Disk}
    (hallowed : ∀ mode call, (setting.env mode).refuses call = false)
    (hcommands : ∀ argv ∈ commands, removes argv = false ∧ chmods argv = false)
    (hi : d.files.find path = some i) (hnode : d.files.node i = some node)
    (hlast : runs setting n (myChmod (setting.env d.mode) d path mode) commands = last) :
    (myLsl (setting.env last.mode) last path).1 = lslText last i ∧
      last.mode i = mode.setWidth 12 := by
  have hstat (t : Disk) : t.toSystem.stat (setting.env t.mode) path =
      (t.files.find path, t.after t.files) := by
    rw [System.stat, hallowed, if_neg Bool.false_ne_true]
  have hchanged : myChmod (setting.env d.mode) d path mode =
      d.setMode (d.after d.files) i (mode.setWidth 12) := by
    rw [myChmod, hstat d, hi]
  have hwithin := within_runs setting n (myChmod (setting.env d.mode) d path mode)
    fun argv hmem => (hcommands argv hmem).1
  rw [hchanged] at hlast hwithin
  rw [hlast] at hwithin
  have hfind : last.files.find path = some i := hwithin.find hi
  refine ⟨by rw [myLsl, hstat last, hfind], ?_⟩
  subst hlast
  let P (t : Disk) : Prop := d.files.Within t.files ∧ t.mode i = mode.setWidth 12
  have hset : P (d.setMode (d.after d.files) i (mode.setWidth 12)) :=
    ⟨Within.refl _, Function.update_self ..⟩
  refine (runs_keep commands hset fun argv hmem t ht => ?_).2
  obtain ⟨hremoves, hchmods⟩ := hcommands argv hmem
  have hne : i ≠ t.files.fresh := by
    rintro rfl
    obtain ⟨node', hnode', -⟩ := ht.1.node _ node hnode
    simp [t.files.unused _ le_rfl] at hnode'
  exact ⟨ht.1.trans (within_main setting n t hremoves), (mode_main hne hchmods).trans ht.2⟩

/-! ### Symbolic links -/

/-- The disk behind a run of `lnSym`. -/
def linked (setting : Setting) (d : Disk) (target path : List Byte) : Disk :=
  d.ran (mySymLn (setting.env d.mode) d.toSystem target path)

/-- A link that was made reads as the target that it was made with, whatever commands that remove
nothing were run in between, when the `readlink` is not refused. -/
theorem readlink_lnSym {target : List Byte} (hnul : 0 ∉ target)
    (hmade : (d.toSystem.symlink (setting.env d.mode) target path).1 = 0)
    {commands : List (List (List Byte))} (hcommands : ∀ argv ∈ commands, removes argv = false)
    {last : Disk} (hlast : runs setting n (linked setting d target path) commands = last)
    (hallowed : (setting.env last.mode).refuses last.calls = false) :
    (myReadlink (setting.env last.mode) last.toSystem path).1 = target ++ [10] := by
  subst hlast
  have hcall : d.toSystem.symlink (setting.env d.mode) target path =
      (0, mySymLn (setting.env d.mode) d.toSystem target path) := Prod.ext hmade rfl
  obtain ⟨files, hfiles, hafter, -⟩ := System.attempt_zero hcall
  have hread : (linked setting d target path).files.readlink path = some target := by
    rw [linked, Disk.ran, hafter]
    exact readlink_symlink hfiles
  have hlength : target.length ≤ size - 1 := by
    have hlt := lt_of_isPath (symlink_eq_some hfiles).1
    exact Nat.le_sub_one_of_lt hlt
  have hlater := (within_runs setting n (linked setting d target path) hcommands).readlink hread
  rw [myReadlink, System.readlink, hallowed, if_neg Bool.false_ne_true, hlater, Option.map_some,
    List.take_of_length_le hlength]
  exact congrArg (· ++ [10]) (cstr_append_nul hnul [])

/-- `lnSym a /l`, then `touch /a` -/
theorem readlink_lnSym_touch : (myReadlink Env.plain (runs plainSetting 8
    (linked plainSetting oneFileDisk [97] [47, 108]) [[bytes "touch", [47, 97]]]).toSystem
      [47, 108]).1 = [97, 10] :=
  @readlink_lnSym 8 plainSetting oneFileDisk [47, 108] [97] (by decide) (by decide +kernel)
    [[bytes "touch", [47, 97]]] (by decide +kernel) _ rfl rfl

/-- `catLinkContent` prints what `cat` prints for the target; this is what `cat` prints for the
link when the target is absolute or the link is in the current directory. -/
theorem catLinkContent_eq {target : List Byte} (hallowed : ∀ call, env.refuses call = false)
    (hread : s.files.readlink path = some target) (hpath : isPath target = true)
    (hnul : 0 ∉ target) : (catLinkContent env n s path).1 = (myCat env n s target).1 ∧
    ∀ d name k, s.files.place path = some (d, name) → s.files.find path = some k →
      target.head? = some slash ∨ d = s.files.cwd →
        (catLinkContent env n s path).1 = (myCat env n s path).1 := by
  have htarget : (catLinkContent env n s path).1 = (myCat env n s target).1 := by
    have hlength : target.length ≤ size - 1 := Nat.le_sub_one_of_lt (lt_of_isPath hpath)
    have hread' : s.readlink env path (size - 1) = (some target, s.after s.files) := by
      rw [System.readlink, hallowed, if_neg Bool.false_ne_true, hread, Option.map_some,
        List.take_of_length_le hlength]
    rw [catLinkContent, hread']
    simp only [cstr_append_nul hnul [], output_myCat hallowed]
    rfl
  refine ⟨htarget, fun d name k hplace hk hstart => ?_⟩
  obtain ⟨hslash, e, last, j, hplace', hj, hlink⟩ := readlink_eq_some_iff.mp hread
  obtain ⟨rfl, rfl⟩ := Prod.mk.inj (Option.some.inj (hplace.symm.trans hplace'))
  have hwalk := find_of_readlink hslash hplace hj hlink hk
  have hsame : s.files.startIn d target = s.files.startIn s.files.cwd target := by
    rcases hstart with habsolute | rfl
    · rw [startIn, startIn, if_pos habsolute, if_pos habsolute]
    · rfl
  rw [hsame] at hwalk
  rw [htarget, output_myCat hallowed, output_myCat hallowed, hk,
    find_eq_some_iff.mpr ⟨hpath, hwalk⟩]

/-- The file `/a` and the link `/d/l` to it. -/
def oneLink : System where
  files := .ofList [.dir 0 [([97], 1), ([100], 2)], .file [120], .dir 0 [([108], 3)],
    .link [47, 97]] (by decide)
  calls := 0

theorem catLinkContent_eq_absolute :
    (catLinkContent Env.plain 8 oneLink [47, 100, 47, 108]).1 = [120] ∧
      (myCat Env.plain 8 oneLink [47, 100, 47, 108]).1 = [120] := by
  have heq := @catLinkContent_eq Env.plain 8 oneLink [47, 100, 47, 108] [47, 97] (fun _ => rfl)
    (by decide +kernel) (by decide +kernel) (by decide)
  have htarget : (myCat Env.plain 8 oneLink [47, 97]).1 = [120] := by decide +kernel
  have hsame := heq.2 2 [108] 1 (by decide +kernel) (by decide +kernel) (.inl rfl)
  exact ⟨heq.1.trans htarget, hsame.symm.trans (heq.1.trans htarget)⟩

/-! ### Hard links -/

/-- A file that has got a second name stays as it was when the first is removed, and everything is
as before when the second is removed. -/
theorem cat_ln_rm {new : List Byte} {d j : Nat} {name : List Byte}
    (hallowed : ∀ call, env.refuses call = false) (hplace : s.files.place path = some (d, name))
    (hj : s.files.entry d name = some j) (hfile : s.files.isFile j = true)
    (hmade : (s.link env path new).1 = 0) :
    (myCat env n (myRm env (myLn env s path new) path) new).1 = (myCat env n s path).1 ∧
      (myRm env (myLn env s path new) path).files.find path = none ∧
      (myRm env (myLn env s path new) new).files.node = s.files.node := by
  have hcall : s.link env path new = (0, myLn env s path new) := Prod.ext hmade rfl
  obtain ⟨files, hfiles, hafter, -⟩ := System.attempt_zero hcall
  obtain ⟨hslash, hslash', d', name', e, newName, j', hplace', hj', hnew, hnamed⟩ :=
    link_eq_some hfiles
  obtain ⟨rfl, rfl⟩ := Prod.mk.inj (Option.some.inj (hplace.symm.trans hplace'))
  obtain rfl := Option.some.inj (hj.symm.trans hj')
  have hwithin := hnamed.within
  have hnode : files.node j = s.files.node j := hnamed.node_of_notDir (isDir_of_isFile hfile)
  have hfile' : files.isFile j = true := hwithin.isFile hfile
  -- Both names are entries for a regular file, so `unlink` takes them.
  have hremoved {p : List Byte} {i : Nat} {last : List Byte} (hp : endsInSlash p = false)
      (hpi : files.place p = some (i, last)) (hij : files.entry i last = some j) :
      (myRm env (myLn env s path new) p).files = files.remove i last := by
    have hunlink : files.unlink p = some (files.remove i last) :=
      unlink_eq_some_iff.mpr ⟨hp, i, last, j, hpi, hij, isDir_of_isFile hfile', rfl⟩
    rw [myRm, System.remove, hafter, System.after]
    rw [unlinkOrRmdir, hunlink]
    exact congrArg (fun r => r.2.files) (System.attempt_some (hallowed _))
  have hentry : files.entry d name = some j := hwithin.entry hj
  have hdir : ∀ {i last m}, files.entry i last = some m → files.isDir i = true := by
    intro i last m hm
    obtain ⟨p, es, hi, -⟩ := entry_eq_some_iff.mp hm
    exact isDir_iff.mpr ⟨p, es, hi⟩
  have hfirst := hremoved hslash (hwithin.place hplace) hentry
  refine ⟨?_, ?_, ?_⟩
  · have hother : ¬ (e = d ∧ newName = name) := by
      rintro ⟨rfl, rfl⟩
      obtain ⟨p, es, he, hfree, -⟩ := hnamed.dir
      obtain ⟨q, more, he', hlookup⟩ := entry_eq_some_iff.mp hj
      obtain ⟨-, rfl⟩ := Node.dir.inj (Option.some.inj (he.symm.trans he'))
      rw [hfree] at hlookup
      cases hlookup
    have hleft : (files.remove d name).entry e newName = some j := by
      rw [entry_remove, if_neg hother]
      exact hnamed.entry_self
    have hstays : (files.remove d name).isFile j = true := by
      have hjd : j ≠ d := by
        rintro rfl
        have hdirj := hdir hentry
        rw [isDir_of_isFile hfile'] at hdirj
        cases hdirj
      unfold isFile
      rw [node_remove, if_neg hjd]
      exact hfile'
    have hfind := find_of_file hslash' (place_remove hentry hfile' (hdir hnamed.entry_self)
      (hwithin.place hnew)) hleft hstays
    rw [output_myCat hallowed, output_myCat hallowed, hfirst, hfind,
      find_of_file hslash hplace hj hfile, Option.elim_some, Option.elim_some, content_remove,
      content_of_node hnode]
  · rw [hfirst]
    obtain ⟨p, es, hd, -⟩ := entry_eq_some_iff.mp hentry
    obtain ⟨es', hd', -⟩ := node_remove_dir d name hd
    refine find_of_free (place_remove hentry hfile' (hdir hentry) (hwithin.place hplace)) hd' ?_
    have hgone := entry_remove_self files d name
    rw [entry, hd'] at hgone
    exact hgone
  · rw [hremoved hslash' (hwithin.place hnew) hnamed.entry_self]
    exact hnamed.remove

/-- `ln /a /b` -/
theorem cat_ln_rm_second :
    (myCat Env.plain 8 (myRm Env.plain (myLn Env.plain oneFile [47, 97] [47, 98]) [47, 97])
      [47, 98]).1 = [120] ∧
    (myRm Env.plain (myLn Env.plain oneFile [47, 97] [47, 98]) [47, 97]).files.find
      [47, 97] = none ∧
    (myRm Env.plain (myLn Env.plain oneFile [47, 97] [47, 98]) [47, 98]).files.node =
      oneFile.files.node := by
  have hcat := @cat_ln_rm Env.plain 8 oneFile [47, 97] [47, 98] 0 1 [97] (fun _ => rfl)
    (by decide +kernel) (by decide +kernel) (by decide +kernel) (by decide +kernel)
  have hbefore : (myCat Env.plain 8 oneFile [47, 97]).1 = [120] := by decide +kernel
  exact ⟨hcat.1.trans hbefore, hcat.2⟩

end FsManager
end OperatingSystems
