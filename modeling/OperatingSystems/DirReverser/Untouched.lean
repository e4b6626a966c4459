import OperatingSystems.DirReverser.Reverse
import OperatingSystems.Library.NewNodes

/-!
# What the reverser leaves alone

Below a new directory the program changes new nodes only: the path that it gives to an entry is the
path of the new directory with a name behind it, since source and destination paths have the same
length and nothing is cut off.

When a directory with the reversed name is there already, `createReverseDir` returns
`ALREADY_EXIST`, which is 0 and what both callers take for success: the program goes on in the
directory that it found, reports success, and opens files there for writing.
-/

namespace OperatingSystems
namespace DirReverser

open Files

variable {env : Env} {first n : Nat} {s s' : System} {path src dst name : List Byte} {r : Int}

theorem checkExist_spec (h : checkExist env n s path = (r, s')) :
    s'.files = s.files ∧
      (r ≠ 0 → ∃ d, s.files.find path = some d ∧ s.files.isDir d = true) := by
  unfold checkExist at h
  split at h
  case h_1 d t hopen =>
      obtain ⟨-, rfl⟩ := Prod.mk.inj h
      have hdir := System.opendir_some hopen
      exact ⟨System.files_of_unchanged hopen, fun _ => ⟨d, hdir.1, hdir.2.1⟩⟩
  case h_2 t hopen =>
      obtain ⟨rfl, rfl⟩ := Prod.mk.inj h
      exact ⟨System.files_of_unchanged hopen, fun hne => absurd rfl hne⟩

theorem createReverseDir_spares (hnew : NewFrom first s.files)
    (hlead : LeadsNew first s.files path) (hname : IsName name)
    (h : createReverseDir env n s (path ++ slash :: name) = (r, s')) :
    Spares first s.files s'.files ∧
      (r = 0 → LeadsNew first s'.files (path ++ slash :: name)) := by
  unfold createReverseDir at h
  split at h
  case h_1 exist t hexist =>
      obtain ⟨ht, hdir⟩ := checkExist_spec hexist
      split at h
      case isTrue hne =>
          obtain ⟨k, hk, hkdir⟩ := hdir hne
          obtain ⟨rfl, rfl⟩ := Prod.mk.inj h
          rw [ht]
          exact ⟨Spares.refl hnew, fun _ =>
            FileSystem.leadsNew_find hnew hlead hname hk hkdir⟩
      case isFalse =>
          rw [← ht] at hnew hlead ⊢
          by_cases hr : r = 0
          · subst hr
            obtain ⟨files, hmkdir, rfl, -⟩ := System.attempt_zero h
            obtain ⟨hspares, hlead'⟩ := FileSystem.mkdir_spares hnew hlead hname hmkdir
            exact ⟨hspares, fun _ => hlead'⟩
          · obtain ⟨-, rfl⟩ := System.attempt_ne_zero h hr
            exact ⟨Spares.refl hnew, fun hzero => absurd hzero hr⟩

/-! ### One file -/

theorem fileSize_files {f : Nat} {size : Int} (h : fileSize env s f = (size, s')) :
    s'.files = s.files := by
  unfold fileSize at h
  split at h
  case h_1 t hseek =>
      obtain ⟨-, rfl⟩ := Prod.mk.inj h
      exact System.files_of_unchanged hseek
  case h_2 t hseek =>
      rw [← System.files_of_unchanged hseek]
      split at h
      case h_1 size u htell =>
          rw [← System.files_of_unchanged htell]
          split at h
          case h_1 v hseek' =>
              obtain ⟨-, rfl⟩ := Prod.mk.inj h
              exact System.files_of_unchanged hseek'
          case h_2 v hseek' =>
              obtain ⟨-, rfl⟩ := Prod.mk.inj h
              exact System.files_of_unchanged hseek'

theorem copyLoop_spares (f : Nat) {g : Nat} (hg : first ≤ g) : ∀ fuel remaining s,
    NewFrom first s.files → Spares first s.files (copyLoop env f g fuel remaining s).files
  | 0, _, s, hnew => Spares.refl hnew
  | fuel + 1, remaining, s, hnew => by
      unfold copyLoop
      by_cases hzero : remaining = 0
      · rw [if_pos hzero]
        exact Spares.refl hnew
      · rw [if_neg hzero]
        dsimp only
        split
        case h_1 t hseek =>
            rw [← System.files_of_unchanged hseek] at hnew ⊢
            exact Spares.refl hnew
        case h_2 t hseek =>
            rw [← System.files_of_unchanged hseek] at hnew ⊢
            split
            case h_1 u hread =>
                rw [← System.files_of_unchanged hread] at hnew ⊢
                exact Spares.refl hnew
            case h_2 buffer u hread =>
                rw [← System.files_of_unchanged hread] at hnew ⊢
                split
                case h_1 v hwrite =>
                    obtain ⟨bytes, hv⟩ := System.fwrite_files hwrite
                    rw [hv]
                    exact Spares.write hnew hg bytes
                case h_2 v hwrite =>
                    obtain ⟨bytes, hv⟩ := System.fwrite_files hwrite
                    have hspares := Spares.write hnew hg bytes
                    rw [← hv] at hspares
                    exact hspares.trans (copyLoop_spares f hg fuel _ v hspares.newFrom)

theorem copyContent_spares (f : Nat) {g : Nat} (hg : first ≤ g) (hnew : NewFrom first s.files) :
    Spares first s.files (copyContent env s f g).files := by
  unfold copyContent
  split
  case h_1 size t hsize =>
      rw [← fileSize_files hsize] at hnew ⊢
      split
      · exact Spares.refl hnew
      · exact copyLoop_spares f hg _ _ _ hnew

/-- The buffer is large enough for the path and the name. -/
theorem getPath_whole (path name : List Byte) {len : Nat}
    (hlen : path.length + name.length + 2 ≤ len) :
    getPath path name len = path ++ slash :: name := by
  apply List.take_of_length_le
  simp only [List.length_append, List.length_cons]
  omega

theorem createReverseFile_spares (srcName : List Byte) (hnew : NewFrom first s.files)
    (hlead : LeadsNew first s.files dst) (hname : IsName name) :
    Spares first s.files (createReverseFile env n s src srcName dst name).2.files := by
  unfold createReverseFile
  rw [getPath_whole dst name (le_refl _)]
  dsimp only
  split
  case h_1 t hopen =>
      rw [← System.files_of_unchanged hopen] at hnew ⊢
      exact Spares.refl hnew
  case h_2 f t hopen =>
      rw [← System.files_of_unchanged hopen] at hnew hlead ⊢
      split
      case h_1 u hwrite =>
          obtain rfl := System.fopenWrite_none hwrite
          exact Spares.refl hnew
      case h_2 g u hwrite =>
          obtain ⟨files, hfiles, rfl⟩ := System.fopenWrite_some hwrite
          obtain ⟨hg, hspares⟩ := FileSystem.openForWriting_spares hnew hlead hname hfiles
          exact hspares.trans (copyContent_spares (s := t.after files) f hg hspares.newFrom)

/-! ### The directory -/

/-- The reversed name of an entry is the name of an entry. -/
theorem isName_createReverseName (h : IsName name) : IsName (createReverseName name) := by
  obtain ⟨hnil, hslash, hdot, hdots⟩ := h
  have hback : ∀ other : List Byte, name.reverse = other → name = other.reverse :=
    fun other heq => by rw [← heq, List.reverse_reverse]
  refine ⟨by simpa [createReverseName] using hnil, by simpa [createReverseName] using hslash,
    fun heq => hdot (hback dot heq), fun heq => hdots (hback dotDot heq)⟩

theorem reverseEntry_spares {reverseSub : System → List Byte → List Byte → Int × System}
    (hsub : ∀ s src dst, NewFrom first s.files → LeadsNew first s.files dst →
      dst.length = src.length → Spares first s.files (reverseSub s src dst).2.files)
    (hlen : dst.length = src.length) (hname : name = dot ∨ name = dotDot ∨ IsName name)
    (hnew : NewFrom first s.files) (hlead : LeadsNew first s.files dst) :
    Spares first s.files (reverseEntry env reverseSub n src dst s name).files := by
  unfold reverseEntry
  by_cases hdots : name = dot ∨ name = dotDot
  · rw [if_pos hdots]
    exact Spares.refl hnew
  · rw [if_neg hdots]
    have hisName : IsName name := by tauto
    have hreversed := isName_createReverseName hisName
    have hlength : (createReverseName name).length = name.length := List.length_reverse
    dsimp only
    rw [getPath_whole src name (le_refl _),
      getPath_whole dst (createReverseName name) (by rw [hlength, hlen])]
    split
    case h_1 t hstat =>
        rw [← System.files_of_unchanged hstat] at hnew ⊢
        exact Spares.refl hnew
    case h_2 i t hstat =>
        rw [← System.files_of_unchanged hstat] at hnew hlead ⊢
        split
        case isTrue => exact createReverseFile_spares name hnew hlead hreversed
        case isFalse =>
            split
            case isFalse => exact Spares.refl hnew
            case isTrue =>
                rcases hcreated : createReverseDir env n t (dst ++ slash :: createReverseName name)
                  with ⟨created, u⟩
                dsimp only
                obtain ⟨hspares, hlead'⟩ :=
                  createReverseDir_spares hnew hlead hreversed hcreated
                split
                case isTrue => exact hspares
                case isFalse hzero =>
                    have hcreated := hlead' (by simpa using hzero)
                    have hlengths : (dst ++ slash :: createReverseName name).length =
                        (src ++ slash :: name).length := by
                      simp only [List.length_append, List.length_cons, hlength, hlen]
                    exact hspares.trans (hsub u _ _ hspares.newFrom hcreated hlengths)

theorem reverseFiles_spares : ∀ n (s : System) src dst, NewFrom first s.files →
    LeadsNew first s.files dst → dst.length = src.length →
      Spares first s.files (reverseFiles env n s src dst).2.files
  | 0, s, src, dst, hnew, _, _ => Spares.refl hnew
  | n + 1, s, src, dst, hnew, hlead, hlen => by
      unfold reverseFiles
      split
      case h_1 t hopen =>
          rw [← System.files_of_unchanged hopen] at hnew ⊢
          exact Spares.refl hnew
      case h_2 d t hopen =>
          rw [← System.files_of_unchanged hopen] at hnew hlead ⊢
          apply List.foldlRecOn (motive := fun u : System => Spares first t.files u.files)
          · exact Spares.refl hnew
          · intro u hu name hmem
            have hname := env.listing_isName _ _ _ name hmem
            exact hu.trans (reverseEntry_spares (reverseFiles_spares n)
              hlen hname hu.newFrom (hlead.of_within hu.within))

/-! ### The whole run -/

/-- The system some calls later, when these have changed nothing. -/
def later (s : System) (calls : Nat) : System :=
  ⟨s.files, s.calls + calls⟩

/-- The source directory: the argument, as `realpath` returns it. -/
def sourceOf (env : Env) (s : System) : List (List Byte) → Option (List Byte)
  | [path] => (s.realpath env path).1
  | _ => none

/-- `malloc` in `reverseDir` fails. -/
def OutOfMemory (env : Env) (s : System) : Prop :=
  env.refuses (later s 1).calls = true

/-- `checkExist` finds a directory under the reversed path. -/
def FindsExisting (env : Env) (n : Nat) (s : System) (src : List Byte) : Prop :=
  ((later s 2).opendir env n (reversedPathOf src)).1.isSome = true

/-- Behind that, `reverseFiles` can open the source directory. -/
def OpensSource (env : Env) (n : Nat) (s : System) (src : List Byte) : Prop :=
  ((later s 3).opendir env n src).1.isSome = true

/-- When there was none, the reversed directory is made. -/
def MakesDirectory (env : Env) (s : System) (src : List Byte) : Prop :=
  ((later s 3).mkdir env (reversedPathOf src)).1 = 0

/-- The runs of the program on the source directory `src`, and how they end. -/
inductive Ending (env : Env) (n : Nat) (s : System) (src : List Byte) : Int × System → Prop
  | noMemory {r : Int} {s' : System} (hmemory : OutOfMemory env s) (hr : r = reverseError)
      (hfiles : s'.files = s.files) : Ending env n s src (r, s')
  | intoExisting {s' : System} (hmemory : ¬ OutOfMemory env s)
      (hfound : FindsExisting env n s src) (hopens : OpensSource env n s src) :
      Ending env n s src (success, s')
  | noSource {r : Int} {s' : System} (hfound : FindsExisting env n s src)
      (hcloses : ¬ OpensSource env n s src) (hr : r = reverseError)
      (hfiles : s'.files = s.files) : Ending env n s src (r, s')
  | notMade {r : Int} {s' : System} (hnone : ¬ FindsExisting env n s src)
      (hfails : ¬ MakesDirectory env s src) (hr : r = reverseError)
      (hfiles : s'.files = s.files) : Ending env n s src (r, s')
  | intoNew {r : Int} {s' : System} {files : FileSystem} (hmemory : ¬ OutOfMemory env s)
      (hnone : ¬ FindsExisting env n s src) (hmakes : MakesDirectory env s src)
      (hmkdir : s.files.mkdir (reversedPathOf src) = some files)
      (hspares : Spares s.files.fresh files s'.files) : Ending env n s src (r, s')

theorem reverseFiles_fails {t : System} (h : (t.opendir env n src).1 = none) :
    reverseFiles env n t src dst = (dirOpenError, t.after t.files) := by
  have hopen : t.opendir env n src = (none, t.after t.files) := Prod.ext h rfl
  cases n with
  | zero => rfl
  | succ n => simp only [reverseFiles, hopen]

theorem reverseFiles_success {t : System} (h : (t.opendir env n src).1.isSome = true) :
    (reverseFiles env n t src dst).1 = success := by
  obtain ⟨d, hd⟩ := Option.isSome_iff_exists.mp h
  have hopen : t.opendir env n src = (some d, t.after t.files) := Prod.ext hd rfl
  cases n with
  | zero =>
      have hrefused := (System.opendir_some hopen).2.2
      simp [System.refusesOpen] at hrefused
  | succ n => simp only [reverseFiles, hopen]

theorem length_reversedPathOf (src : List Byte) : (reversedPathOf src).length = src.length := by
  simp only [reversedPathOf, reverseDirName, List.length_append, List.length_take,
    List.length_reverse, List.length_drop]
  omega

/-- The reversed directory is there already: `ALREADY_EXIST` is taken for success. -/
theorem reverseDir_existing (hmemory : ¬ OutOfMemory env s) (hfound : FindsExisting env n s src) :
    reverseDir env n (later s 1) src = (some (reversedPathOf src), later s 3) := by
  obtain ⟨d, hd⟩ := Option.isSome_iff_exists.mp hfound
  have hmalloc : (later s 1).malloc env = (true, later s 2) :=
    Prod.ext (by simpa [System.malloc, OutOfMemory] using hmemory) rfl
  have hopen : (later s 2).opendir env n (reversedPathOf src) = (some d, later s 3) :=
    Prod.ext hd rfl
  have hexist : checkExist env n (later s 2) (reversedPathOf src) = (1, later s 3) := by
    simp only [checkExist, hopen]
  have hcreated : createReverseDir env n (later s 2) (reversedPathOf src) =
      (alreadyExist, later s 3) := by
    simp [createReverseDir, hexist]
  simp [reverseDir, hmalloc, hcreated, alreadyExist]

/-- There is no such directory: it is made, or that fails. -/
theorem reverseDir_new (hmemory : ¬ OutOfMemory env s) (hnone : ¬ FindsExisting env n s src) :
    ∃ r t, (later s 3).mkdir env (reversedPathOf src) = (r, t) ∧
      reverseDir env n (later s 1) src =
        (if r ≠ 0 then (none, t) else (some (reversedPathOf src), t)) := by
  have hmalloc : (later s 1).malloc env = (true, later s 2) :=
    Prod.ext (by simpa [System.malloc, OutOfMemory] using hmemory) rfl
  have hopen : (later s 2).opendir env n (reversedPathOf src) = (none, later s 3) :=
    Prod.ext (by simpa [FindsExisting] using hnone) rfl
  have hexist : checkExist env n (later s 2) (reversedPathOf src) = (0, later s 3) := by
    simp only [checkExist, hopen]
  rcases hmkdir : (later s 3).mkdir env (reversedPathOf src) with ⟨r, t⟩
  refine ⟨r, t, rfl, ?_⟩
  simp [reverseDir, hmalloc, createReverseDir, hexist, hmkdir]

theorem main_ending {path : List Byte} (hsrc : sourceOf env s [path] = some src) :
    Ending env n s src (main env n s [path]) := by
  have hreal : s.realpath env path = (some src, later s 1) := Prod.ext hsrc rfl
  simp only [main, hreal]
  by_cases hmemory : OutOfMemory env s
  · have hmalloc : (later s 1).malloc env = (false, later s 2) :=
      Prod.ext (by simpa [System.malloc, OutOfMemory] using hmemory) rfl
    simp only [reverseDir, hmalloc]
    exact .noMemory hmemory rfl rfl
  · by_cases hfound : FindsExisting env n s src
    · rw [reverseDir_existing hmemory hfound]
      dsimp only
      by_cases hopens : OpensSource env n s src
      · have hsuccess : (reverseFiles env n (later s 3) src (reversedPathOf src)).1 = success :=
          reverseFiles_success hopens
        rw [hsuccess, if_neg (by simp)]
        exact .intoExisting hmemory hfound hopens
      · have hfails : ((later s 3).opendir env n src).1 = none := by
          simpa [OpensSource] using hopens
        have herror : dirOpenError ≠ success := by decide
        rw [reverseFiles_fails hfails, if_pos herror]
        exact .noSource hfound hopens rfl rfl
    · obtain ⟨r, t, hmkdir, hreverse⟩ := reverseDir_new hmemory hfound
      rw [hreverse]
      by_cases hr : r = 0
      · subst hr
        obtain ⟨files, hfiles, ht, -⟩ := System.attempt_zero hmkdir
        have hmakes : MakesDirectory env s src := congrArg Prod.fst hmkdir
        obtain ⟨hnew, hlead⟩ := FileSystem.mkdir_new hfiles
        have htfiles : t.files = files := congrArg System.files ht
        rw [← htfiles] at hnew hlead
        have hspares : Spares s.files.fresh t.files
            (reverseFiles env n t src (reversedPathOf src)).2.files :=
          reverseFiles_spares n t src _ hnew hlead (length_reversedPathOf src)
        rw [htfiles] at hspares
        rw [if_neg (by simp)]
        dsimp only
        split
        · exact .intoNew hmemory hfound hmakes hfiles hspares
        · exact .intoNew hmemory hfound hmakes hfiles hspares
      · obtain ⟨hr', ht⟩ := System.attempt_ne_zero hmkdir hr
        have hfails : ¬ MakesDirectory env s src := by
          intro hmakes
          exact hr ((congrArg Prod.fst hmkdir).symm.trans hmakes)
        rw [if_pos hr]
        subst ht
        exact .notMade hfound hfails rfl rfl

/-! ### What was there before the run -/

/-- A directory with the reversed name is reported and nothing changes; and whatever the program
does, every node that was there is as it was, except for the entries that `allowed` lists. -/
structure NeverTouches (allowed : Nat → List Byte → Prop) (env : Env) (n : Nat) (s : System)
    (args : List (List Byte)) : Prop where
  existing : ∀ src d, sourceOf env s args = some src →
    s.files.find (reversedPathOf src) = some d → s.files.isDir d = true →
      (main env n s args).1 ≠ success ∧ (main env n s args).2.files = s.files
  untouched : ∀ i node, s.files.node i = some node →
    (main env n s args).2.files.node i = some node ∨
      ∃ p es name j, node = .dir p es ∧ allowed i name ∧
        (main env n s args).2.files.node i = some (.dir p (es ++ [(name, j)]))

/-- No entry at all. -/
def noEntry (_ : Nat) (_ : List Byte) : Prop := False

/-- The entry of the reversed directory. -/
def reversedEntry (env : Env) (s : System) (args : List (List Byte)) (i : Nat)
    (name : List Byte) : Prop :=
  ∃ src, sourceOf env s args = some src ∧ s.files.place (reversedPathOf src) = some (i, name)

theorem NeverTouches.of_files {allowed : Nat → List Byte → Prop} {args : List (List Byte)}
    (hr : sourceOf env s args ≠ none → (main env n s args).1 ≠ success)
    (hfiles : (main env n s args).2.files = s.files) : NeverTouches allowed env n s args := by
  constructor
  · intro src d hsrc _ _
    exact ⟨hr (by simp [hsrc]), hfiles⟩
  · intro i node hi
    rw [hfiles]
    exact .inl hi

/-- Arguments that lead to no source directory. -/
theorem NeverTouches.of_noSource {allowed : Nat → List Byte → Prop} {args : List (List Byte)}
    (h : sourceOf env s args = none) : NeverTouches allowed env n s args := by
  refine .of_files (fun hne => absurd h hne) ?_
  unfold main
  split
  case h_1 path =>
      have hreal : s.realpath env path = (none, later s 1) := Prod.ext h rfl
      rw [hreal]
      rfl
  case h_2 => rfl

/-- What the reversed directory's `mkdir` changes among the old nodes. -/
theorem old_of_intoNew {files : FileSystem}
    (hmkdir : s.files.mkdir (reversedPathOf src) = some files)
    (hspares : Spares s.files.fresh files s'.files) :
    ∃ d p es name, s.files.place (reversedPathOf src) = some (d, name) ∧
      s.files.node d = some (.dir p es) ∧ lookup es name = none ∧
      s'.files.node d = some (.dir p (es ++ [(name, s.files.fresh)])) ∧
      ∀ i node, s.files.node i = some node → i ≠ d → s'.files.node i = some node := by
  obtain ⟨d, name, hplace, hcreated⟩ := FileSystem.mkdir_eq_some hmkdir
  obtain ⟨p, es, hd, hfree, hnode⟩ := hcreated.dir
  refine ⟨d, p, es, name, hplace, hd, hfree, ?_, fun i node hi hne => ?_⟩
  · rw [hspares.old d (FileSystem.lt_fresh hd), hnode, FileSystem.addedNode_dir hd]
  · have hlt := FileSystem.lt_fresh hi
    rw [hspares.old i hlt, hnode, FileSystem.addedNode_of_ne hlt.ne hne, hi]

theorem existing_of_findsExisting (h : FindsExisting env n s src) :
    ∃ d, s.files.find (reversedPathOf src) = some d ∧ s.files.isDir d = true := by
  obtain ⟨d, hd⟩ := Option.isSome_iff_exists.mp h
  have hopen : (later s 2).opendir env n (reversedPathOf src) = (some d, later s 3) :=
    Prod.ext hd rfl
  exact ⟨d, (System.opendir_some hopen).1, (System.opendir_some hopen).2.1⟩

/-- A run into a directory that was there reports success. -/
theorem not_neverTouches {allowed : Nat → List Byte → Prop} {args : List (List Byte)}
    (hsrc : sourceOf env s args = some src) (hfound : FindsExisting env n s src)
    (hr : (main env n s args).1 = success) : ¬ NeverTouches allowed env n s args := by
  intro h
  obtain ⟨d, hd, hdir⟩ := existing_of_findsExisting hfound
  exact (h.existing src d hsrc hd hdir).1 hr

/-- A run that reports an error and changes nothing. -/
theorem NeverTouches.of_reported {allowed : Nat → List Byte → Prop} {args : List (List Byte)}
    (hmain : main env n s args = (r, s')) (hr : r = reverseError) (hfiles : s'.files = s.files) :
    NeverTouches allowed env n s args := by
  have herror : reverseError ≠ success := by decide
  apply NeverTouches.of_files
  · intro _
    rw [hmain, hr]
    exact herror
  · rw [hmain]
    exact hfiles

theorem neverTouches_of_ending {args : List (List Byte)} (hsrc : sourceOf env s args = some src)
    (h : Ending env n s src (main env n s args))
    (hcond : OutOfMemory env s ∨ ¬ FindsExisting env n s src ∨ ¬ OpensSource env n s src) :
    NeverTouches (reversedEntry env s args) env n s args := by
  rcases hmain : main env n s args with ⟨r, s'⟩
  rw [hmain] at h
  cases h with
  | noMemory _ hr hfiles => exact .of_reported hmain hr hfiles
  | intoExisting hmemory hfound hopens => tauto
  | noSource _ _ hr hfiles => exact .of_reported hmain hr hfiles
  | notMade _ _ hr hfiles => exact .of_reported hmain hr hfiles
  | intoNew _ _ _ hmkdir hspares =>
      obtain ⟨d, p, es, name, hplace, hd, hfree, hd', hold⟩ := old_of_intoNew hmkdir hspares
      constructor
      · intro src' e hsrc' he
        rw [hsrc, Option.some.injEq] at hsrc'
        subst hsrc'
        rw [FileSystem.find_of_free hplace hd hfree] at he
        cases he
      · intro i node hi
        rw [hmain]
        by_cases hne : i = d
        · subst hne
          obtain rfl := Option.some.inj (hd.symm.trans hi)
          exact .inr ⟨p, es, name, _, rfl, ⟨src, hsrc, hplace⟩, hd'⟩
        · exact .inl (hold i node hi hne)

theorem neverTouches_noEntry_of_ending {args : List (List Byte)}
    (h : Ending env n s src (main env n s args))
    (hcond : OutOfMemory env s ∨ FindsExisting env n s src ∧ ¬ OpensSource env n s src ∨
      ¬ FindsExisting env n s src ∧ ¬ MakesDirectory env s src) :
    NeverTouches noEntry env n s args := by
  rcases hmain : main env n s args with ⟨r, s'⟩
  rw [hmain] at h
  cases h with
  | noMemory _ hr hfiles => exact .of_reported hmain hr hfiles
  | intoExisting hmemory hfound hopens => tauto
  | noSource _ _ hr hfiles => exact .of_reported hmain hr hfiles
  | notMade _ _ hr hfiles => exact .of_reported hmain hr hfiles
  | intoNew hmemory hnone hmakes => tauto

/-- The new entry is a change of the directory that holds the reversed one. -/
theorem not_neverTouches_noEntry {args : List (List Byte)} {files : FileSystem}
    (hmain : main env n s args = (r, s'))
    (hmkdir : s.files.mkdir (reversedPathOf src) = some files)
    (hspares : Spares s.files.fresh files s'.files) : ¬ NeverTouches noEntry env n s args := by
  intro h
  obtain ⟨d, p, es, name, -, hd, -, hd', -⟩ := old_of_intoNew hmkdir hspares
  rcases h.untouched d _ hd with hsame | ⟨_, _, _, _, _, hallowed, _⟩
  · rw [hmain, hd', Option.some.injEq] at hsame
    obtain ⟨-, hes⟩ := Node.dir.inj hsame
    simp at hes
  · exact hallowed

/-- The program leaves alone what is there, except for the entry that the reversed directory gets,
if and only if it finds no directory under the reversed name, or ends before it goes on in that
directory.  When this entry counts as a change too, the reversed directory must not be made. -/
theorem neverTouches_iff (env : Env) (n : Nat) (s : System) (args : List (List Byte)) :
    (NeverTouches (reversedEntry env s args) env n s args ↔
      ∀ src, sourceOf env s args = some src →
        OutOfMemory env s ∨ ¬ FindsExisting env n s src ∨ ¬ OpensSource env n s src) ∧
    (NeverTouches noEntry env n s args ↔
      ∀ src, sourceOf env s args = some src →
        OutOfMemory env s ∨ FindsExisting env n s src ∧ ¬ OpensSource env n s src ∨
          ¬ FindsExisting env n s src ∧ ¬ MakesDirectory env s src) := by
  cases hsrc : sourceOf env s args with
  | none =>
      have hall : ∀ allowed, NeverTouches allowed env n s args := fun _ => .of_noSource hsrc
      simp [hall]
  | some src =>
      have hending : Ending env n s src (main env n s args) := by
        cases args with
        | nil => cases hsrc
        | cons path more =>
            cases more with
            | nil => exact main_ending hsrc
            | cons _ _ => cases hsrc
      simp only [Option.some.injEq, forall_eq']
      refine ⟨⟨fun h => ?_, neverTouches_of_ending hsrc hending⟩,
        ⟨fun h => ?_, neverTouches_noEntry_of_ending hending⟩⟩
      all_goals
        rcases hmain : main env n s args with ⟨r, s'⟩
        rw [hmain] at hending
      · cases hending with
        | noMemory hmemory => exact .inl hmemory
        | intoExisting _ hfound =>
            exact absurd h (not_neverTouches hsrc hfound (congrArg Prod.fst hmain))
        | noSource _ hcloses => exact .inr (.inr hcloses)
        | notMade hnone => exact .inr (.inl hnone)
        | intoNew _ hnone => exact .inr (.inl hnone)
      · cases hending with
        | noMemory hmemory => exact .inl hmemory
        | intoExisting _ hfound =>
            exact absurd h (not_neverTouches hsrc hfound (congrArg Prod.fst hmain))
        | noSource hfound hcloses => exact .inr (.inl ⟨hfound, hcloses⟩)
        | notMade hnone hfails => exact .inr (.inr ⟨hnone, hfails⟩)
        | intoNew _ _ _ hmkdir hspares =>
            exact absurd h (not_neverTouches_noEntry hmain hmkdir hspares)

/-- The directory `/a` with the file `f`: its reversed name is its own. -/
def palindrome : System where
  files := .ofList [.dir 0 [([97], 1)], .dir 0 [([102], 2)], .file [120]] (by decide)
  calls := 0

/-- The program reports success, and the file is empty. -/
theorem neverTouches_palindrome :
    palindrome.files.node 2 = some (.file [120]) ∧
    (main Env.plain 8 palindrome [[47, 97]]).1 = success ∧
    (main Env.plain 8 palindrome [[47, 97]]).2.files.node 2 = some (.file []) ∧
    ¬ NeverTouches noEntry Env.plain 8 palindrome [[47, 97]] ∧
    ¬ NeverTouches (reversedEntry Env.plain palindrome [[47, 97]]) Env.plain 8 palindrome
      [[47, 97]] := by
  have hsuccess : (main Env.plain 8 palindrome [[47, 97]]).1 = success := by decide +kernel
  have hempty : (main Env.plain 8 palindrome [[47, 97]]).2.files.node 2 = some (.file []) := by
    decide +kernel
  have hfile : palindrome.files.node 2 = some (.file [120]) := by decide
  have hchanged : ∀ allowed, ¬ NeverTouches allowed Env.plain 8 palindrome [[47, 97]] := by
    intro allowed h
    rcases h.untouched 2 _ hfile with hsame | ⟨_, _, _, _, hdir, _⟩
    · rw [hempty, Option.some.injEq] at hsame
      cases hsame
    · cases hdir
  exact ⟨hfile, hsuccess, hempty, hchanged _, hchanged _⟩

end DirReverser
end OperatingSystems
