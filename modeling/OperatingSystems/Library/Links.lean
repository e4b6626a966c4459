import OperatingSystems.Library.FileCalls
import OperatingSystems.Library.Trees

/-!
# Hard links and symbolic links

A second name for a node, and a new symbolic link; both add one entry to one directory.

* `FileSystem.giveName` — a new entry for a node that is there and is no directory.
* `FileSystem.link`, `FileSystem.symlink`, `FileSystem.readlink`, `FileSystem.unlinkOrRmdir` — what
  the calls `link`, `symlink`, `readlink` and `remove` do when they are not refused.
* `Named.remove` — when the new entry is taken away again, everything is as before.
* `find_of_readlink` — behind a link is found what its target leads to.
-/

namespace OperatingSystems
namespace Files
namespace FileSystem

/-! ### A new entry -/

/-- An entry in directory `i` for node `j`, which is no directory. -/
def addName (fs : FileSystem) {i p j : Nat} {es : List (List Byte × Nat)}
    (hi : fs.node i = some (.dir p es)) {name : List Byte} (hname : IsName name)
    (hfree : lookup es name = none) {n : Node} (hj : fs.node j = some n) (hn : n.parent = none) :
    FileSystem where
  node := Function.update fs.node i (some (.dir p (es ++ [(name, j)])))
  fresh := fs.fresh
  root := fs.root
  cwd := fs.cwd
  unused k hk := by
    have hki : k ≠ i := by
      have hlt := lt_fresh hi
      omega
    rw [Function.update_of_ne hki]
    exact fs.unused k hk
  entries k q more hk := by
    have hsame : ∀ m, (fs.node m).isSome →
        (Function.update fs.node i (some (.dir p (es ++ [(name, j)]))) m).map Node.parent =
          (fs.node m).map Node.parent := by
      intro m _
      by_cases hmi : m = i
      · rw [hmi, Function.update_self, hi]
        rfl
      · rw [Function.update_of_ne hmi]
    by_cases hki : k = i
    · subst hki
      rw [Function.update_self, Option.some.injEq] at hk
      obtain ⟨rfl, rfl⟩ := Node.dir.inj hk
      obtain ⟨hnames, hnodup, hsome, hparent⟩ :=
        (fs.entries k p es hi).of_parent (List.Sublist.refl es) hsame
      have hjk : j ≠ k := by
        rintro rfl
        rw [hi, Option.some.injEq] at hj
        subst hj
        cases hn
      refine ⟨fun e he => ?_, ?_, fun e he => ?_, fun e he r less hdir => ?_⟩
      · rcases List.mem_append.mp he with he | he
        · exact hnames e he
        · rw [List.mem_singleton.mp he]
          exact hname
      · rw [List.map_append, List.nodup_append]
        refine ⟨hnodup, List.nodup_singleton _, fun a ha b hb => ?_⟩
        rintro rfl
        obtain rfl := List.mem_singleton.mp hb
        exact lookup_eq_none_iff.mp hfree ha
      · rcases List.mem_append.mp he with he | he
        · exact hsome e he
        · rw [List.mem_singleton.mp he, Function.update_of_ne hjk, hj]
          rfl
      · rcases List.mem_append.mp he with he | he
        · exact hparent e he r less hdir
        · rw [List.mem_singleton.mp he, Function.update_of_ne hjk, hj, Option.some.injEq] at hdir
          subst hdir
          cases hn
    · rw [Function.update_of_ne hki] at hk
      exact (fs.entries k q more hk).of_parent (List.Sublist.refl more) hsame

/-- The entry, when `i` is a directory that does not have the name yet and `j` is no directory. -/
def giveName (fs : FileSystem) (i : Nat) (name : List Byte) (j : Nat) : Option FileSystem :=
  if hname : IsName name then
    match hi : fs.node i, hj : fs.node j with
    | some (.dir _ es), some n =>
        if hn : n.parent = none then
          match hfree : lookup es name with
          | none => some (fs.addName hi hname hfree hj hn)
          | some _ => none
        else none
    | _, _ => none
  else none

/-- What a new entry for node `j` in directory `i` is. -/
structure Named (fs : FileSystem) (i : Nat) (name : List Byte) (j : Nat) (fs' : FileSystem) :
    Prop where
  isName : IsName name
  dir : ∃ p es, fs.node i = some (.dir p es) ∧ lookup es name = none ∧
    fs'.node = Function.update fs.node i (some (.dir p (es ++ [(name, j)])))
  node : ∃ n, fs.node j = some n ∧ n.parent = none
  fresh : fs'.fresh = fs.fresh
  root : fs'.root = fs.root
  cwd : fs'.cwd = fs.cwd

theorem named_of_giveName {fs fs' : FileSystem} {i j : Nat} {name : List Byte}
    (h : fs.giveName i name j = some fs') : fs.Named i name j fs' := by
  unfold giveName at h
  split at h
  case isFalse => cases h
  case isTrue hname =>
      split at h
      case h_2 => cases h
      case h_1 p es n hi hj =>
          split at h
          case isFalse => cases h
          case isTrue hn =>
              split at h
              case h_2 => cases h
              case h_1 hfree =>
                  obtain rfl := Option.some.inj h
                  exact ⟨hname, ⟨p, es, hi, hfree, rfl⟩, ⟨n, hj, hn⟩, rfl, rfl, rfl⟩

namespace Named

variable {fs fs' : FileSystem} {i j k : Nat} {name : List Byte}

theorem within (h : fs.Named i name j fs') : fs.Within fs' := by
  obtain ⟨p, es, hi, hfree, hnode⟩ := h.dir
  refine ⟨h.root.symm, h.cwd.symm, fun k n hn => ?_⟩
  rw [hnode]
  by_cases hki : k = i
  · subst hki
    obtain rfl := Option.some.inj (hi.symm.trans hn)
    refine ⟨_, Function.update_self .., .dir p fun other m hm => ?_⟩
    rw [lookup_concat, hm]
    rfl
  · exact ⟨n, (Function.update_of_ne hki ..).trans hn, Node.Within.refl n⟩

theorem entry_self (h : fs.Named i name j fs') : fs'.entry i name = some j := by
  obtain ⟨p, es, hi, hfree, hnode⟩ := h.dir
  refine entry_eq_some_iff.mpr ⟨p, es ++ [(name, j)], by rw [hnode, Function.update_self], ?_⟩
  rw [lookup_concat, hfree, if_pos rfl]
  rfl

theorem node_of_notDir (h : fs.Named i name j fs') (hk : fs.isDir k = false) :
    fs'.node k = fs.node k := by
  obtain ⟨p, es, hi, hfree, hnode⟩ := h.dir
  have hki : k ≠ i := by
    rintro rfl
    rw [isDir_iff.mpr ⟨p, es, hi⟩] at hk
    cases hk
  rw [hnode, Function.update_of_ne hki]

/-- Without the new entry everything is as before. -/
theorem remove (h : fs.Named i name j fs') : (fs'.remove i name).node = fs.node := by
  obtain ⟨p, es, hi, hfree, hnode⟩ := h.dir
  funext k
  rw [node_remove]
  split
  case isTrue hki =>
      subst hki
      have hfilter : es.filter (fun e => e.1 ≠ name) = es := by
        refine List.filter_eq_self.mpr fun e he => ?_
        have hne : e.1 ≠ name := fun heq =>
          lookup_eq_none_iff.mp hfree (heq ▸ List.mem_map_of_mem he)
        simpa using hne
      rw [hnode, Function.update_self, hi, Option.map_some, Node.remove, List.filter_append,
        hfilter]
      simp
  case isFalse hki => rw [hnode, Function.update_of_ne hki]

end Named

/-! ### The calls -/

/-- A new symbolic link that no entry names yet. -/
def newLink (fs : FileSystem) (target : List Byte) : FileSystem where
  node := Function.update fs.node fs.fresh (some (.link target))
  fresh := fs.fresh + 1
  root := fs.root
  cwd := fs.cwd
  unused k hk := by
    rw [Function.update_of_ne (Nat.ne_of_gt hk)]
    exact fs.unused k (Nat.le_of_succ_le hk)
  entries k p es hk := by
    have hne : k ≠ fs.fresh := by
      rintro rfl
      rw [Function.update_self] at hk
      cases hk
    rw [Function.update_of_ne hne] at hk
    refine (fs.entries k p es hk).of_parent (List.Sublist.refl es) fun m hm => ?_
    obtain ⟨n, hn⟩ := Option.isSome_iff_exists.mp hm
    rw [Function.update_of_ne (lt_fresh hn).ne]

theorem newLink_fresh (fs : FileSystem) (target : List Byte) :
    (fs.newLink target).node fs.fresh = some (.link target) :=
  Function.update_self ..

theorem newLink_node {fs : FileSystem} {target : List Byte} {k : Nat} (hk : k < fs.fresh) :
    (fs.newLink target).node k = fs.node k :=
  Function.update_of_ne hk.ne ..

theorem newLink_within (fs : FileSystem) (target : List Byte) :
    fs.Within (fs.newLink target) :=
  ⟨rfl, rfl, fun _ n hn => ⟨n, (newLink_node (lt_fresh hn)).trans hn, Node.Within.refl n⟩⟩

variable (fs : FileSystem)

/-- `link`: a link is not followed, and a directory gets no second name. -/
def link (path newPath : List Byte) : Option FileSystem :=
  if endsInSlash path || endsInSlash newPath then none
  else
    match fs.place path, fs.place newPath with
    | some (d, name), some (e, newName) => (fs.entry d name).bind (fs.giveName e newName)
    | _, _ => none

/-- `symlink`: the target is any string that could be a path. -/
def symlink (target newPath : List Byte) : Option FileSystem :=
  if !isPath target || endsInSlash newPath then none
  else
    match fs.place newPath with
    | some (e, newName) => (fs.newLink target).giveName e newName fs.fresh
    | none => none

/-- The target of the link that a path names. -/
def readlink (path : List Byte) : Option (List Byte) :=
  if endsInSlash path then none
  else
    match fs.place path with
    | some (d, name) =>
        match (fs.entry d name).bind fs.node with
        | some (.link target) => some target
        | _ => none
    | none => none

/-- `remove`: `rmdir` for what `unlink` does not take. -/
def unlinkOrRmdir (path : List Byte) : Option FileSystem :=
  (fs.unlink path).orElse fun _ => fs.rmdir path

variable {fs} {fs' : FileSystem} {path newPath target : List Byte}

theorem link_eq_some (h : fs.link path newPath = some fs') :
    endsInSlash path = false ∧ endsInSlash newPath = false ∧ ∃ d name e newName j,
      fs.place path = some (d, name) ∧ fs.entry d name = some j ∧
      fs.place newPath = some (e, newName) ∧ fs.Named e newName j fs' := by
  obtain ⟨hslash, h⟩ := Option.ite_none_left_eq_some.mp h
  rw [Bool.or_eq_true, not_or, Bool.not_eq_true, Bool.not_eq_true] at hslash
  split at h
  case h_2 => cases h
  case h_1 d name e newName hplace hnew =>
      obtain ⟨j, hj, hnamed⟩ := Option.bind_eq_some_iff.mp h
      exact ⟨hslash.1, hslash.2, d, name, e, newName, j, hplace, hj, hnew,
        named_of_giveName hnamed⟩

theorem symlink_eq_some (h : fs.symlink target newPath = some fs') :
    isPath target = true ∧ endsInSlash newPath = false ∧ ∃ e newName,
      fs.place newPath = some (e, newName) ∧
      (fs.newLink target).Named e newName fs.fresh fs' := by
  obtain ⟨hslash, h⟩ := Option.ite_none_left_eq_some.mp h
  rw [Bool.or_eq_true, not_or, Bool.not_eq_true, Bool.not_eq_true, Bool.not_eq_false'] at hslash
  split at h
  case h_2 => cases h
  case h_1 e newName hnew =>
      exact ⟨hslash.1, hslash.2, e, newName, hnew, named_of_giveName h⟩

theorem unlinkOrRmdir_eq_some (h : fs.unlinkOrRmdir path = some fs') :
    fs.unlink path = some fs' ∨ fs.rmdir path = some fs' := by
  unfold unlinkOrRmdir at h
  cases hunlink : fs.unlink path with
  | some files =>
      rw [hunlink] at h
      exact .inl h
  | none =>
      rw [hunlink] at h
      exact .inr h

theorem readlink_eq_some_iff : fs.readlink path = some target ↔ endsInSlash path = false ∧
    ∃ d name j, fs.place path = some (d, name) ∧ fs.entry d name = some j ∧
      fs.node j = some (.link target) := by
  unfold readlink
  constructor
  · intro h
    obtain ⟨hslash, h⟩ := Option.ite_none_left_eq_some.mp h
    split at h
    case h_2 => cases h
    case h_1 d name hplace =>
        split at h
        case h_2 => cases h
        case h_1 found hlink =>
            obtain rfl := Option.some.inj h
            obtain ⟨j, hj, hnode⟩ := Option.bind_eq_some_iff.mp hlink
            exact ⟨by simpa using hslash, d, name, j, hplace, hj, hnode⟩
  · rintro ⟨hslash, d, name, j, hplace, hj, hnode⟩
    simp [hslash, hplace, hj, hnode]

theorem Within.readlink (h : fs.Within fs') (hlink : fs.readlink path = some target) :
    fs'.readlink path = some target := by
  obtain ⟨hslash, d, name, j, hplace, hj, hnode⟩ := readlink_eq_some_iff.mp hlink
  obtain ⟨n, hn, hwithin⟩ := h.node j _ hnode
  obtain rfl := (hwithin.link_iff target).mp rfl
  exact readlink_eq_some_iff.mpr ⟨hslash, d, name, j, h.place hplace, h.entry hj, hn⟩

/-- A new link reads as its target. -/
theorem readlink_symlink (h : fs.symlink target path = some fs') :
    fs'.readlink path = some target := by
  obtain ⟨-, hslash, e, newName, hplace, hnamed⟩ := symlink_eq_some h
  have hlink := newLink_fresh fs target
  refine readlink_eq_some_iff.mpr ⟨hslash, e, newName, fs.fresh,
    hnamed.within.place ((newLink_within fs target).place hplace), hnamed.entry_self, ?_⟩
  rw [hnamed.node_of_notDir (by rw [isDir, hlink]), hlink]

/-! ### Behind a link -/

/-- Links that are not used do no harm. -/
theorem walk_mono {links more i k : Nat} {names : List (List Byte)} (hle : links ≤ more)
    (h : fs.walk links i names = some (.node k)) : fs.walk more i names = some (.node k) := by
  have hsucc : ∀ links i names k, fs.walk links i names = some (.node k) →
      fs.walk (links + 1) i names = some (.node k) := by
    intro links
    induction links with
    | zero => exact fun i names k h => (Within.refl fs).walkFrom (fun _ _ _ hno => by cases hno) h
    | succ links ih => exact fun i names k h => (Within.refl fs).walkFrom ih h
  induction hle with
  | refl => exact h
  | step _ ih => exact hsucc _ _ _ _ ih

/-- Where a path leads whose last name is that of a link. -/
theorem find_of_readlink {d j k : Nat} {name : List Byte} (hslash : endsInSlash path = false)
    (hplace : fs.place path = some (d, name)) (hj : fs.entry d name = some j)
    (hlink : fs.node j = some (.link target)) (hk : fs.find path = some k) :
    fs.walk maxLinks (fs.startIn d target) (steps target) = some (.node k) := by
  obtain ⟨hpath, hlast, hdots, hwalk⟩ := place_eq_some_iff.mp hplace
  obtain ⟨p, es, hd, hlookup⟩ := entry_eq_some_iff.mp hj
  have hsplit : steps path = (components path).dropLast ++ [name] := by
    have hne : components path ≠ [] := by
      intro hnil
      simp [hnil] at hlast
    have hname : (components path).getLast hne = name := by
      rw [List.getLast?_eq_some_getLast hne] at hlast
      exact Option.some.inj hlast
    rw [steps, hslash, if_neg Bool.false_ne_true, List.append_nil, ← hname,
      List.dropLast_concat_getLast]
  have hfound := (find_eq_some_iff.mp hk).2
  rw [hsplit] at hfound
  obtain ⟨e, m, hm, he, hmore⟩ := walk_append hfound
  obtain rfl : d = e := by simpa using hwalk.symm.trans he
  rw [hmore] at hfound
  cases m with
  | zero =>
      rw [walk, walkFrom_link hd hdots hlookup hlink] at hfound
      cases hfound
  | succ m =>
      rw [walk, walkFrom_link hd hdots hlookup hlink, List.append_nil] at hfound
      exact walk_mono (by omega) hfound

/-- A regular file is found under the name that it has. -/
theorem find_of_file {d j : Nat} {name : List Byte} (hslash : endsInSlash path = false)
    (hplace : fs.place path = some (d, name)) (hj : fs.entry d name = some j)
    (hfile : fs.isFile j = true) : fs.find path = some j := by
  obtain ⟨links, hresolve⟩ := resolve_of_place hplace
  obtain ⟨p, es, hd, hlookup⟩ := entry_eq_some_iff.mp hj
  obtain ⟨bytes, hnode⟩ := isFile_iff.mp hfile
  have hdots := (place_eq_some_iff.mp hplace).2.2.1
  rw [hslash, if_neg Bool.false_ne_true,
    (walk_name links hd hdots).2 j _ hlookup hnode (by simp), walk_nil] at hresolve
  rw [find, hresolve]

section Removed

variable {d j k : Nat} {name : List Byte}

/-- A directory has all entries but the one that is taken away. -/
theorem node_remove_dir (d : Nat) (name : List Byte) {i p : Nat} {es : List (List Byte × Nat)}
    (hi : fs.node i = some (.dir p es)) : ∃ es', (fs.remove d name).node i = some (.dir p es') ∧
      ∀ other, ¬ (i = d ∧ other = name) → lookup es' other = lookup es other := by
  rw [node_remove]
  split
  case isTrue hid =>
      subst hid
      refine ⟨_, by rw [hi]; rfl, fun other hother => ?_⟩
      rw [lookup_remove, if_neg fun h => hother ⟨rfl, h⟩]
  case isFalse hid => exact ⟨es, hi, fun _ _ => rfl⟩

theorem walkFrom_remove {follow follow' : Nat → List (List Byte) → Option Found}
    (hj : fs.entry d name = some j) (hfile : fs.isFile j = true) (hdir : fs.isDir k = true)
    (hfollow : ∀ i names, follow i names = some (.node k) → follow' i names = some (.node k)) :
    ∀ {names i}, fs.walkFrom follow i names = some (.node k) →
      (fs.remove d name).walkFrom follow' i names = some (.node k)
  | [], _, h => h
  | other :: names, i, h => by
      obtain ⟨bytes, hnode⟩ := isFile_iff.mp hfile
      obtain ⟨q, more, hd, hlookup⟩ := entry_eq_some_iff.mp hj
      have hsame {i : Nat} {n : Node} (hn : fs.node i = some n) (hno : ∀ p es, n ≠ .dir p es) :
          (fs.remove d name).node i = some n := by
        have hid : i ≠ d := by
          rintro rfl
          exact hno q more (Option.some.inj (hn.symm.trans hd))
        rw [node_remove, if_neg hid, hn]
      -- The step that would go to the file.
      have hat {p m : Nat} {es : List (List Byte × Nat)} (hi : fs.node i = some (.dir p es))
          (hm : lookup es other = some m) (heq : i = d ∧ other = name) : m = j := by
        obtain ⟨rfl, rfl⟩ := heq
        obtain ⟨-, rfl⟩ := Node.dir.inj (Option.some.inj (hd.symm.trans hi))
        exact Option.some.inj (hm.symm.trans hlookup)
      cases firstStep_of_walkFrom h with
      | here hi hrest =>
          obtain ⟨es', hi', -⟩ := node_remove_dir d name hi
          rw [walkFrom_dot hi']
          exact walkFrom_remove hj hfile hdir hfollow hrest
      | up hi hrest =>
          obtain ⟨es', hi', -⟩ := node_remove_dir d name hi
          rw [walkFrom_dotDot hi']
          exact walkFrom_remove hj hfile hdir hfollow hrest
      | link hi hname hm hlink hrest =>
          obtain ⟨es', hi', hes⟩ := node_remove_dir d name hi
          have hne : ¬ (i = d ∧ other = name) := by
            intro heq
            rw [hat hi hm heq, hnode] at hlink
            cases hlink
          rw [walkFrom_link hi' hname ((hes other hne).trans hm) (hsame hlink (by simp))]
          exact hfollow _ _ hrest
      | @entry p m es _ n hi hname hm hn hlink hrest =>
          obtain ⟨es', hi', hes⟩ := node_remove_dir d name hi
          have hne : ¬ (i = d ∧ other = name) := by
            intro heq
            obtain rfl := hat hi hm heq
            cases names with
            | nil =>
                obtain rfl : m = k := by simpa [walkFrom_nil] using hrest
                rw [isDir_of_isFile hfile] at hdir
                cases hdir
            | cons next names => simp [walkFrom, hnode] at hrest
          obtain ⟨n', hn', hlink'⟩ : ∃ n', (fs.remove d name).node m = some n' ∧
              ∀ target, n' ≠ .link target := by
            cases n with
            | dir p es =>
                obtain ⟨es', hm', -⟩ := node_remove_dir d name hn
                exact ⟨_, hm', (by simp)⟩
            | file bytes => exact ⟨_, hsame hn (by simp), (by simp)⟩
            | link target => exact absurd rfl (hlink target)
            | special => exact ⟨_, hsame hn (by simp), (by simp)⟩
          rw [walkFrom_entry hi' hname ((hes other hne).trans hm) hn' hlink']
          exact walkFrom_remove hj hfile hdir hfollow hrest

/-- No directory is reached through a regular file. -/
theorem walk_remove (hj : fs.entry d name = some j) (hfile : fs.isFile j = true)
    (hdir : fs.isDir k = true) : ∀ {links i names}, fs.walk links i names = some (.node k) →
      (fs.remove d name).walk links i names = some (.node k)
  | 0, _, _, h => walkFrom_remove hj hfile hdir (fun _ _ hno => by cases hno) h
  | _ + 1, _, _, h => walkFrom_remove hj hfile hdir (fun _ _ => walk_remove hj hfile hdir) h

theorem place_remove {e : Nat} {last : List Byte} (hj : fs.entry d name = some j)
    (hfile : fs.isFile j = true) (hdir : fs.isDir e = true)
    (hplace : fs.place path = some (e, last)) :
    (fs.remove d name).place path = some (e, last) := by
  obtain ⟨hpath, hlast, hdots, hwalk⟩ := place_eq_some_iff.mp hplace
  exact place_eq_some_iff.mpr ⟨hpath, hlast, hdots, walk_remove hj hfile hdir hwalk⟩

end Removed

end FileSystem

namespace System

variable (env : Env) (s : System)

def link (path newPath : List Byte) : Int × System :=
  s.attempt env (s.files.link path newPath)

def symlink (target newPath : List Byte) : Int × System :=
  s.attempt env (s.files.symlink target newPath)

def remove (path : List Byte) : Int × System :=
  s.attempt env (s.files.unlinkOrRmdir path)

/-- `readlink` into a buffer of this size. -/
def readlink (path : List Byte) (size : Nat) : Option (List Byte) × System :=
  (if env.refuses s.calls then none else (s.files.readlink path).map (·.take size),
    s.after s.files)

/-- What one `fgetc` after the other returns, up to the end of the file or an error. -/
def fgetcs (i : Nat) : List Byte × System :=
  (if env.refuses s.calls then (s.files.content i).take (env.stored s.calls)
    else s.files.content i, s.after s.files)

end System
end Files
end OperatingSystems
