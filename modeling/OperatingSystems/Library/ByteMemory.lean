import Mathlib.Data.Set.Function
import Mathlib.Logic.Function.Basic
import Mathlib.Order.Interval.Set.Defs
import OperatingSystems.Library.CString

/-!
# Byte memory

Memory as a C program sees it: a byte at every address.  Unsigned integers are
stored in little-endian order.

* `load`, `store` — read and write an integer of `n` bytes; `fill` is `memset`.
* `load_store` — what was stored is read back; `store_frame`, `load_store_of_disjoint`,
  `fill_frame` — a write changes nothing elsewhere.
* `eqOn_store`, `eqOn_fill` — the same write to two memories keeps them as alike as they are.
* `bytesAt`, `copy` — read a range of bytes; `copy` is `memcpy` into the memory.
* `bytesAt_copy` — a copy behind a range extends it.
* `wadd`, `wsub` — the arithmetic of 64-bit unsigned integers and pointers.
-/

namespace OperatingSystems

/-- A byte at every address. -/
abbrev ByteMemory := Nat → Byte

namespace ByteMemory

/-- Read an unsigned integer of `n` bytes. -/
def load (m : ByteMemory) (a : Nat) : Nat → Nat
  | 0 => 0
  | n + 1 => (m a).toNat + 256 * load m (a + 1) n

/-- Write the low `n` bytes of an integer. -/
def store (m : ByteMemory) (a : Nat) : Nat → Nat → ByteMemory
  | 0, _ => m
  | n + 1, v => store (Function.update m a (UInt8.ofNat v)) (a + 1) n (v / 256)

/-- `memset(a, value, n)`. -/
def fill (m : ByteMemory) (a n : Nat) (value : Byte) : ByteMemory :=
  fun x => if a ≤ x ∧ x < a + n then value else m x

variable {m m' : ByteMemory} {a b n k v x : Nat}

/-- A store changes only the bytes it covers. -/
theorem store_frame (hx : x < a ∨ a + n ≤ x) : m.store a n v x = m x := by
  induction n generalizing m a v with
  | zero => rfl
  | succ n ih =>
      rw [store, ih (by omega), Function.update_of_ne (by omega)]

theorem fill_frame {value : Byte} (hx : x < a ∨ a + n ≤ x) : m.fill a n value x = m x :=
  if_neg (by omega)

/-- A load reads only the bytes it covers. -/
theorem load_congr (h : ∀ x, a ≤ x → x < a + n → m' x = m x) : load m' a n = load m a n := by
  induction n generalizing a with
  | zero => rfl
  | succ n ih =>
      rw [load, load, h a le_rfl (by omega), ih fun x hx hlt => h x (by omega) (by omega)]

theorem load_lt : load m a n < 256 ^ n := by
  induction n generalizing a with
  | zero => exact Nat.one_pos
  | succ n ih =>
      have hbyte : (m a).toNat < 256 := (m a).toNat_lt
      have hrest := ih (a := a + 1)
      rw [load, Nat.pow_succ]
      omega

/-- What was stored is read back. -/
theorem load_store (hv : v < 256 ^ n) : load (m.store a n v) a n = v := by
  induction n generalizing m a v with
  | zero =>
      rw [Nat.pow_zero] at hv
      rw [load]
      omega
  | succ n ih =>
      have hrest : v / 256 < 256 ^ n := Nat.div_lt_of_lt_mul (by rwa [← Nat.pow_succ'])
      rw [store, load, ih hrest, store_frame (by omega), Function.update_self]
      simp only [UInt8.toNat_ofNat']
      omega

theorem load_store_of_disjoint (h : b + k ≤ a ∨ a + n ≤ b) :
    load (m.store a n v) b k = load m b k :=
  load_congr fun _ hx hlt => store_frame (by omega)

/-- Two memories that agree somewhere still do when the same is stored in both. -/
theorem eqOn_store {t : Set Nat} (h : Set.EqOn m m' t) (a n v : Nat) :
    Set.EqOn (m.store a n v) (m'.store a n v) t := by
  induction n generalizing m m' a v with
  | zero => exact h
  | succ n ih =>
      refine ih (fun x hx => ?_) (a + 1) (v / 256)
      by_cases hxa : x = a
      · rw [hxa, Function.update_self, Function.update_self]
      · rw [Function.update_of_ne hxa, Function.update_of_ne hxa, h hx]

/-- They agree on the range as well when it is filled with the same value. -/
theorem eqOn_fill {t : Set Nat} (h : Set.EqOn m m' t) (a n : Nat) (value : Byte) :
    Set.EqOn (m.fill a n value) (m'.fill a n value) (t ∪ Set.Ico a (a + n)) := by
  intro x hx
  unfold fill
  by_cases hin : a ≤ x ∧ x < a + n
  · rw [if_pos hin, if_pos hin]
  · rw [if_neg hin, if_neg hin, h (hx.resolve_right hin)]

/-- The `n` bytes from `a` on. -/
def bytesAt (m : ByteMemory) (a n : Nat) : List Byte :=
  (List.range n).map fun k => m (a + k)

/-- `memcpy(a, data, length of data)`. -/
def copy (m : ByteMemory) (a : Nat) (data : List Byte) : ByteMemory :=
  fun x => if a ≤ x ∧ x < a + data.length then data.getD (x - a) 0 else m x

@[simp] theorem length_bytesAt : (m.bytesAt a n).length = n := by
  simp [bytesAt]

@[simp] theorem bytesAt_zero : m.bytesAt a 0 = [] := rfl

theorem bytesAt_add : m.bytesAt a (n + k) = m.bytesAt a n ++ m.bytesAt (a + n) k := by
  simp [bytesAt, List.range_add, Nat.add_assoc]

/-- Some bytes of a range, and the rest of it. -/
theorem bytesAt_split (h : k ≤ n) :
    m.bytesAt a n = m.bytesAt a k ++ m.bytesAt (a + k) (n - k) := by
  rw [← bytesAt_add, Nat.add_sub_cancel' h]

/-- A copy behind a range extends it. -/
theorem bytesAt_copy (data : List Byte) :
    (m.copy (a + n) data).bytesAt a (n + data.length) = m.bytesAt a n ++ data := by
  rw [bytesAt_add]
  congr 1
  · refine List.map_congr_left fun k hk => ?_
    have hlt := List.mem_range.mp hk
    exact if_neg (by omega)
  · refine List.ext_getElem (by simp) fun k hk hk' => ?_
    have hlt : k < data.length := by simpa using hk
    simp [bytesAt, copy, hlt]

end ByteMemory

/-- Addition of 64-bit unsigned integers. -/
def wadd (a b : Nat) : Nat :=
  (a + b) % 2 ^ 64

/-- Subtraction of 64-bit unsigned integers. -/
def wsub (a b : Nat) : Nat :=
  (a + (2 ^ 64 - b % 2 ^ 64)) % 2 ^ 64

theorem wadd_of_lt {a b : Nat} (h : a + b < 2 ^ 64) : wadd a b = a + b :=
  Nat.mod_eq_of_lt h

theorem wsub_of_le {a b : Nat} (h : b ≤ a) (ha : a < 2 ^ 64) : wsub a b = a - b := by
  have hb : b % 2 ^ 64 = b := Nat.mod_eq_of_lt (by omega)
  unfold wsub
  omega

end OperatingSystems
