import OperatingSystems.Library.CString

/-!
# Receiving from a stream socket

A connected socket is the list of bytes its peer sends before it closes the
connection, together with the way the transport cuts them: the `k`-th entry of
`cuts` says that the `k`-th `recv` returns at most that many bytes plus one.  A
`recv` of `n > 0` bytes therefore returns between one and `n` bytes while any
are left, and the empty list stands for a result `<= 0`, at the end of the
stream.  `Socket.closed` is a descriptor on which every `recv` fails.
-/

namespace OperatingSystems

/-- What a descriptor still delivers. -/
structure Socket where
  bytes : List Byte
  cuts : List Nat

namespace Socket

/-- A descriptor that delivers nothing. -/
def closed : Socket := ⟨[], []⟩

/-- How many bytes the next `recv` of at most `n` bytes may return. -/
def cut (s : Socket) (n : Nat) : Nat :=
  match s.cuts with
  | [] => n
  | c :: _ => min n (c + 1)

/-- `recv(socket, buf, n, 0)`: the bytes written to `buf`. -/
def recv (s : Socket) (n : Nat) : List Byte × Socket :=
  (s.bytes.take (s.cut n), ⟨s.bytes.drop (s.cut n), s.cuts.tail⟩)

theorem cut_le (s : Socket) (n : Nat) : s.cut n ≤ n := by
  unfold cut
  cases s.cuts with
  | nil => exact Nat.le_refl n
  | cons c cuts => exact Nat.min_le_left n (c + 1)

theorem cut_pos (s : Socket) {n : Nat} (hn : 0 < n) : 0 < s.cut n := by
  unfold cut
  cases s.cuts with
  | nil => exact hn
  | cons c cuts => exact lt_min hn (Nat.succ_pos c)

@[simp] theorem cut_one (s : Socket) : s.cut 1 = 1 := by
  have hle := s.cut_le 1
  have hpos := s.cut_pos Nat.one_pos
  omega

/-- Nothing is lost and nothing is reordered by a `recv`. -/
theorem recv_append (s : Socket) (n : Nat) : (s.recv n).1 ++ (s.recv n).2.bytes = s.bytes :=
  List.take_append_drop _ _

theorem length_recv_le (s : Socket) (n : Nat) : (s.recv n).1.length ≤ n := by
  have hle := s.cut_le n
  simp only [recv, List.length_take]
  omega

/-- A `recv` returns nothing only at the end of the stream. -/
theorem recv_eq_nil_iff (s : Socket) {n : Nat} (hn : 0 < n) :
    (s.recv n).1 = [] ↔ s.bytes = [] := by
  have hpos := s.cut_pos hn
  simp [recv, List.take_eq_nil_iff, Nat.ne_of_gt hpos]

end Socket
end OperatingSystems
