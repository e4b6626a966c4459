import OperatingSystems.SelectServer.Echo

/-!
# The window that is handed to `send`

`flushClientBuffer` sends the `sendLength` bytes from `sendOffset` on.  `handleMessage` compares
only `sendLength` with the size of the buffer and copies a message to `sendBuffer + sendLength`,
so behind a partial `send` the window grows by bytes that were not copied.

* `Watched` — the server, and which bytes of the buffers were written for the present clients.
* `Window` — the window of a slot lies in the buffer, and its bytes were written.
* `sendWindow` — the runs in which this holds for every slot, and the messages that end it.
-/

namespace OperatingSystems
namespace SelectServer

/-! ### The bytes that were written -/

/-- `written i` are the offsets in `sendBuffer` that were written since the client of slot `i`
got it. -/
structure Watched where
  server : Server
  written : Fin maxClients → Nat → Bool

namespace Watched

/-- The bytes that were written after the next statement: `addClient` begins anew, and `memcpy`
in `handleMessage` writes `toRead` bytes. -/
def marks (w : Watched) (a : Input) : Fin maxClients → Nat → Bool :=
  match w.server.pc, a with
  | .accept, .accept (some _) =>
      match w.server.slots.slotOf 0 with
      | none => w.written
      | some i => Function.update w.written i fun _ => false
  | .handle i, .read (some data) =>
      let c := w.server.slots.clients i
      if c.fits data then
        Function.update w.written i fun k =>
          w.written i k || (c.sendLength ≤ k && k < c.sendLength + data.length)
      else w.written
  | _, _ => w.written

/-- One statement of `serverLoop`.  A `send` may also take nothing. -/
def next (w : Watched) (a : Input) : Option Watched :=
  match w.server.pc, a with
  | .flush i, .send (some 0) => if 0 < (w.server.slots.clients i).sendLength then some w else none
  | _, _ => (w.server.next a).map fun server => ⟨server, w.marks a⟩

end Watched

/-- The server with the bytes that were written as a machine. -/
def watchedLoop : Machine Watched Input where
  step := Watched.next

/-- No client yet; `clients` is initialised with zeros. -/
def StartsWatched (w : Watched) : Prop :=
  Starts w.server ∧ (∀ i, (w.server.slots.clients i).sendOffset = 0) ∧
    w.written = fun _ _ => false

/-! ### One slot -/

/-- The bytes that are handed to `send` lie in the buffer and were written for this client. -/
structure Window (c : Client) (written : Nat → Bool) : Prop where
  bound : c.sendOffset + c.sendLength ≤ sendBufferSize
  covered : ∀ k, c.sendOffset ≤ k → k < c.sendOffset + c.sendLength → written k = true

/-- Each of the `n` bytes by which a message makes the window longer is one that the message
writes, or was written before. -/
def Extends (c : Client) (written : Nat → Bool) (n : Nat) : Prop :=
  ∀ k < n, c.sendOffset + c.sendLength + k < c.sendLength + n ∨
    written (c.sendOffset + c.sendLength + k) = true

instance (c : Client) (written : Nat → Bool) (n : Nat) : Decidable (Extends c written n) :=
  inferInstanceAs (Decidable (∀ k < n, _ ∨ _))

/-- A message for a client of whose bytes none were sent writes all of them. -/
theorem Extends.of_sendOffset {c : Client} (hoffset : c.sendOffset = 0) (written : Nat → Bool)
    (n : Nat) : Extends c written n := by
  intro k hk
  left
  omega

namespace Window

variable {c : Client} {written written' : Nat → Bool} {n : Nat} {data : List Byte}

/-- There is nothing to send. -/
theorem of_empty (hoffset : c.sendOffset = 0) (hlength : c.sendLength = 0) : Window c written := by
  refine ⟨by omega, fun k hk hlt => ?_⟩
  omega

theorem mono (h : Window c written) (hle : ∀ k, written k = true → written' k = true) :
    Window c written' :=
  ⟨h.bound, fun k hk hlt => hle k (h.covered k hk hlt)⟩

/-- A `send` moves the window, or empties it. -/
theorem advance (h : Window c written) (hn : n ≤ c.sendLength) : Window (c.advance n) written := by
  obtain ⟨hbound, hcovered⟩ := h
  by_cases hall : c.sendLength - n = 0
  · apply of_empty
    · simp [Client.advance, hall]
    · exact hall
  · have hoffset : (c.advance n).sendOffset = c.sendOffset + n := by simp [Client.advance, hall]
    have hlength : (c.advance n).sendLength = c.sendLength - n := rfl
    refine ⟨by omega, fun k hk hlt => ?_⟩
    apply hcovered <;> omega

/-- A message that fits: the window after it. -/
theorem append_iff (h : Window c written) (hinside : ∀ k, written k = true → k < sendBufferSize)
    (hfits : c.fits data = true) :
    Window (c.append data)
        (fun k => written k || (c.sendLength ≤ k && k < c.sendLength + data.length)) ↔
      Extends c written data.length := by
  have hroom : c.sendLength + data.length ≤ sendBufferSize := by simpa [Client.fits] using hfits
  have hoffset : (c.append data).sendOffset = c.sendOffset := rfl
  have hlength : (c.append data).sendLength = c.sendLength + data.length := rfl
  constructor
  · intro hafter k hk
    have hwritten := hafter.covered (c.sendOffset + c.sendLength + k) (by omega) (by omega)
    simp only [Bool.or_eq_true, Bool.and_eq_true, decide_eq_true_eq] at hwritten
    rcases hwritten with hbefore | ⟨-, hmessage⟩
    · exact .inr hbefore
    · exact .inl hmessage
  · intro hextends
    refine ⟨?_, fun k hk hlt => ?_⟩
    · -- The last byte of the window was written, so it lies in the buffer.
      rcases Nat.eq_zero_or_pos data.length with hnone | hpos
      · have := h.bound
        omega
      · rcases hextends (data.length - 1) (by omega) with hlast | hlast
        · omega
        · have := hinside _ hlast
          omega
    · simp only [Bool.or_eq_true, Bool.and_eq_true, decide_eq_true_eq]
      by_cases hold : k < c.sendOffset + c.sendLength
      · exact .inl (h.covered k hk hold)
      · have hnew := hextends (k - (c.sendOffset + c.sendLength)) (by omega)
        rw [Nat.add_sub_cancel' (by omega)] at hnew
        rcases hnew with hnew | hnew
        · exact .inr ⟨by omega, by omega⟩
        · exact .inl hnew

end Window

/-! ### Runs -/

/-- A message that is kept leaves only written bytes in the window. -/
def inWindow (w : Watched) : Input → Bool
  | .read (some data) =>
      match w.server.pc with
      | .handle i =>
          !(w.server.slots.clients i).fits data ||
            Extends (w.server.slots.clients i) (w.written i) data.length
      | _ => true
  | _ => true

namespace Watched

variable {w w' : Watched} {a : Input}

/-- Bytes are written for a new client and by a message only. -/
theorem marks_eq (hclient : ∀ newSocket, a ≠ .accept (some newSocket))
    (hread : ∀ data, a ≠ .read (some data)) : w.marks a = w.written := by
  unfold marks
  split
  case h_1 newSocket _ => exact absurd rfl (hclient newSocket)
  case h_2 i data _ => exact absurd rfl (hread data)
  case h_3 => rfl

theorem inWindow_of_ne (hread : ∀ data, a ≠ .read (some data)) : inWindow w a = true := by
  unfold inWindow
  split
  case h_1 data => exact absurd rfl (hread data)
  case h_2 => rfl

theorem inWindow_of_inPlace (h : inPlace w.server a = true) : inWindow w a = true := by
  unfold inWindow
  split
  case h_2 => rfl
  case h_1 data =>
    split
    case h_2 => rfl
    case h_1 i hpc =>
      simp only [inPlace, hpc, Bool.or_eq_true, decide_eq_true_eq] at h
      rw [Bool.or_eq_true, decide_eq_true_eq]
      rcases h with (hempty | hfull) | hoffset
      · right
        intro k hk
        rw [hempty] at hk
        cases hk
      · exact .inl hfull
      · exact .inr (Extends.of_sendOffset hoffset _ _)

/-- Everything a statement does to the slots: nothing, or one of the calls. -/
theorem next_cases (h : w.next a = some w') :
    (w'.server.slots = w.server.slots ∧ w'.written = w.written ∧ inWindow w a = true) ∨
    (∃ newSocket, w'.server.slots = w.server.slots.addClient newSocket ∧
      w.server.pc = .accept ∧ a = .accept (some newSocket) ∧ w'.written = w.marks a) ∨
    (∃ i data, w'.server.slots = w.server.slots.handleMessage i (some data) ∧
      w.server.pc = .handle i ∧ a = .read (some data) ∧ w'.written = w.marks a) ∨
    ∃ i n, w'.server.slots = w.server.slots.flush i n ∧
      n ≤ (w.server.slots.clients i).sendLength ∧ w'.written = w.written ∧
      inWindow w a = true := by
  unfold next at h
  split at h
  case h_1 i hpc =>
    left
    obtain rfl := Option.some.inj (Option.ite_none_right_eq_some.mp h).2
    exact ⟨rfl, rfl, rfl⟩
  case h_2 =>
    obtain ⟨server, hserver, rfl⟩ := Option.map_eq_some_iff.mp h
    cases Server.does hserver with
    | nothing hslots hhandles hnoClient hnoRead hnoSend =>
        left
        exact ⟨hslots, marks_eq hnoClient fun data => hnoRead (some data),
          inWindow_of_ne fun data => hnoRead (some data)⟩
    | addClient newSocket hpc hinput hclosed hslots =>
        right; left
        exact ⟨newSocket, hslots, hpc, hinput, rfl⟩
    | handleMessage i result hpc hinput hslots =>
        subst hinput
        cases result with
        | none =>
            left
            exact ⟨hslots, marks_eq (by simp) (by simp), rfl⟩
        | some data =>
            right; right; left
            exact ⟨i, data, hslots, hpc, rfl, rfl⟩
    | sendFails i hpc hinput hpending hslots =>
        left
        subst hinput
        exact ⟨hslots, marks_eq (by simp) (by simp), rfl⟩
    | flush i n hpc hinput hpos htaken hslots =>
        right; right; right
        subst hinput
        exact ⟨i, n, hslots, htaken, marks_eq (by simp) (by simp), rfl⟩

end Watched

/-- Every window lies in its buffer and was written; so do the bytes that were written. -/
structure Watches (w : Watched) : Prop where
  window : ∀ i, Window (w.server.slots.clients i) (w.written i)
  inside : ∀ i k, w.written i k = true → k < sendBufferSize

/-- `deleteClient` empties at most one slot. -/
theorem Slots.clients_deleteClient (s : Slots) (sd : Nat) (j : Fin maxClients) :
    (s.deleteClient sd).clients j = s.clients j ∨
      (s.deleteClient sd).clients j = (s.clients j).reset := by
  cases hslot : s.slotOf sd with
  | none =>
      left
      simp [deleteClient, hslot]
  | some i =>
      by_cases hji : j = i
      · right
        simp [deleteClient, hslot, set, hji]
      · left
        simp [deleteClient, hslot, set, hji]

namespace Watches

variable {w w' : Watched} {a : Input} {i : Fin maxClients} {data : List Byte}

/-- A client that leaves has no window. -/
theorem window_deleteClient (h : Watches w) {s : Slots} (hs : s.clients = w.server.slots.clients)
    (sd : Nat) (j : Fin maxClients) : Window ((s.deleteClient sd).clients j) (w.written j) := by
  rcases s.clients_deleteClient sd j with hsame | hreset
  · rw [hsame, hs]
    exact h.window j
  · rw [hreset]
    exact .of_empty rfl rfl

/-- A new client gets an empty window. -/
theorem addClient (h : Watches w) {newSocket : Nat} (hpc : w.server.pc = .accept)
    (hslots : w'.server.slots = w.server.slots.addClient newSocket)
    (hwritten : w'.written = w.marks (.accept (some newSocket))) : Watches w' := by
  simp only [Watched.marks, hpc] at hwritten
  cases hslot : w.server.slots.slotOf 0 with
  | none =>
      simp only [hslot] at hwritten
      simp only [Slots.addClient, hslot] at hslots
      refine ⟨fun j => ?_, ?_⟩
      · rw [hslots, hwritten]
        exact h.window j
      · rw [hwritten]
        exact h.inside
  | some i =>
      simp only [hslot] at hwritten
      simp only [Slots.addClient, hslot, Slots.set] at hslots
      refine ⟨fun j => ?_, fun j k hk => ?_⟩
      · by_cases hji : j = i
        · subst hji
          rw [hslots]
          apply Window.of_empty <;> simp
        · rw [hslots, hwritten, Function.update_of_ne hji]
          simp only [Function.update_of_ne hji]
          exact h.window j
      · by_cases hji : j = i
        · subst hji
          simp [hwritten] at hk
        · rw [hwritten, Function.update_of_ne hji] at hk
          exact h.inside j k hk

/-- The bytes that a message writes lie in the buffer. -/
theorem inside_message (h : Watches w) (hpc : w.server.pc = .handle i) (j : Fin maxClients)
    (k : Nat) (hk : w.marks (.read (some data)) j k = true) : k < sendBufferSize := by
  simp only [Watched.marks, hpc] at hk
  by_cases hfits : (w.server.slots.clients i).fits data = true
  · rw [if_pos hfits] at hk
    by_cases hji : j = i
    · subst hji
      have hroom : (w.server.slots.clients j).sendLength + data.length ≤ sendBufferSize := by
        simpa [Client.fits] using hfits
      simp only [Function.update_self, Bool.or_eq_true, Bool.and_eq_true, decide_eq_true_eq] at hk
      rcases hk with hbefore | ⟨-, hmessage⟩
      · exact h.inside j k hbefore
      · omega
    · rw [Function.update_of_ne hji] at hk
      exact h.inside j k hk
  · rw [if_neg hfits] at hk
    exact h.inside j k hk

/-- A message keeps the windows, if and only if only written bytes come into one. -/
theorem handleMessage_iff (h : Watches w) (hpc : w.server.pc = .handle i)
    (hslots : w'.server.slots = w.server.slots.handleMessage i (some data))
    (hwritten : w'.written = w.marks (.read (some data))) :
    (∀ j, Window (w'.server.slots.clients j) (w'.written j)) ↔
      inWindow w (.read (some data)) = true := by
  have hwindow : inWindow w (.read (some data)) = true ↔
      ((w.server.slots.clients i).fits data = true →
        Extends (w.server.slots.clients i) (w.written i) data.length) := by
    simp only [inWindow, hpc]
    cases (w.server.slots.clients i).fits data <;> simp
  simp only [Watched.marks, hpc] at hwritten
  simp only [Slots.handleMessage] at hslots
  rw [hwindow]
  by_cases hempty : data = []
  · -- The client has gone.
    refine iff_of_true (fun j => ?_) fun _ k hk => by simp [hempty] at hk
    rw [if_pos hempty] at hslots
    rw [hslots]
    apply (h.window_deleteClient rfl _ j).mono
    intro k hk
    rw [hwritten]
    split
    · by_cases hji : j = i
      · subst hji
        simp [hk]
      · rwa [Function.update_of_ne hji]
    · exact hk
  · rw [if_neg hempty] at hslots
    by_cases hfits : (w.server.slots.clients i).fits data = true
    · rw [if_pos hfits] at hslots hwritten
      -- The message is put behind the others; no other slot changes.
      have hself := (h.window i).append_iff (h.inside i) hfits
      constructor
      · intro hall _
        have hi := hall i
        rw [hslots, hwritten] at hi
        simp only [Slots.set, Slots.receive, Function.update_self] at hi
        exact hself.mp hi
      · intro hextends j
        rw [hslots, hwritten]
        by_cases hji : j = i
        · subst hji
          simp only [Slots.set, Slots.receive, Function.update_self]
          exact hself.mpr (hextends hfits)
        · simp only [Slots.set, Slots.receive, Function.update_of_ne hji]
          exact h.window j
    · rw [if_neg hfits] at hslots hwritten
      -- The message does not fit, and the client is dropped.
      refine iff_of_true (fun j => ?_) fun hfits' => absurd hfits' hfits
      have hsame : (w.server.slots.receive i data).clients = w.server.slots.clients := rfl
      rw [hslots, hwritten]
      exact h.window_deleteClient hsame _ j

/-- A statement keeps the windows, if and only if it is no message that brings other bytes into
one. -/
theorem next_iff (h : Watches w) (hstep : w.next a = some w') :
    ((∀ j, Window (w'.server.slots.clients j) (w'.written j)) ↔ inWindow w a = true) ∧
      ∀ j k, w'.written j k = true → k < sendBufferSize := by
  rcases Watched.next_cases hstep with ⟨hslots, hwritten, hok⟩ |
    ⟨newSocket, hslots, hpc, rfl, hwritten⟩ | ⟨i, data, hslots, hpc, rfl, hwritten⟩ |
    ⟨i, n, hslots, hn, hwritten, hok⟩
  · rw [hslots, hwritten]
    exact ⟨iff_of_true h.window hok, h.inside⟩
  · have hadd := h.addClient hpc hslots hwritten
    exact ⟨iff_of_true hadd.window rfl, hadd.inside⟩
  · refine ⟨h.handleMessage_iff hpc hslots hwritten, fun j k hk => ?_⟩
    rw [hwritten] at hk
    exact h.inside_message hpc j k hk
  · rw [hslots, hwritten]
    refine ⟨iff_of_true (fun j => ?_) hok, h.inside⟩
    by_cases hji : j = i
    · subst hji
      simp only [Slots.flush, Slots.set, Function.update_self]
      exact (h.window j).advance hn
    · simp only [Slots.flush, Slots.set, Function.update_of_ne hji]
      exact h.window j

end Watches

theorem watches {w : Watched}
    (hw : watchedLoop.ReachableUnder StartsWatched (fun w a => inWindow w a = true) w) :
    Watches w := by
  apply hw.induction (I := Watches)
  · rintro w ⟨⟨-, hfree, -⟩, hoffset, hwritten⟩
    refine ⟨fun i => .of_empty (hoffset i) (hfree i).2, fun i k hk => ?_⟩
    simp [hwritten] at hk
  · intro w a w' h hok hstep
    obtain ⟨hiff, hinside⟩ := h.next_iff hstep
    exact ⟨hiff.mpr hok, hinside⟩

/-- In particular the windows are kept by the runs that put no message behind a partial `send`. -/
theorem watches_of_inPlace {w : Watched}
    (hw : watchedLoop.ReachableUnder StartsWatched (fun w a => inPlace w.server a = true) w) :
    Watches w :=
  watches (hw.mono fun _ _ => Watched.inWindow_of_inPlace)

/-- In every run in which each message that is kept brings only written bytes into the window,
the windows of all slots lie in their buffers and were written for their clients; the first
message that does not ends this. -/
theorem sendWindow {w : Watched}
    (hw : watchedLoop.ReachableUnder StartsWatched (fun w a => inWindow w a = true) w) :
    (∀ i, Window (w.server.slots.clients i) (w.written i)) ∧
      ∀ a w', watchedLoop.step w a = some w' →
        ((∀ i, Window (w'.server.slots.clients i) (w'.written i)) ↔ inWindow w a = true) :=
  ⟨(watches hw).window, fun _ _ hstep => ((watches hw).next_iff hstep).1⟩

/-- The server of the runs below, with nothing written. -/
def idleWatched : Watched :=
  ⟨idle, fun _ _ => false⟩

theorem startsWatched_idle : StartsWatched idleWatched :=
  ⟨starts_idle, fun _ => rfl, rfl⟩

/-- A message behind a partial `send`, which the bytes of an earlier message are enough for. -/
theorem sendWindow_behind :
    ∃ w ∈ watchedLoop.run inWindow idleWatched (greeting [97, 98, 99, 100] ++
        [ready [] [4], .next, .next, .next, .send (some 4), .next] ++ restFrom 1 ++
        [ready [4] [], .next, .next, .read (some [101, 102]), .next] ++ restFrom 1 ++
        [ready [] [4], .next, .next, .next, .send (some 1), .send none] ++ restFrom 1 ++
        [ready [4] [], .next, .next, .read (some [103]), .next]),
      (w.server.slots.clients ⟨0, by decide⟩).sendOffset = 1 ∧
        (w.server.slots.clients ⟨0, by decide⟩).sendLength = 2 ∧ w.written ⟨0, by decide⟩ 2 = true := by
  obtain ⟨w, hrun, hw, hoffset, hlength⟩ :=
    (Machine.ReachableUnder.start startsWatched_idle).exists_run (fun _ _ => id)
      (fun w => (w.server.slots.clients ⟨0, by decide⟩).sendOffset = 1 ∧
        (w.server.slots.clients ⟨0, by decide⟩).sendLength = 2)
      (by decide +kernel : (watchedLoop.run inWindow idleWatched (greeting [97, 98, 99, 100] ++
        [ready [] [4], .next, .next, .next, .send (some 4), .next] ++ restFrom 1 ++
        [ready [4] [], .next, .next, .read (some [101, 102]), .next] ++ restFrom 1 ++
        [ready [] [4], .next, .next, .next, .send (some 1), .send none] ++ restFrom 1 ++
        [ready [4] [], .next, .next, .read (some [103]), .next])).any _ = true)
  exact ⟨w, hrun, hoffset, hlength, ((sendWindow hw).1 ⟨0, by decide⟩).covered 2 (by omega)
    (by omega)⟩

/-- A message of one byte behind a `send` which took one byte of two: the window ends with a byte
that was not written for this client. -/
theorem sendWindow_leaks_false :
    ¬∀ w, watchedLoop.Reachable StartsWatched w →
      ∀ i, Window (w.server.slots.clients i) (w.written i) := by
  intro h
  obtain ⟨w, -, hw, hoffset, hlength, hwritten⟩ :=
    (Machine.ReachableUnder.start startsWatched_idle).exists_run (M := watchedLoop)
      (fun _ _ _ => trivial)
      (fun w => (w.server.slots.clients ⟨0, by decide⟩).sendOffset = 1 ∧
        (w.server.slots.clients ⟨0, by decide⟩).sendLength = 2 ∧
        w.written ⟨0, by decide⟩ 2 = false)
      (by decide +kernel : (watchedLoop.run (fun _ _ => true) idleWatched (greeting [97, 98] ++
        [ready [] [4], .next, .next, .next, .send (some 1), .send none] ++ restFrom 1 ++
        [ready [4] [4], .next, .next, .read (some [99]), .next])).any _ = true)
  have hcovered := (h w hw ⟨0, by decide⟩).covered 2 (by omega) (by omega)
  rw [hwritten] at hcovered
  cases hcovered

end SelectServer
end OperatingSystems
