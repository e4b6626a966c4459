import OperatingSystems.SelectServer.ServerLoop

/-!
# What the echo server sends back

`handleMessage` puts a message at `sendBuffer + sendLength`, but the pending bytes are
the `sendLength` bytes from `sendOffset` on: the two meet only if `sendOffset` is `0`.

* `Echoes` — what was received from a client is what was sent to it and what is pending.
* `echo_prefix` — as long as no message is appended behind a partial `send`, the bytes
  sent to every client are a prefix of the bytes received from it.
* `echo_corrupted` — a run in which a message overwrites the pending bytes.
-/

namespace OperatingSystems
namespace SelectServer

/-! ### One slot -/

namespace Client

variable {c : Client} {data : List Byte} {n : Nat}

/-- A message is appended to the pending bytes. -/
theorem pending_append (hoffset : c.sendOffset = 0) :
    (c.append data).pending = c.pending ++ data := by
  have hcopy := ByteMemory.bytesAt_copy (m := c.sendBuffer) (a := 0) (n := c.sendLength) data
  rw [Nat.zero_add] at hcopy
  simpa only [pending, append, hoffset] using hcopy

/-- The bytes that a `send` takes are the first pending ones. -/
theorem pending_advance (h : n ≤ c.sendLength) :
    c.sendBuffer.bytesAt c.sendOffset n ++ (c.advance n).pending = c.pending := by
  have hsplit := ByteMemory.bytesAt_split (m := c.sendBuffer) (a := c.sendOffset) h
  by_cases hall : c.sendLength - n = 0
  · have hnone : (c.advance n).pending = [] := by
      simp [pending, advance, hall]
    rw [hnone, pending, hsplit, hall, ByteMemory.bytesAt_zero]
  · have hrest : (c.advance n).pending =
        c.sendBuffer.bytesAt (c.sendOffset + n) (c.sendLength - n) := by
      simp [pending, advance, hall]
    rw [hrest, pending, hsplit]

end Client

/-! ### The slots -/

/-- What was received from a client is what was sent to it and what is pending; no two
slots share a socket or a connection, and a free slot has nothing to send. -/
structure Echoes (s : Slots) : Prop where
  socket : ∀ i j, (s.clients i).socket ≠ 0 → (s.clients i).socket = (s.clients j).socket → i = j
  connection : ∀ i j, (s.clients i).socket ≠ 0 → (s.clients j).socket ≠ 0 →
    s.connection i = s.connection j → i = j
  known : ∀ i, (s.clients i).socket ≠ 0 → s.connection i < s.accepted
  fresh : ∀ k, s.accepted ≤ k → s.received k = [] ∧ s.sent k = []
  pending : ∀ i, (s.clients i).socket ≠ 0 →
    s.received (s.connection i) = s.sent (s.connection i) ++ (s.clients i).pending
  free : ∀ i, (s.clients i).socket = 0 → (s.clients i).sendLength = 0
  sent : ∀ k, s.sent k <+: s.received k

namespace Slots

variable {s : Slots} {i : Fin maxClients}

/-- A socket is found in its slot. -/
theorem slotOf_socket (h : Echoes s) (hi : (s.clients i).socket ≠ 0) :
    s.slotOf (s.clients i).socket = some i :=
  slotOf_of_distinct fun j => h.socket i j hi

theorem deleteClient_socket (h : Echoes s) (hi : (s.clients i).socket ≠ 0) :
    s.deleteClient (s.clients i).socket = s.set i (s.clients i).reset := by
  rw [deleteClient, slotOf_socket h hi]

end Slots

namespace Echoes

variable {s : Slots} {i : Fin maxClients}

/-- Slot `i` and its connection change together, and stay in step. -/
theorem update (h : Echoes s) (hi : (s.clients i).socket ≠ 0) {c : Client}
    (hsocket : c.socket = (s.clients i).socket) {received sent : List Byte}
    (hpending : received = sent ++ c.pending) :
    Echoes { s with
      clients := Function.update s.clients i c
      received := Function.update s.received (s.connection i) received
      sent := Function.update s.sent (s.connection i) sent } := by
  have hsame (j : Fin maxClients) :
      (Function.update s.clients i c j).socket = (s.clients j).socket := by
    by_cases hji : j = i
    · subst hji
      simpa using hsocket
    · simp [hji]
  have hother {k : Nat} (hk : k ≠ s.connection i) :
      Function.update s.received (s.connection i) received k = s.received k ∧
        Function.update s.sent (s.connection i) sent k = s.sent k :=
    ⟨Function.update_of_ne hk _ _, Function.update_of_ne hk _ _⟩
  refine ⟨fun j k hj hjk => ?_, fun j k hj hk => ?_, fun j hj => ?_, fun k hk => ?_,
    fun j hj => ?_, fun j hj => ?_, fun k => ?_⟩
  · simp only [hsame] at hj hjk
    exact h.socket j k hj hjk
  · simp only [hsame] at hj hk
    exact h.connection j k hj hk
  · simp only [hsame] at hj
    exact h.known j hj
  · have hne : k ≠ s.connection i := (Nat.lt_of_lt_of_le (h.known i hi) hk).ne'
    simp only [(hother hne).1, (hother hne).2]
    exact h.fresh k hk
  · simp only [hsame] at hj
    by_cases hji : j = i
    · subst hji
      simpa using hpending
    · have hne : s.connection j ≠ s.connection i := fun heq => hji (h.connection j i hj hi heq)
      simp only [(hother hne).1, (hother hne).2, Function.update_of_ne hji]
      exact h.pending j hj
  · simp only [hsame] at hj
    have hji : j ≠ i := by
      rintro rfl
      exact hi hj
    simp only [Function.update_of_ne hji]
    exact h.free j hj
  · by_cases hk : k = s.connection i
    · subst hk
      simp [hpending]
    · simp only [(hother hk).1, (hother hk).2]
      exact h.sent k

/-- A client leaves its slot. -/
theorem reset (h : Echoes s) (i : Fin maxClients) : Echoes (s.set i (s.clients i).reset) := by
  have hself : (s.set i (s.clients i).reset).clients i = (s.clients i).reset :=
    Function.update_self ..
  have hother {j : Fin maxClients} (hj : ((s.set i (s.clients i).reset).clients j).socket ≠ 0) :
      j ≠ i ∧ (s.set i (s.clients i).reset).clients j = s.clients j := by
    have hji : j ≠ i := by
      rintro rfl
      exact hj (by rw [hself]; rfl)
    exact ⟨hji, Function.update_of_ne hji _ _⟩
  refine ⟨fun j k hj hjk => ?_, fun j k hj hk => ?_, fun j hj => ?_, h.fresh, fun j hj => ?_,
    fun j hj => ?_, h.sent⟩
  · have hk : ((s.set i (s.clients i).reset).clients k).socket ≠ 0 := hjk ▸ hj
    rw [(hother hj).2, (hother hk).2] at hjk
    rw [(hother hj).2] at hj
    exact h.socket j k hj hjk
  · rw [(hother hj).2] at hj
    rw [(hother hk).2] at hk
    exact h.connection j k hj hk
  · rw [(hother hj).2] at hj
    exact h.known j hj
  · have hsame := (hother hj).2
    rw [hsame] at hj ⊢
    exact h.pending j hj
  · by_cases hji : j = i
    · subst hji
      rw [hself]
      rfl
    · have hsame : (s.set i (s.clients i).reset).clients j = s.clients j :=
        Function.update_of_ne hji _ _
      rw [hsame] at hj ⊢
      exact h.free j hj

/-- More is received from a client that has left its slot. -/
theorem record (h : Echoes s) {k : Nat} (hk : k < s.accepted)
    (hleft : ∀ j, (s.clients j).socket ≠ 0 → s.connection j ≠ k) (data : List Byte) :
    Echoes { s with received := Function.update s.received k (s.received k ++ data) } := by
  have hother {l : Nat} (hl : l ≠ k) :
      Function.update s.received k (s.received k ++ data) l = s.received l :=
    Function.update_of_ne hl _ _
  refine ⟨h.socket, h.connection, h.known, fun l hl => ?_, fun j hj => ?_, h.free, fun l => ?_⟩
  · exact ⟨(hother (Nat.lt_of_lt_of_le hk hl).ne').trans (h.fresh l hl).1, (h.fresh l hl).2⟩
  · exact (hother (hleft j hj)).trans (h.pending j hj)
  · by_cases hl : l = k
    · subst hl
      show s.sent l <+: Function.update s.received l _ l
      rw [Function.update_self]
      exact (h.sent l).trans (List.prefix_append _ _)
    · show s.sent l <+: Function.update s.received k _ l
      rw [hother hl]
      exact h.sent l

/-- `deleteClient`. -/
theorem deleteClient (h : Echoes s) (hi : (s.clients i).socket ≠ 0) :
    Echoes (s.deleteClient (s.clients i).socket) := by
  rw [Slots.deleteClient_socket h hi]
  exact h.reset i

/-- `deleteClient` of a client whose last message does not fit. -/
theorem drop (h : Echoes s) (hi : (s.clients i).socket ≠ 0) (data : List Byte) :
    Echoes ((s.receive i data).deleteClient (s.clients i).socket) := by
  have hcommute : (s.receive i data).deleteClient (s.clients i).socket =
      (s.set i (s.clients i).reset).receive i data := by
    have hslot : (s.receive i data).slotOf (s.clients i).socket = some i := by
      rw [← Slots.slotOf_socket h hi]
      rfl
    rw [Slots.deleteClient, hslot]
    rfl
  rw [hcommute]
  refine (h.reset i).record (h.known i hi) (fun j hj hsame => ?_) data
  by_cases hji : j = i
  · subst hji
    exact hj (by simp [Slots.set, Client.reset])
  · have hkeep : (s.set i (s.clients i).reset).clients j = s.clients j :=
      Function.update_of_ne hji _ _
    exact hji (h.connection j i (hkeep ▸ hj) hi hsame)

/-- A new client gets a free slot, and a connection that was not used before. -/
theorem addClient (h : Echoes s) {newSocket : Nat}
    (hnew : ∀ i, (s.clients i).socket = 0 ∨ (s.clients i).socket ≠ newSocket) :
    Echoes (s.addClient newSocket) := by
  cases hslot : s.slotOf 0 with
  | none =>
      rw [Slots.addClient, hslot]
      exact h
  | some i =>
      have hfree : (s.clients i).socket = 0 := Slots.slotOf_eq_some hslot
      -- Slot `i` alone changes, and the connection counter.
      have hself : (s.addClient newSocket).clients i =
          { s.clients i with socket := newSocket, sendLength := 0, sendOffset := 0 } ∧
            (s.addClient newSocket).connection i = s.accepted := by
        simp [Slots.addClient, hslot, Slots.set]
      have hother {j : Fin maxClients} (hj : j ≠ i) :
          (s.addClient newSocket).clients j = s.clients j ∧
            (s.addClient newSocket).connection j = s.connection j := by
        simp [Slots.addClient, hslot, Slots.set, hj]
      have hrest : (s.addClient newSocket).accepted = s.accepted + 1 ∧
          (s.addClient newSocket).received = s.received ∧
            (s.addClient newSocket).sent = s.sent := by
        simp [Slots.addClient, hslot, Slots.set]
      obtain ⟨haccepted, hreceived, hsent⟩ := hrest
      have hknown {j : Fin maxClients} (hj : (s.clients j).socket ≠ 0) :
          s.connection j ≠ s.accepted := (h.known j hj).ne
      have hsocket {j : Fin maxClients} (hji : j ≠ i)
          (hj : ((s.addClient newSocket).clients j).socket ≠ 0) : (s.clients j).socket ≠ 0 := by
        rwa [(hother hji).1] at hj
      refine ⟨fun j k hj hjk => ?_, fun j k hj hk hjk => ?_, fun j hj => ?_, fun k hk => ?_,
        fun j hj => ?_, fun j hj => ?_, fun k => ?_⟩
      · by_cases hji : j = i <;> by_cases hki : k = i
        · rw [hji, hki]
        · subst hji
          rw [hself.1] at hj hjk
          rw [(hother hki).1] at hjk
          -- The new socket is in no used slot.
          exact ((hnew k).elim (fun hzero => hj (hjk.trans hzero)) fun hne => hne hjk.symm).elim
        · subst hki
          rw [hself.1, (hother hji).1] at hjk
          exact ((hnew j).elim (hsocket hji hj) fun hne => hne hjk).elim
        · rw [(hother hji).1, (hother hki).1] at hjk
          exact h.socket j k (hsocket hji hj) hjk
      · by_cases hji : j = i <;> by_cases hki : k = i
        · rw [hji, hki]
        · subst hji
          rw [hself.2, (hother hki).2] at hjk
          -- The new connection is later than the known ones.
          exact absurd hjk.symm (hknown (hsocket hki hk))
        · subst hki
          rw [hself.2, (hother hji).2] at hjk
          exact absurd hjk (hknown (hsocket hji hj))
        · rw [(hother hji).2, (hother hki).2] at hjk
          exact h.connection j k (hsocket hji hj) (hsocket hki hk) hjk
      · rw [haccepted]
        by_cases hji : j = i
        · rw [hji, hself.2]
          exact Nat.lt_succ_self _
        · rw [(hother hji).2]
          exact Nat.lt_succ_of_lt (h.known j (hsocket hji hj))
      · rw [haccepted] at hk
        rw [hreceived, hsent]
        exact h.fresh k (Nat.le_of_succ_le hk)
      · rw [hreceived, hsent]
        by_cases hji : j = i
        · subst hji
          rw [hself.1, hself.2, (h.fresh _ (Nat.le_refl _)).1, (h.fresh _ (Nat.le_refl _)).2]
          rfl
        · rw [(hother hji).1, (hother hji).2]
          exact h.pending j (hsocket hji hj)
      · by_cases hji : j = i
        · subst hji
          rw [hself.1]
        · rw [(hother hji).1] at hj ⊢
          exact h.free j hj
      · rw [hreceived, hsent]
        exact h.sent k

/-- `handleMessage`, unless a message is put behind a partial `send`. -/
theorem handleMessage (h : Echoes s) (hi : (s.clients i).socket ≠ 0) {result : Option (List Byte)}
    (hoffset : ∀ data, result = some data → data ≠ [] → (s.clients i).fits data = true →
      (s.clients i).sendOffset = 0) : Echoes (s.handleMessage i result) := by
  cases result with
  | none => exact h
  | some data =>
      rw [Slots.handleMessage]
      by_cases hempty : data = []
      · rw [if_pos hempty]
        exact h.deleteClient hi
      rw [if_neg hempty]
      by_cases hfits : (s.clients i).fits data = true
      · rw [if_pos hfits]
        have hpending : s.received (s.connection i) ++ data =
            s.sent (s.connection i) ++ ((s.clients i).append data).pending := by
          rw [Client.pending_append (hoffset data rfl hempty hfits), h.pending i hi,
            List.append_assoc]
        have hupdate := h.update hi (c := (s.clients i).append data) rfl hpending
        rwa [Function.update_eq_self] at hupdate
      · rw [if_neg hfits]
        exact h.drop hi data

/-- A `send` of `flushClientBuffer`. -/
theorem flush (h : Echoes s) {n : Nat} (hpos : 0 < n) (hn : n ≤ (s.clients i).sendLength) :
    Echoes (s.flush i n) := by
  have hi : (s.clients i).socket ≠ 0 := fun hzero => by
    have hnone := h.free i hzero
    omega
  have hpending : s.received (s.connection i) =
      (s.sent (s.connection i) ++ (s.clients i).sendBuffer.bytesAt (s.clients i).sendOffset n) ++
        ((s.clients i).advance n).pending := by
    rw [List.append_assoc, Client.pending_advance hn, h.pending i hi]
  have hupdate := h.update hi (c := (s.clients i).advance n) rfl hpending
  rwa [Function.update_eq_self] at hupdate

end Echoes

/-! ### Runs of the server -/

/-- No message is appended while a part of the pending bytes was sent already. -/
def inPlace (s : Server) : Input → Bool
  | .read (some data) =>
      match s.pc with
      | .handle i =>
          data = [] || !(s.slots.clients i).fits data || (s.slots.clients i).sendOffset = 0
      | _ => true
  | _ => true

/-- The slots are in step, and `handleMessage` is called for a slot that is in use. -/
structure Serving (s : Server) : Prop where
  echoes : Echoes s.slots
  handles : ∀ i, s.pc = .handle i → (s.slots.clients i).socket ≠ 0

theorem Serving.next {s s' : Server} {a : Input} (h : Serving s) (hok : inPlace s a = true)
    (hstep : serverLoop.step s a = some s') : Serving s' := by
  obtain ⟨hechoes, hhandles⟩ := h
  cases Server.does hstep with
  | nothing hslots hhandle =>
      refine ⟨by rw [hslots]; exact hechoes, fun i hi => ?_⟩
      rw [hslots]
      exact hhandle i hi
  | addClient newSocket _ _ hclosed hslots hleads =>
      simp only [Server.isClosed, Bool.and_eq_true, decide_eq_true_eq] at hclosed
      refine ⟨?_, by simp [hleads]⟩
      rw [hslots]
      exact hechoes.addClient hclosed.2
  | handleMessage i result hpc hinput hslots hleads =>
      refine ⟨?_, by simp [hleads]⟩
      rw [hslots]
      apply hechoes.handleMessage (hhandles i hpc)
      intro data hdata hempty hfits
      subst hinput hdata
      simpa [inPlace, hpc, hempty, hfits] using hok
  | sendFails i _ _ _ hslots hleads =>
      refine ⟨?_, by simp [hleads]⟩
      rw [hslots]
      exact hechoes
  | flush i n _ _ hpos htaken hslots hleads =>
      refine ⟨?_, by simp [hleads]⟩
      rw [hslots]
      exact hechoes.flush hpos htaken

theorem serving {s : Server} (hs : serverLoop.ReachableUnder Starts (fun s a => inPlace s a) s) :
    Serving s := by
  refine hs.induction (I := Serving) ?_ fun s a s' h hok hstep => h.next hok hstep
  rintro s ⟨hpc, hfree, hnothing⟩
  have hunused (i : Fin maxClients) (hi : (s.slots.clients i).socket ≠ 0) : False :=
    hi (hfree i).1
  refine ⟨⟨fun i _ hi => (hunused i hi).elim, fun i _ hi => (hunused i hi).elim,
    fun i hi => (hunused i hi).elim, fun k _ => hnothing k, fun i hi => (hunused i hi).elim,
    fun i _ => (hfree i).2, fun k => ?_⟩, by simp [hpc]⟩
  simp only [(hnothing k).1, (hnothing k).2]
  exact List.prefix_rfl

/-- In every run in which no message is appended behind a partial `send`, what was sent
to every client is a prefix of what was received from it. -/
theorem echo_prefix {s : Server}
    (hs : serverLoop.ReachableUnder Starts (fun s a => inPlace s a) s) (k : Nat) :
    s.slots.sent k <+: s.slots.received k :=
  (serving hs).echoes.sent k

/-! ### Two runs -/

/-- A server whose listening socket is descriptor 3. -/
def idle : Server where
  serverSocket := 3
  pc := .select
  readSet := fun _ => false
  writeSet := fun _ => false
  socket := 0
  slots :=
    { clients := fun _ => ⟨0, fun _ => 0, 0, 0⟩
      connection := fun _ => 0
      accepted := 0
      received := fun _ => []
      sent := fun _ => [] }

theorem starts_idle : Starts idle :=
  ⟨rfl, fun _ => ⟨rfl, rfl⟩, fun _ => ⟨rfl, rfl⟩⟩

/-- `select` reports these descriptors. -/
def ready (readable writable : List Nat) : Input :=
  .select (some ((· ∈ readable), (· ∈ writable)))

/-- The rest of the `for` loop from slot `i` on, where nothing is ready. -/
def restFrom (i : Nat) : List Input :=
  List.replicate (2 * (maxClients - i) + 1) .next

/-- The first client is accepted with descriptor 4 and sends a message. -/
def greeting (data : List Byte) : List Input :=
  [ready [3] [], .accept (some 4)] ++ restFrom 0 ++
    [ready [4] [], .next, .next, .read (some data), .next] ++ restFrom 1

/-- A `send` that takes one byte and then fails; the rest is sent in the next round. -/
theorem echo_prefix_retry :
    ∃ s ∈ serverLoop.run inPlace idle (greeting [97, 98] ++
        [ready [] [4], .next, .next, .next, .send (some 1), .send none] ++ restFrom 1 ++
        [ready [] [4], .next, .next, .next, .send (some 1), .next]),
      s.slots.received 0 = [97, 98] ∧ s.slots.sent 0 = [97, 98] ∧
        s.slots.sent 0 <+: s.slots.received 0 := by
  obtain ⟨s, hrun, hs, hreceived, hsent⟩ :=
    (Machine.ReachableUnder.start starts_idle).exists_run (fun _ _ => id)
      (fun s => s.slots.received 0 = [97, 98] ∧ s.slots.sent 0 = [97, 98])
      (by decide +kernel : (serverLoop.run inPlace idle (greeting [97, 98] ++
        [ready [] [4], .next, .next, .next, .send (some 1), .send none] ++ restFrom 1 ++
        [ready [] [4], .next, .next, .next, .send (some 1), .next])).any _ = true)
  exact ⟨s, hrun, hreceived, hsent, echo_prefix hs 0⟩

/-- A message that arrives after a `send` which took one byte of two and then failed: it
overwrites the byte that is still to be sent. -/
theorem echo_corrupted :
    ∃ s ∈ serverLoop.run (fun _ _ => true) idle (greeting [97, 98] ++
        [ready [] [4], .next, .next, .next, .send (some 1), .send none] ++ restFrom 1 ++
        [ready [4] [4], .next, .next, .read (some [99]), .next, .send (some 2)]),
      serverLoop.Reachable Starts s ∧ s.slots.received 0 = [97, 98, 99] ∧
        s.slots.sent 0 = [97, 99, 0] ∧ ¬ s.slots.sent 0 <+: s.slots.received 0 := by
  refine (Machine.ReachableUnder.start starts_idle).exists_run (fun _ _ _ => trivial)
    (fun s => s.slots.received 0 = [97, 98, 99] ∧ s.slots.sent 0 = [97, 99, 0] ∧
      ¬ s.slots.sent 0 <+: s.slots.received 0) ?_
  decide +kernel

end SelectServer
end OperatingSystems
