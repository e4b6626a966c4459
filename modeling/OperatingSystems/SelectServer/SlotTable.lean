import OperatingSystems.Library.Descriptors
import OperatingSystems.SelectServer.Echo

/-!
# The slot table of the server and its descriptors

The server with the trace of what it does to the descriptors of its clients.  A descriptor is a
number that `accept` returns while it is not open; `serverLoop` and `flushClientBuffer` may meet
a slot whose client `handleMessage` has just closed.

* `Server.actions` — the calls that one statement makes on descriptors.
* `Table` — the sockets in the slots are the open descriptors, each in one slot.
* `slotTable` — this holds in every run, every call is made on an open descriptor, and what a
  disconnect, an overflow and a client too many do to the table.
-/

namespace OperatingSystems
namespace SelectServer

open Descriptors

/-! ### The trace -/

/-- `deleteClient(sd)` closes the socket that it finds. -/
def Slots.deleteActions (s : Slots) (sd : Nat) : List (Action Nat) :=
  match s.slotOf sd with
  | none => []
  | some i => [.closed (s.clients i).socket]

/-- `addClient(newSocket)` tells a client too many that the server is full, and closes it. -/
def Slots.addActions (s : Slots) (newSocket : Nat) : List (Action Nat) :=
  match s.slotOf 0 with
  | none => [.used newSocket, .closed newSocket]
  | some _ => []

/-- `handleMessage` reads, looks up the peer of a client that has gone, and deletes it or a
client whose message does not fit. -/
def Slots.messageActions (s : Slots) (i : Fin maxClients) (result : Option (List Byte)) :
    List (Action Nat) :=
  let socket := (s.clients i).socket
  .used socket ::
    match result with
    | none => []
    | some data =>
        if data = [] then .used socket :: s.deleteActions socket
        else if (s.clients i).fits data then []
        else s.deleteActions socket

/-- What the next statement does to descriptors of clients. -/
def Server.actions (s : Server) (a : Input) : List (Action Nat) :=
  match s.pc, a with
  | .accept, .accept (some newSocket) => .opened newSocket :: s.slots.addActions newSocket
  | .handle i, .read result => s.slots.messageActions i result
  | .flush i, .send _ => [.used (s.slots.clients i).socket]
  | _, _ => []

/-- The server, and what it did to descriptors so far. -/
structure Tracked where
  server : Server
  trace : List (Action Nat)

namespace Tracked

/-- `accept` may return this number: it is positive, and neither the listening socket nor an open
descriptor of a client. -/
def mayReturn (t : Tracked) (newSocket : Nat) : Bool :=
  0 < newSocket && newSocket ≠ t.server.serverSocket && newSocket ∉ openAfter t.trace

/-- One statement of `serverLoop`.  A `send` may also take nothing. -/
def next (t : Tracked) (a : Input) : Option Tracked :=
  match t.server.pc, a with
  | .accept, .accept (some newSocket) =>
      if t.server.readSet t.server.serverSocket && t.mayReturn newSocket then
        some
          { server :=
              { t.server with slots := t.server.slots.addClient newSocket, pc := .slot 0 }
            trace := t.trace ++ t.server.actions a }
      else none
  | .flush i, .send (some 0) =>
      if 0 < (t.server.slots.clients i).sendLength then
        some { t with trace := t.trace ++ t.server.actions a }
      else none
  | _, _ => (t.server.next a).map fun server => ⟨server, t.trace ++ t.server.actions a⟩

end Tracked

/-- The server with its trace as a machine. -/
def trackedLoop : Machine Tracked Input where
  step := Tracked.next

/-- No client yet, and nothing done. -/
def StartsTracked (t : Tracked) : Prop :=
  Starts t.server ∧ t.trace = []

/-! ### The table -/

/-- The sockets in the slots are the open descriptors. -/
structure Table (s : Slots) (trace : List (Action Nat)) : Prop where
  onlyOpen : OnlyOpen trace
  nodup : (openAfter trace).Nodup
  mem : ∀ n, n ∈ openAfter trace ↔ n ≠ 0 ∧ ∃ i, (s.clients i).socket = n
  distinct : ∀ i j, (s.clients i).socket ≠ 0 → (s.clients i).socket = (s.clients j).socket → i = j
  free : ∀ i, (s.clients i).socket = 0 → (s.clients i).sendLength = 0

namespace Table

variable {s s' : Slots} {trace : List (Action Nat)} {i : Fin maxClients}

theorem open_socket (h : Table s trace) (hi : (s.clients i).socket ≠ 0) :
    (s.clients i).socket ∈ openAfter trace :=
  (h.mem _).mpr ⟨hi, i, rfl⟩

/-- A call on the descriptor of a slot that is in use. -/
theorem used (h : Table s trace) (hi : (s.clients i).socket ≠ 0) :
    Table s (trace ++ [.used (s.clients i).socket]) := by
  have hopen : openAfter (trace ++ [.used (s.clients i).socket]) = openAfter trace :=
    openAfter_concat trace _
  refine ⟨h.onlyOpen.concat (h.open_socket hi), ?_, ?_, h.distinct, h.free⟩
  · rw [hopen]
    exact h.nodup
  · rw [hopen]
    exact h.mem

/-- Slots with the same sockets. -/
theorem of_socket (h : Table s trace)
    (hsocket : ∀ j, (s'.clients j).socket = (s.clients j).socket)
    (hfree : ∀ j, (s'.clients j).socket = 0 → (s'.clients j).sendLength = 0) : Table s' trace := by
  refine ⟨h.onlyOpen, h.nodup, fun n => ?_, fun j k hj hjk => ?_, hfree⟩
  · simp only [hsocket]
    exact h.mem n
  · simp only [hsocket] at hj hjk
    exact h.distinct j k hj hjk

/-- A client is closed, and leaves its slot. -/
theorem closed (h : Table s trace) (hi : (s.clients i).socket ≠ 0) :
    Table (s.set i (s.clients i).reset) (trace ++ [.closed (s.clients i).socket]) := by
  have hself : ((s.set i (s.clients i).reset).clients i) = (s.clients i).reset :=
    Function.update_self ..
  have hother : ∀ {j}, j ≠ i → (s.set i (s.clients i).reset).clients j = s.clients j := fun hj =>
    Function.update_of_ne hj ..
  have hin : ∀ {j}, ((s.set i (s.clients i).reset).clients j).socket ≠ 0 → j ≠ i := by
    rintro j hj rfl
    exact hj (by rw [hself]; rfl)
  have hopen : openAfter (trace ++ [.closed (s.clients i).socket]) =
      (openAfter trace).erase (s.clients i).socket := openAfter_concat trace _
  refine ⟨h.onlyOpen.concat (h.open_socket hi), ?_, fun n => ?_, fun j k hj hjk => ?_,
    fun j hj => ?_⟩
  · rw [hopen]
    exact h.nodup.erase _
  · rw [hopen, h.nodup.mem_erase_iff, h.mem]
    constructor
    · rintro ⟨hne, hzero, j, rfl⟩
      refine ⟨hzero, j, ?_⟩
      rw [hother fun heq => hne (heq ▸ rfl)]
    · rintro ⟨hzero, j, rfl⟩
      have hji := hin hzero
      rw [hother hji] at hzero ⊢
      exact ⟨fun heq => hji (h.distinct j i hzero heq), hzero, j, rfl⟩
  · have hk : ((s.set i (s.clients i).reset).clients k).socket ≠ 0 := hjk ▸ hj
    rw [hother (hin hj), hother (hin hk)] at hjk
    rw [hother (hin hj)] at hj
    exact h.distinct j k hj hjk
  · by_cases hji : j = i
    · subst hji
      rw [hself]
      rfl
    · rw [hother hji] at hj ⊢
      exact h.free j hj

/-- `handleMessage`, with the calls that it makes. -/
theorem handleMessage (h : Table s trace) (hi : (s.clients i).socket ≠ 0)
    (result : Option (List Byte)) :
    Table (s.handleMessage i result) (trace ++ s.messageActions i result) := by
  have hslot : s.slotOf (s.clients i).socket = some i :=
    Slots.slotOf_of_distinct fun j => h.distinct i j hi
  have hactions : s.deleteActions (s.clients i).socket = [.closed (s.clients i).socket] := by
    rw [Slots.deleteActions, hslot]
  have hread := h.used hi
  cases result with
  | none => exact hread
  | some data =>
      rw [Slots.handleMessage, Slots.messageActions]
      by_cases hempty : data = []
      · -- the client has gone
        have hdelete : s.deleteClient (s.clients i).socket = s.set i (s.clients i).reset := by
          rw [Slots.deleteClient, hslot]
        simp only [hempty, if_true, hactions, hdelete]
        have hclosed := (hread.used hi).closed hi
        simpa using hclosed
      · simp only [hempty, if_false]
        cases hfits : (s.clients i).fits data with
        | true =>
            simp only [if_true]
            refine hread.of_socket (fun j => ?_) fun j hj => ?_
            · by_cases hji : j = i
              · subst hji
                simp [Slots.set, Slots.receive, Client.append]
              · simp [Slots.set, Slots.receive, hji]
            · by_cases hji : j = i
              · subst hji
                simp [Slots.set, Slots.receive, Client.append, hi] at hj
              · simp only [Slots.set, Slots.receive, Function.update_of_ne hji] at hj ⊢
                exact h.free j hj
        | false =>
            -- the message does not fit
            have hdelete : (s.receive i data).deleteClient (s.clients i).socket =
                (s.set i (s.clients i).reset).receive i data := by
              rw [Slots.deleteClient, show (s.receive i data).slotOf (s.clients i).socket = some i
                from hslot]
              rfl
            simp only [Bool.false_eq_true, if_false, hactions, hdelete]
            have hclosed := hread.closed hi
            refine Table.of_socket (s := s.set i (s.clients i).reset) ?_ (fun j => rfl) ?_
            · simpa using hclosed
            · exact hclosed.free

/-- `addClient`, behind the `accept` that has returned the number. -/
theorem addClient (h : Table s trace) {newSocket : Nat} (hpos : newSocket ≠ 0)
    (hnew : newSocket ∉ openAfter trace) :
    Table (s.addClient newSocket) (trace ++ .opened newSocket :: s.addActions newSocket) := by
  have hopened : openAfter (trace ++ [.opened newSocket]) = newSocket :: openAfter trace :=
    openAfter_concat trace _
  have honly : OnlyOpen (trace ++ [.opened newSocket]) := h.onlyOpen.concat hnew
  cases hslot : s.slotOf 0 with
  | none =>
      -- the new client is told that the server is full, and closed
      have hused : openAfter (trace ++ [.opened newSocket] ++ [.used newSocket]) =
          newSocket :: openAfter trace := by
        rw [openAfter_concat, hopened]
        rfl
      have hclosed : openAfter (trace ++ [.opened newSocket] ++ [.used newSocket] ++
          [.closed newSocket]) = openAfter trace := by
        rw [openAfter_concat, hused]
        exact List.erase_cons_head ..
      have htrace : trace ++ .opened newSocket :: s.addActions newSocket =
          trace ++ [.opened newSocket] ++ [.used newSocket] ++ [.closed newSocket] := by
        simp [Slots.addActions, hslot]
      have hslots : s.addClient newSocket = s := by
        rw [Slots.addClient, hslot]
      have huse : (Action.used newSocket).Allowed (openAfter (trace ++ [.opened newSocket])) := by
        rw [hopened]
        exact List.mem_cons_self
      have hclose : (Action.closed newSocket).Allowed
          (openAfter (trace ++ [.opened newSocket] ++ [.used newSocket])) := by
        rw [hused]
        exact List.mem_cons_self
      rw [htrace, hslots]
      refine ⟨(honly.concat huse).concat hclose, ?_, ?_, h.distinct, h.free⟩
      · rw [hclosed]
        exact h.nodup
      · rw [hclosed]
        exact h.mem
  | some i =>
      have hzero : (s.clients i).socket = 0 := Slots.slotOf_eq_some hslot
      have htrace : trace ++ .opened newSocket :: s.addActions newSocket =
          trace ++ [.opened newSocket] := by
        simp [Slots.addActions, hslot]
      have hself : ((s.addClient newSocket).clients i).socket = newSocket := by
        simp [Slots.addClient, hslot, Slots.set]
      have hother : ∀ {j}, j ≠ i → (s.addClient newSocket).clients j = s.clients j := by
        intro j hj
        simp [Slots.addClient, hslot, Slots.set, hj]
      have hunused : ∀ j, (s.clients j).socket ≠ newSocket := fun j hj =>
        hnew ((h.mem newSocket).mpr ⟨hpos, j, hj⟩)
      rw [htrace]
      refine ⟨honly, ?_, fun n => ?_, fun j k hj hjk => ?_, fun j hj => ?_⟩
      · rw [hopened]
        exact List.nodup_cons.mpr ⟨hnew, h.nodup⟩
      · rw [hopened, List.mem_cons, h.mem]
        constructor
        · rintro (rfl | ⟨hn, j, rfl⟩)
          · exact ⟨hpos, i, hself⟩
          · refine ⟨hn, j, ?_⟩
            have hji : j ≠ i := by
              rintro rfl
              exact hn hzero
            rw [hother hji]
        · rintro ⟨hn, j, rfl⟩
          by_cases hji : j = i
          · exact .inl (hji ▸ hself)
          · rw [hother hji] at hn ⊢
            exact .inr ⟨hn, j, rfl⟩
      · by_cases hji : j = i <;> by_cases hki : k = i
        · rw [hji, hki]
        · rw [hji, hself, hother hki] at hjk
          exact absurd hjk.symm (hunused k)
        · rw [hki, hself, hother hji] at hjk
          exact absurd hjk (hunused j)
        · rw [hother hji] at hj
          rw [hother hji, hother hki] at hjk
          exact h.distinct j k hj hjk
      · have hji : j ≠ i := by
          rintro rfl
          exact hpos (hself.symm.trans hj)
        rw [hother hji] at hj ⊢
        exact h.free j hj

/-- There are no more open descriptors than slots. -/
theorem length_le (h : Table s trace) : (openAfter trace).length ≤ maxClients := by
  have hsubset :
      openAfter trace ⊆ (List.finRange maxClients).map fun i => (s.clients i).socket := by
    intro n hn
    obtain ⟨-, i, rfl⟩ := (h.mem n).mp hn
    exact List.mem_map.mpr ⟨i, List.mem_finRange i, rfl⟩
  have hlength := (List.subperm_of_subset h.nodup hsubset).length_le
  rwa [List.length_map, List.length_finRange] at hlength

end Table

/-! ### Runs -/

/-- Nothing is done to a descriptor besides the calls. -/
theorem Server.actions_eq_nil {s : Server} {a : Input}
    (hclient : ∀ newSocket, a ≠ .accept (some newSocket)) (hread : ∀ result, a ≠ .read result)
    (hsend : ∀ result, a ≠ .send result) : s.actions a = [] := by
  unfold actions
  split
  case h_1 newSocket _ => exact absurd rfl (hclient newSocket)
  case h_2 i result _ => exact absurd rfl (hread result)
  case h_3 i result _ => exact absurd rfl (hsend result)
  case h_4 => rfl

namespace Tracked

variable {t t' : Tracked} {a : Input}

/-- Everything a statement does to the table: nothing, or one of the calls. -/
theorem next_cases (h : t.next a = some t') :
    (t'.server.slots = t.server.slots ∧ t'.trace = t.trace ∧
      (∀ newSocket, a ≠ .accept (some newSocket)) ∧ (∀ result, a ≠ .read result) ∧
      ∀ i, t'.server.pc = .handle i → (t.server.slots.clients i).socket ≠ 0) ∨
    (∃ newSocket, t.server.pc = .accept ∧ a = .accept (some newSocket) ∧
      t.mayReturn newSocket = true ∧ t'.server.slots = t.server.slots.addClient newSocket ∧
      t'.trace = t.trace ++ .opened newSocket :: t.server.slots.addActions newSocket ∧
      t'.server.pc = .slot 0) ∨
    (∃ i result, t.server.pc = .handle i ∧ a = .read result ∧
      t'.server.slots = t.server.slots.handleMessage i result ∧
      t'.trace = t.trace ++ t.server.slots.messageActions i result ∧
      t'.server.pc = .writable i) ∨
    (∃ i result, t.server.pc = .flush i ∧ a = .send result ∧
      0 < (t.server.slots.clients i).sendLength ∧
      (t'.server.slots = t.server.slots ∨ ∃ n, t'.server.slots = t.server.slots.flush i n) ∧
      t'.trace = t.trace ++ [.used (t.server.slots.clients i).socket] ∧
      ∀ j, t'.server.pc ≠ .handle j) := by
  unfold next at h
  split at h
  -- `accept` and a pending `send` of 0 bytes have guards of their own.
  case h_1 newSocket hpc =>
    right; left
    obtain ⟨hready, h⟩ := Option.ite_none_right_eq_some.mp h
    obtain rfl := Option.some.inj h
    refine ⟨newSocket, hpc, rfl, (Bool.and_eq_true_iff.mp hready).2, rfl, ?_, rfl⟩
    simp only [Server.actions, hpc]
  case h_2 i hpc =>
    right; right; right
    obtain ⟨hpending, h⟩ := Option.ite_none_right_eq_some.mp h
    obtain rfl := Option.some.inj h
    exact ⟨i, some 0, hpc, rfl, hpending, .inl rfl, by simp [Server.actions, hpc], by simp [hpc]⟩
  case h_3 hclient _ =>
    obtain ⟨server, hserver, rfl⟩ := Option.map_eq_some_iff.mp h
    cases Server.does hserver with
    | nothing hslots hhandles hnoClient hnoRead hnoSend =>
        left
        refine ⟨hslots, ?_, hnoClient, hnoRead, hhandles⟩
        rw [Server.actions_eq_nil hnoClient hnoRead hnoSend, List.append_nil]
    | addClient newSocket hpc hinput => exact absurd hinput (hclient newSocket hpc)
    | handleMessage i result hpc hinput hslots hleads =>
        right; right; left
        subst hinput
        exact ⟨i, result, hpc, rfl, hslots, by simp only [Server.actions, hpc], hleads⟩
    | sendFails i hpc hinput hpending hslots hleads =>
        right; right; right
        subst hinput
        exact ⟨i, none, hpc, rfl, hpending, .inl hslots, by simp only [Server.actions, hpc],
          by simp [hleads]⟩
    | flush i n hpc hinput hpos htaken hslots hleads =>
        right; right; right
        subst hinput
        exact ⟨i, some n, hpc, rfl, by omega, .inr ⟨n, hslots⟩, by simp only [Server.actions, hpc],
          by simp [hleads]⟩

end Tracked

/-- What holds between two statements. -/
structure Tracks (t : Tracked) : Prop where
  table : Table t.server.slots t.trace
  handles : ∀ i, t.server.pc = .handle i → (t.server.slots.clients i).socket ≠ 0

/-- A `send` leaves all sockets where they are. -/
theorem Slots.socket_flush {s : Slots} {i : Fin maxClients} (n : Nat) (j : Fin maxClients) :
    ((s.flush i n).clients j).socket = (s.clients j).socket := by
  by_cases hji : j = i
  · subst hji
    simp [Slots.flush, Slots.set, Client.advance]
  · simp [Slots.flush, Slots.set, hji]

namespace Table

variable {s : Slots} {trace : List (Action Nat)} {i : Fin maxClients}

/-- A slot with something to send is in use. -/
theorem socket_of_pending (h : Table s trace) (hi : 0 < (s.clients i).sendLength) :
    (s.clients i).socket ≠ 0 := by
  intro hzero
  have hnone := h.free i hzero
  omega

theorem flush (h : Table s trace) (hi : (s.clients i).socket ≠ 0) (n : Nat) :
    Table (s.flush i n) trace := by
  refine h.of_socket (Slots.socket_flush n) fun j hj => ?_
  rw [Slots.socket_flush] at hj
  have hji : j ≠ i := by
    rintro rfl
    exact hi hj
  have hclient : (s.flush i n).clients j = s.clients j := by
    simp [Slots.flush, Slots.set, hji]
  rw [hclient]
  exact h.free j hj

end Table

theorem Tracks.next {t t' : Tracked} {a : Input} (h : Tracks t) (hstep : t.next a = some t') :
    Tracks t' := by
  obtain ⟨htable, hhandles⟩ := h
  obtain ⟨hslots, htrace, -, -, hpc⟩ | ⟨newSocket, -, -, hmay, hslots, htrace, hpc⟩ |
    ⟨i, result, hpc, -, hslots, htrace, hpc'⟩ |
    ⟨i, result, -, -, hpending, hslots, htrace, hpc⟩ := Tracked.next_cases hstep
  · refine ⟨?_, fun i hi => ?_⟩
    · rw [hslots, htrace]
      exact htable
    · rw [hslots]
      exact hpc i hi
  · simp only [Tracked.mayReturn, Bool.and_eq_true, decide_eq_true_eq] at hmay
    obtain ⟨⟨hpos, -⟩, hnew⟩ := hmay
    refine ⟨?_, fun i hi => by simp [hpc] at hi⟩
    rw [hslots, htrace]
    exact htable.addClient hpos.ne' hnew
  · refine ⟨?_, fun j hj => by simp [hpc'] at hj⟩
    rw [hslots, htrace]
    exact htable.handleMessage (hhandles i hpc) result
  · have hi := htable.socket_of_pending hpending
    refine ⟨?_, fun j hj => absurd hj (hpc j)⟩
    rw [htrace]
    obtain hslots | ⟨n, hslots⟩ := hslots
    · rw [hslots]
      exact htable.used hi
    · rw [hslots]
      exact (htable.used hi).flush hi n

theorem tracks {t : Tracked} (ht : trackedLoop.Reachable StartsTracked t) : Tracks t := by
  refine ht.induction (I := Tracks) ?_ fun t a t' h _ hstep => h.next hstep
  rintro t ⟨⟨hpc, hfree, -⟩, htrace⟩
  refine ⟨⟨?_, ?_, fun n => ?_, fun i j hi => absurd (hfree i).1 hi, fun i _ => (hfree i).2⟩, ?_⟩
  · rw [htrace]
    exact .nil
  · rw [htrace]
    exact List.nodup_nil
  · rw [htrace]
    constructor
    · intro hn
      exact absurd hn List.not_mem_nil
    · rintro ⟨hn, i, rfl⟩
      exact absurd (hfree i).1 hn
  · intro i hi
    simp [hpc] at hi

/-! ### Who loses a slot -/

/-- `handleMessage` deletes the client: it has gone, or its message does not fit. -/
def Drops (s : Slots) (i : Fin maxClients) (data : List Byte) : Prop :=
  data = [] ∨ (s.clients i).fits data = false

/-- What one statement does to clients that leave, and to one too many. -/
structure Effect (t : Tracked) (a : Input) (t' : Tracked) : Prop where
  refused : ∀ newSocket, a = .accept (some newSocket) →
    (∀ i, (t.server.slots.clients i).socket ≠ 0) →
      t'.server.slots = t.server.slots ∧
        t'.trace = t.trace ++ [.opened newSocket, .used newSocket, .closed newSocket]
  dropped : ∀ i data, t.server.pc = .handle i → a = .read (some data) →
    Drops t.server.slots i data →
      (t'.server.slots.clients i).socket = 0 ∧
        (∀ j, j ≠ i → t'.server.slots.clients j = t.server.slots.clients j) ∧
        openAfter t'.trace =
          (openAfter t.trace).erase (t.server.slots.clients i).socket
  only : ∀ j, (t.server.slots.clients j).socket ≠ 0 →
    (t'.server.slots.clients j).socket ≠ (t.server.slots.clients j).socket →
      t.server.pc = .handle j ∧ ∃ data, a = .read (some data) ∧ Drops t.server.slots j data

namespace Table

variable {s : Slots} {trace : List (Action Nat)} {i : Fin maxClients}

/-- A client that is dropped leaves its slot and is closed, and nothing else happens. -/
theorem dropped (h : Table s trace) (hi : (s.clients i).socket ≠ 0) {data : List Byte}
    (hdrops : Drops s i data) :
    (s.handleMessage i (some data)).clients = (s.set i (s.clients i).reset).clients ∧
      openAfter (trace ++ s.messageActions i (some data)) =
        (openAfter trace).erase (s.clients i).socket := by
  have hslot : s.slotOf (s.clients i).socket = some i :=
    Slots.slotOf_of_distinct fun j => h.distinct i j hi
  have hactions : s.deleteActions (s.clients i).socket = [.closed (s.clients i).socket] := by
    rw [Slots.deleteActions, hslot]
  by_cases hempty : data = []
  · simp only [Slots.handleMessage, Slots.messageActions, hempty, if_true, Slots.deleteClient,
      hslot, hactions, true_and]
    simp [openAfter, Action.openNext]
  · have hfits := hdrops.resolve_left hempty
    have hslot' : (s.receive i data).slotOf (s.clients i).socket = some i := hslot
    simp only [Slots.handleMessage, Slots.messageActions, hempty, if_false, hfits,
      Bool.false_eq_true, Slots.deleteClient, hslot', hactions]
    exact ⟨rfl, by simp [openAfter, Action.openNext]⟩

end Table

/-- A message that fits leaves all sockets where they are. -/
theorem Slots.socket_handleMessage_of_not_drops {s : Slots} {i : Fin maxClients}
    {result : Option (List Byte)} (hkeeps : ∀ data, result = some data → ¬ Drops s i data)
    (j : Fin maxClients) :
    ((s.handleMessage i result).clients j).socket = (s.clients j).socket := by
  cases result with
  | none => rfl
  | some data =>
      have hdrops := hkeeps data rfl
      simp only [Drops, not_or, Bool.not_eq_false] at hdrops
      rw [Slots.handleMessage, if_neg hdrops.1, if_pos hdrops.2]
      by_cases hji : j = i
      · subst hji
        simp [Slots.set, Slots.receive, Client.append]
      · simp [Slots.set, Slots.receive, hji]

/-- `addClient` writes only to a free slot. -/
theorem Slots.clients_addClient {s : Slots} {newSocket : Nat} {j : Fin maxClients}
    (hj : (s.clients j).socket ≠ 0) : (s.addClient newSocket).clients j = s.clients j := by
  cases hslot : s.slotOf 0 with
  | none => simp [Slots.addClient, hslot]
  | some i =>
      have hji : j ≠ i := by
        rintro rfl
        exact hj (Slots.slotOf_eq_some hslot)
      simp [Slots.addClient, hslot, Slots.set, hji]

/-- Without a free slot there is none to find. -/
theorem Slots.slotOf_zero_of_full {s : Slots} (hfull : ∀ i, (s.clients i).socket ≠ 0) :
    s.slotOf 0 = none := by
  apply List.find?_eq_none.mpr
  intro i _
  simpa using hfull i

theorem Tracks.effect {t t' : Tracked} {a : Input} (h : Tracks t) (hstep : t.next a = some t') :
    Effect t a t' := by
  obtain ⟨htable, hhandles⟩ := h
  obtain ⟨hslots, -, haccept, hread, -⟩ | ⟨newSocket, hpc, rfl, -, hslots, htrace, -⟩ |
    ⟨i, result, hpc, rfl, hslots, htrace, -⟩ |
    ⟨i, result, hpc, rfl, -, hslots, -, -⟩ := Tracked.next_cases hstep
  · -- nothing happens to the table
    refine ⟨fun newSocket ha => absurd ha (haccept newSocket),
      fun i data _ ha => absurd ha (hread (some data)), fun j _ hj => ?_⟩
    rw [hslots] at hj
    exact absurd rfl hj
  · -- a new client
    refine ⟨fun other ha hfull => ?_, fun i data hhandle => ?_, fun j hj hne => ?_⟩
    · obtain rfl := Option.some.inj (Input.accept.inj ha)
      have hnone := Slots.slotOf_zero_of_full hfull
      rw [hslots, htrace, Slots.addClient, Slots.addActions, hnone]
      exact ⟨rfl, rfl⟩
    · rw [hpc] at hhandle
      cases hhandle
    · rw [hslots, Slots.clients_addClient hj] at hne
      exact absurd rfl hne
  · -- a message, or the end of a stream
    refine ⟨fun newSocket ha => (by cases ha), fun j data hhandle ha hdrops => ?_,
      fun j _ hne => ?_⟩
    · rw [hpc] at hhandle
      obtain rfl := Pc.handle.inj hhandle
      obtain rfl := Input.read.inj ha
      obtain ⟨hclients, hopen⟩ := htable.dropped (hhandles i hpc) hdrops
      rw [hslots, htrace, hclients]
      refine ⟨?_, fun j hj => ?_, hopen⟩
      · simp [Slots.set, Client.reset]
      · simp [Slots.set, hj]
    · rw [hslots] at hne
      by_cases hdrops : ∃ data, result = some data ∧ Drops t.server.slots i data
      · obtain ⟨data, rfl, hdrops⟩ := hdrops
        rw [(htable.dropped (hhandles i hpc) hdrops).1] at hne
        have hji : j = i := by
          by_contra hji
          simp [Slots.set, hji] at hne
        subst hji
        exact ⟨hpc, data, rfl, hdrops⟩
      · have hkeeps : ∀ data, result = some data → ¬ Drops t.server.slots i data :=
          fun data hdata hdrop => hdrops ⟨data, hdata, hdrop⟩
        exact absurd (Slots.socket_handleMessage_of_not_drops hkeeps j) hne
  · -- a `send`
    refine ⟨fun newSocket ha => (by cases ha), fun j data hhandle => ?_, fun j _ hne => ?_⟩
    · rw [hpc] at hhandle
      cases hhandle
    · obtain hslots | ⟨n, hslots⟩ := hslots
      · rw [hslots] at hne
        exact absurd rfl hne
      · rw [hslots] at hne
        exact absurd (Slots.socket_flush n j) hne

/-- In every run, between two statements: the sockets in the slots are distinct and are the open
descriptors, of which there are at most `MAX`, every call was made on an open descriptor, and a
statement takes a slot only from the client that it drops. -/
theorem slotTable {t : Tracked} (ht : trackedLoop.Reachable StartsTracked t) :
    Table t.server.slots t.trace ∧ (openAfter t.trace).length ≤ maxClients ∧
      ∀ a t', trackedLoop.step t a = some t' → Effect t a t' := by
  have htracks := tracks ht
  exact ⟨htracks.table, htracks.table.length_le, fun a t' hstep => htracks.effect hstep⟩

/-- A client that was written to goes away in an iteration in which it is also writable; the next
one gets its slot and its descriptor. -/
theorem slotTable_reused :
    ∃ t ∈ trackedLoop.run (fun _ _ => true) ⟨idle, []⟩ (greeting [97, 98] ++
        [ready [4] [4], .next, .next, .read (some []), .next] ++ [.next] ++ restFrom 1 ++
        [ready [3] [], .accept (some 4)]),
      t.trace = [.opened 4, .used 4, .used 4, .used 4, .closed 4, .opened 4] ∧
        (t.server.slots.clients ⟨0, by decide⟩).socket = 4 ∧
        (openAfter t.trace).length ≤ maxClients := by
  have hstart : StartsTracked ⟨idle, []⟩ := ⟨starts_idle, rfl⟩
  obtain ⟨t, hrun, ht, htrace, hsocket⟩ :=
    (Machine.ReachableUnder.start hstart).exists_run (M := trackedLoop) (fun _ _ _ => trivial)
      (fun t => t.trace = [.opened 4, .used 4, .used 4, .used 4, .closed 4, .opened 4] ∧
        (t.server.slots.clients ⟨0, by decide⟩).socket = 4)
      (by decide +kernel : (trackedLoop.run (fun _ _ => true) ⟨idle, []⟩ (greeting [97, 98] ++
        [ready [4] [4], .next, .next, .read (some []), .next] ++ [.next] ++ restFrom 1 ++
        [ready [3] [], .accept (some 4)])).any _ = true)
  exact ⟨t, hrun, htrace, hsocket, (slotTable ht).2.1⟩

end SelectServer
end OperatingSystems
