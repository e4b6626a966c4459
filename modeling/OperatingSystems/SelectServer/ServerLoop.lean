import Mathlib.Data.Fin.Basic
import Mathlib.Data.List.FinRange
import OperatingSystems.Library.ByteMemory
import OperatingSystems.Library.Machine

/-!
# The echo server that uses `select`

One thread serves up to `MAX` clients: what it reads from a client it keeps in the
client's `sendBuffer`, from which it sends as much as the client takes.  The pending
bytes are the `sendLength` bytes from `sendOffset` on.

What the outside world decides is an input: which descriptors `select` reports, the
descriptor that `accept` returns, the bytes that `read` returns and how many bytes `send`
takes.  Besides the variables of the program the state records, for every client that
was given a slot, what was received from it and what was sent to it.
-/

namespace OperatingSystems
namespace SelectServer

/-- `MAX`. -/
def maxClients : Nat := 16

/-- `sizeof(client->sendBuffer)`. -/
def sendBufferSize : Nat := 1024 * 10

/-- `sizeof(buffer)` in `handleMessage`. -/
def readBufferSize : Nat := 1024

/-! ### The clients -/

/-- `Client`. -/
structure Client where
  socket : Nat
  sendBuffer : ByteMemory
  sendLength : Nat
  sendOffset : Nat

namespace Client

/-- A free slot, as `clients` is initialised and as `deleteClient` leaves it. -/
def reset (c : Client) : Client :=
  { c with socket := 0, sendLength := 0, sendOffset := 0 }

/-- The bytes that are still to be sent. -/
def pending (c : Client) : List Byte :=
  c.sendBuffer.bytesAt c.sendOffset c.sendLength

/-- The new message fits. -/
def fits (c : Client) (data : List Byte) : Bool :=
  c.sendLength + data.length ≤ sendBufferSize

/-- `memcpy(client->sendBuffer + client->sendLength, buffer, toRead)`. -/
def append (c : Client) (data : List Byte) : Client :=
  { c with
    sendBuffer := c.sendBuffer.copy c.sendLength data
    sendLength := c.sendLength + data.length }

/-- A `send` has taken `n` bytes. -/
def advance (c : Client) (n : Nat) : Client :=
  { c with
    sendOffset := if c.sendLength - n = 0 then 0 else c.sendOffset + n
    sendLength := c.sendLength - n }

end Client

/-- `clients`, and the record of what was exchanged: slot `i` serves the connection
`connection i`. -/
structure Slots where
  clients : Fin maxClients → Client
  connection : Fin maxClients → Nat
  accepted : Nat
  received : Nat → List Byte
  sent : Nat → List Byte

namespace Slots

/-- The first slot with this socket. -/
def slotOf (s : Slots) (sd : Nat) : Option (Fin maxClients) :=
  (List.finRange maxClients).find? fun i => (s.clients i).socket = sd

theorem slotOf_eq_some {s : Slots} {sd : Nat} {i : Fin maxClients} (h : s.slotOf sd = some i) :
    (s.clients i).socket = sd := by
  simpa using List.find?_some h

/-- A socket that no other slot has is found in its slot. -/
theorem slotOf_of_distinct {s : Slots} {i : Fin maxClients}
    (h : ∀ j, (s.clients i).socket = (s.clients j).socket → i = j) :
    s.slotOf (s.clients i).socket = some i := by
  cases hslot : s.slotOf (s.clients i).socket with
  | none =>
      have hnot := List.find?_eq_none.mp hslot i (List.mem_finRange i)
      simp at hnot
  | some j => rw [h j (slotOf_eq_some hslot).symm]

/-- Write one slot. -/
def set (s : Slots) (i : Fin maxClients) (c : Client) : Slots :=
  { s with clients := Function.update s.clients i c }

/-- `addClient`.  Without a free slot the new client is told so and closed. -/
def addClient (s : Slots) (newSocket : Nat) : Slots :=
  match s.slotOf 0 with
  | none => s
  | some i =>
      { s.set i { s.clients i with socket := newSocket, sendLength := 0, sendOffset := 0 } with
        connection := Function.update s.connection i s.accepted
        accepted := s.accepted + 1 }

/-- `deleteClient`. -/
def deleteClient (s : Slots) (sd : Nat) : Slots :=
  match s.slotOf sd with
  | none => s
  | some i => s.set i (s.clients i).reset

/-- These bytes were received by slot `i`. -/
def receive (s : Slots) (i : Fin maxClients) (data : List Byte) : Slots :=
  { s with
    received := Function.update s.received (s.connection i)
      (s.received (s.connection i) ++ data) }

/-- `handleMessage`, with the result of `read`: `none` for an error, `[]` for the end of
the stream. -/
def handleMessage (s : Slots) (i : Fin maxClients) : Option (List Byte) → Slots
  | none => s
  | some data =>
      if data = [] then s.deleteClient (s.clients i).socket
      else if (s.clients i).fits data then (s.receive i data).set i ((s.clients i).append data)
      else (s.receive i data).deleteClient (s.clients i).socket

/-- A `send` of `flushClientBuffer` that has taken `n` bytes. -/
def flush (s : Slots) (i : Fin maxClients) (n : Nat) : Slots :=
  { s.set i ((s.clients i).advance n) with
    sent := Function.update s.sent (s.connection i)
      (s.sent (s.connection i) ++
        (s.clients i).sendBuffer.bytesAt (s.clients i).sendOffset n) }

end Slots

/-! ### The loop -/

/-- The statement of `serverLoop` that comes next; `slot` is the head of the second
`for` loop, `handle` and `flush` are the calls of `handleMessage` and of `send`. -/
inductive Pc
  | select
  | accept
  | slot (i : Nat)
  | handle (i : Fin maxClients)
  | writable (i : Fin maxClients)
  | flush (i : Fin maxClients)
  deriving DecidableEq

/-- The state of the server; `socket` is the local variable of the `for` loop. -/
structure Server where
  serverSocket : Nat
  pc : Pc
  readSet : Nat → Bool
  writeSet : Nat → Bool
  socket : Nat
  slots : Slots

/-- The results of the calls; `next` for a statement without one. -/
inductive Input
  | next
  | select (ready : Option ((Nat → Bool) × (Nat → Bool)))
  | accept (newSocket : Option Nat)
  | read (result : Option (List Byte))
  | send (result : Option Nat)

namespace Server

/-- The set built with `FD_SET` for reading. -/
def readers (s : Server) (n : Nat) : Bool :=
  n = s.serverSocket || decide (0 < n ∧ ∃ i, (s.slots.clients i).socket = n)

/-- The set built with `FD_SET` for writing. -/
def writers (s : Server) (n : Nat) : Bool :=
  decide (0 < n ∧ ∃ i, (s.slots.clients i).socket = n ∧ 0 < (s.slots.clients i).sendLength)

/-- `accept` returns a descriptor that is not open. -/
def isClosed (s : Server) (n : Nat) : Bool :=
  n ≠ s.serverSocket &&
    decide (∀ i, (s.slots.clients i).socket = 0 ∨ (s.slots.clients i).socket ≠ n)

/-- One statement of `serverLoop`. -/
def next (s : Server) (a : Input) : Option Server :=
  match s.pc, a with
  -- An interrupted `select` leaves both sets as they were built.
  | .select, .select none => some s
  | .select, .select (some (readable, writeable)) =>
      some { s with
        readSet := fun n => s.readers n && readable n
        writeSet := fun n => s.writers n && writeable n
        pc := .accept }
  | .accept, .next => if s.readSet s.serverSocket then none else some { s with pc := .slot 0 }
  | .accept, .accept none =>
      if s.readSet s.serverSocket then some { s with pc := .slot 0 } else none
  | .accept, .accept (some newSocket) =>
      if s.readSet s.serverSocket && s.isClosed newSocket then
        some { s with slots := s.slots.addClient newSocket, pc := .slot 0 }
      else none
  | .slot i, .next =>
      if h : i < maxClients then
        let socket := (s.slots.clients ⟨i, h⟩).socket
        some { s with
          socket := socket
          pc := if 0 < socket ∧ s.readSet socket then .handle ⟨i, h⟩ else .writable ⟨i, h⟩ }
      else some { s with pc := .select }
  | .handle i, .read result =>
      if (result.getD []).length ≤ readBufferSize then
        some { s with slots := s.slots.handleMessage i result, pc := .writable i }
      else none
  | .writable i, .next =>
      some { s with pc := if 0 < s.socket ∧ s.writeSet s.socket then .flush i else .slot (i + 1) }
  | .flush i, .next =>
      if (s.slots.clients i).sendLength = 0 then some { s with pc := .slot (i + 1) } else none
  | .flush i, .send none =>
      if 0 < (s.slots.clients i).sendLength then some { s with pc := .slot (i + 1) } else none
  | .flush i, .send (some n) =>
      if 0 < n ∧ n ≤ (s.slots.clients i).sendLength then some { s with slots := s.slots.flush i n }
      else none
  | _, _ => none

/-- What one statement does to the slots, and where it leads. -/
inductive Does (s : Server) (a : Input) (s' : Server) : Prop
  | nothing (slots : s'.slots = s.slots)
      (handles : ∀ i, s'.pc = .handle i → (s.slots.clients i).socket ≠ 0)
      (noClient : ∀ newSocket, a ≠ .accept (some newSocket)) (noRead : ∀ result, a ≠ .read result)
      (noSend : ∀ result, a ≠ .send result)
  | addClient (newSocket : Nat) (pc : s.pc = .accept) (input : a = .accept (some newSocket))
      (closed : s.isClosed newSocket = true) (slots : s'.slots = s.slots.addClient newSocket)
      (leads : s'.pc = .slot 0)
  | handleMessage (i : Fin maxClients) (result : Option (List Byte)) (pc : s.pc = .handle i)
      (input : a = .read result) (slots : s'.slots = s.slots.handleMessage i result)
      (leads : s'.pc = .writable i)
  | sendFails (i : Fin maxClients) (pc : s.pc = .flush i) (input : a = .send none)
      (pending : 0 < (s.slots.clients i).sendLength) (slots : s'.slots = s.slots)
      (leads : s'.pc = .slot (i + 1))
  | flush (i : Fin maxClients) (n : Nat) (pc : s.pc = .flush i) (input : a = .send (some n))
      (pos : 0 < n) (taken : n ≤ (s.slots.clients i).sendLength)
      (slots : s'.slots = s.slots.flush i n) (leads : s'.pc = .flush i)

theorem does {s s' : Server} {a : Input} (h : s.next a = some s') : s.Does a s' := by
  cases hpc : s.pc <;> cases a <;> simp only [next, hpc, reduceCtorEq] at h
  case select.select ready =>
    cases ready with
    | none =>
        obtain rfl := Option.some.inj h
        exact .nothing rfl (by simp [hpc]) (by simp) (by simp) (by simp)
    | some sets =>
        obtain rfl := Option.some.inj h
        exact .nothing rfl (by simp) (by simp) (by simp) (by simp)
  case accept.next =>
    obtain rfl := Option.some.inj (Option.ite_none_left_eq_some.mp h).2
    exact .nothing rfl (by simp) (by simp) (by simp) (by simp)
  case accept.accept newSocket =>
    cases newSocket with
    | none =>
        obtain rfl := Option.some.inj (Option.ite_none_right_eq_some.mp h).2
        exact .nothing rfl (by simp) (by simp) (by simp) (by simp)
    | some newSocket =>
        obtain ⟨hready, h⟩ := Option.ite_none_right_eq_some.mp h
        obtain rfl := Option.some.inj h
        exact .addClient newSocket hpc rfl (Bool.and_eq_true_iff.mp hready).2 rfl rfl
  case slot.next i =>
    split at h
    · next hi =>
      obtain rfl := Option.some.inj h
      refine .nothing rfl (fun j hj => ?_) (by simp) (by simp) (by simp)
      -- The loop calls `handleMessage` only for a socket that is not zero.
      simp only at hj
      split at hj
      · next hready =>
        obtain rfl := Pc.handle.inj hj
        exact hready.1.ne'
      · simp at hj
    · obtain rfl := Option.some.inj h
      exact .nothing rfl (by simp) (by simp) (by simp) (by simp)
  case handle.read i result =>
    obtain rfl := Option.some.inj (Option.ite_none_right_eq_some.mp h).2
    exact .handleMessage i result hpc rfl rfl rfl
  case writable.next i =>
    obtain rfl := Option.some.inj h
    refine .nothing rfl (fun j hj => ?_) (by simp) (by simp) (by simp)
    simp only at hj
    split at hj <;> simp at hj
  case flush.next i =>
    obtain rfl := Option.some.inj (Option.ite_none_right_eq_some.mp h).2
    exact .nothing rfl (by simp) (by simp) (by simp) (by simp)
  case flush.send i result =>
    cases result with
    | none =>
        obtain ⟨hpending, h⟩ := Option.ite_none_right_eq_some.mp h
        obtain rfl := Option.some.inj h
        exact .sendFails i hpc rfl hpending rfl rfl
    | some n =>
        obtain ⟨⟨hpos, htaken⟩, h⟩ := Option.ite_none_right_eq_some.mp h
        obtain rfl := Option.some.inj h
        exact .flush i n hpc rfl hpos htaken rfl rfl

end Server

/-- The server as a machine whose inputs are the results of its calls. -/
def serverLoop : Machine Server Input where
  step := Server.next

/-- A server that has accepted no client yet. -/
def Starts (s : Server) : Prop :=
  s.pc = .select ∧ (∀ i, (s.slots.clients i).socket = 0 ∧ (s.slots.clients i).sendLength = 0) ∧
    ∀ k, s.slots.received k = [] ∧ s.slots.sent k = []

end SelectServer
end OperatingSystems
