import Mathlib.Logic.Function.Basic
import OperatingSystems.Library.CString
import OperatingSystems.Library.Machine

/-!
# The datagram echo

`runEchoServer` sends every datagram back to the address that it came from, and each run of the
client program sends one message and prints the first datagram that arrives at its socket.  Between
them a datagram may be lost, delivered twice and overtaken by others.  A call that fails ends the
program that made it.

The clients are numbered; the address of a client is that of its socket, and a later client may
have the address of an earlier one.
-/

namespace OperatingSystems
namespace UdpEcho

/-- `BUFFER_SIZE`. -/
def bufferSize : Nat := 1024

/-- A datagram, with the address of the client that sent it or that it is sent to. -/
structure Datagram (α : Type*) where
  address : α
  data : List Byte
  deriving DecidableEq

/-- The call that a client makes next, or how it ended: with a line printed, or with a failure. -/
inductive ClientPc
  | sendto
  | recvfrom
  | printed (line : List Byte)
  | failed
  deriving DecidableEq

/-- The call that the server makes next. -/
inductive ServerPc (α : Type*)
  | recvfrom
  | sendto (datagram : Datagram α)
  | failed
  deriving DecidableEq

structure Network (α : Type*) where
  client : Nat → ClientPc
  server : ServerPc α
  requests : List (Datagram α)
  replies : List (Datagram α)

/-- A datagram is named by its place among those that are under way; `recvfrom` without one
fails. -/
inductive Input
  | sendMessage (client : Nat) (ok : Bool)
  | receiveReply (client : Nat) (datagram : Option Nat)
  | recvfrom (datagram : Option Nat)
  | sendto (ok : Bool)
  | loseRequest (datagram : Nat)
  | loseReply (datagram : Nat)
  | repeatRequest (datagram : Nat)
  | repeatReply (datagram : Nat)

/-- What the client prints of the bytes that `recvfrom` left in its buffer. -/
def replyLine (data : List Byte) : List Byte :=
  bytes "Reply: " ++ cstr (data.take (bufferSize - 1) ++ [0]) ++ [10]

namespace Network

variable {α : Type*}

def setClient (s : Network α) (client : Nat) (pc : ClientPc) : Network α :=
  { s with client := Function.update s.client client pc }

@[simp] theorem setClient_self (s : Network α) (client : Nat) (pc : ClientPc) :
    (s.setClient client pc).client client = pc :=
  Function.update_self ..

theorem setClient_of_ne {client k : Nat} (s : Network α) (pc : ClientPc) (h : k ≠ client) :
    (s.setClient client pc).client k = s.client k :=
  Function.update_of_ne h ..

variable [DecidableEq α] (address : Nat → α) (argv : Nat → List Byte)

/-- One call of one program, or what happens to one datagram.  `argv client` is the message that
the client was given. -/
def next (s : Network α) (a : Input) : Option (Network α) :=
  match a with
  | .sendMessage client ok =>
      if s.client client = .sendto then
        if ok then
          some { s.setClient client .recvfrom with
            requests := s.requests ++ [⟨address client, cstr (argv client)⟩] }
        else some (s.setClient client .failed)
      else none
  | .receiveReply client none =>
      if s.client client = .recvfrom then some (s.setClient client .failed) else none
  | .receiveReply client (some i) =>
      if s.client client = .recvfrom then
        s.replies[i]?.bind fun reply =>
          if reply.address = address client then
            some { s.setClient client (.printed (replyLine reply.data)) with
              replies := s.replies.eraseIdx i }
          else none
      else none
  | .recvfrom none =>
      if s.server = .recvfrom then some { s with server := .failed } else none
  | .recvfrom (some i) =>
      if s.server = .recvfrom then
        s.requests[i]?.map fun request =>
          { s with
            server := .sendto { request with data := request.data.take bufferSize }
            requests := s.requests.eraseIdx i }
      else none
  | .sendto ok =>
      match s.server with
      | .sendto datagram =>
          if ok then some { s with server := .recvfrom, replies := s.replies ++ [datagram] }
          else some { s with server := .failed }
      | _ => none
  | .loseRequest i => some { s with requests := s.requests.eraseIdx i }
  | .loseReply i => some { s with replies := s.replies.eraseIdx i }
  | .repeatRequest i => s.requests[i]?.map fun request =>
      { s with requests := s.requests ++ [request] }
  | .repeatReply i => s.replies[i]?.map fun reply => { s with replies := s.replies ++ [reply] }

/-- No client has sent its message. -/
def start {α : Type*} : Network α := ⟨fun _ => .sendto, .recvfrom, [], []⟩

end Network

/-- The server, its clients and the network between them. -/
def network {α : Type*} [DecidableEq α] (address : Nat → α) (argv : Nat → List Byte) :
    Machine (Network α) Input where
  step := Network.next address argv

/-- Nothing fails, is lost or is delivered twice, and only the first `n` clients are started. -/
def Works (n : Nat) : Input → Bool
  | .sendMessage client ok => client < n && ok
  | .receiveReply _ datagram => datagram.isSome
  | .recvfrom datagram => datagram.isSome
  | .sendto ok => ok
  | _ => false

end UdpEcho
end OperatingSystems
