import Mathlib.Data.List.Infix
import OperatingSystems.Library.CString
import OperatingSystems.Library.Machine

/-!
# The echo server that forks

`main` accepts one connection after the other and forks a child for each, which sends back in
`handleClient` what it receives.  `SIGCHLD` is a single bit: it is raised by every child that
terminates, and its handler calls `waitpid` until no terminated child is left.

Everything that the outside decides is an input: the results of the calls, which process goes on,
when the signal is delivered, and whether a child is killed.  A connection is named by its number
in the order of `accept`; a descriptor is named by the connection it stands for, so that the
processes that hold a connection open can be told.
-/

namespace OperatingSystems
namespace TcpEcho

/-- `BUFFER_SIZE`. -/
def bufferSize : Nat := 1024

/-! ### A child -/

/-- The call that a child makes next; a child that has terminated is a zombie until its parent has
waited for it. -/
inductive ChildPc
  | closeServer
  | recv
  | send (buffer : List Byte)
  | close
  | exit
  | zombie
  | reaped
  deriving DecidableEq

/-- The results of the calls of a child. -/
inductive Result
  | done
  | block (data : List Byte)
  | nothing
  | taken (n : Nat)
  | failed
  | killed

/-- A child with its descriptors, and the record of what it received and what was taken from it. -/
structure Child where
  server : Bool
  clients : List Nat
  pc : ChildPc
  got : List Byte
  sent : List Byte

namespace Child

/-- The process has terminated, and its descriptors are closed. -/
def terminate (c : Child) : Child :=
  { c with server := false, clients := [], pc := .zombie }

def running (c : Child) : Bool :=
  c.pc ≠ .zombie && c.pc ≠ .reaped

/-- One call of the child that serves the connection `client`: `close(serverSocket)`, and then
`handleClient(clientSocket)`. -/
def next (client : Nat) (c : Child) (r : Result) : Option Child :=
  match c.pc, r with
  | .closeServer, .done => some { c with server := false, pc := .recv }
  | .recv, .block data =>
      if data ≠ [] ∧ data.length ≤ bufferSize then
        some { c with pc := .send data, got := c.got ++ data }
      else none
  -- The end of the stream, or an error.
  | .recv, .nothing => some { c with pc := .close }
  | .send buffer, .taken n =>
      if n ≤ buffer.length then some { c with pc := .recv, sent := c.sent ++ buffer.take n }
      else none
  | .send _, .failed => some { c with pc := .close }
  | .close, .done => some { c with clients := c.clients.erase client, pc := .exit }
  | .exit, .done => some c.terminate
  | _, .killed => if c.running then some c.terminate else none
  | _, _ => none

end Child

/-! ### The parent -/

/-- The call that the parent makes next. -/
inductive Pc
  | accept
  | fork (client : Nat)
  | close (client : Nat)
  deriving DecidableEq

/-- All processes: `handler` is set while the parent runs `sigchldHandler`, `clients` are its
descriptors besides the listening socket. -/
structure Server where
  pc : Pc
  handler : Bool
  pending : Bool
  clients : List Nat
  accepted : Nat
  child : Nat → Option Child

inductive Input
  | accept (ok : Bool)
  | fork (ok : Bool)
  | close
  | deliver
  | waitpid (child : Option Nat)
  | child (client : Nat) (result : Result)

namespace Server

/-- The child for this connection. -/
def setChild (s : Server) (client : Nat) (c : Child) : Server :=
  { s with child := Function.update s.child client (some c) }

@[simp] theorem setChild_child_self (s : Server) (client : Nat) (c : Child) :
    (s.setChild client c).child client = some c :=
  Function.update_self ..

theorem setChild_child_of_ne {client k : Nat} (s : Server) (c : Child) (h : k ≠ client) :
    (s.setChild client c).child k = s.child k :=
  Function.update_of_ne h ..

/-- What the child makes of one call; its end raises `SIGCHLD`. -/
def childStep (s : Server) (client : Nat) (r : Result) : Option Server :=
  (s.child client).bind fun c =>
    (c.next client r).map fun c' =>
      { s.setChild client c' with pending := s.pending || c'.pc = .zombie }

/-- `waitpid` would find a terminated child. -/
def hasZombie (s : Server) : Bool :=
  (List.range s.accepted).any fun k => (s.child k).any (·.pc = .zombie)

/-- One call of one process.  The handler interrupts the parent between two calls, and `accept` is
restarted behind it. -/
def next (s : Server) (a : Input) : Option Server :=
  match a with
  | .accept ok =>
      if s.handler = false ∧ s.pc = .accept then
        some (if ok then
          { s with
            pc := .fork s.accepted
            clients := s.accepted :: s.clients
            accepted := s.accepted + 1 }
        else s)
      else none
  | .fork ok =>
      match s.pc with
      | .fork client =>
          if s.handler then none
          else if ok then
            some { s.setChild client ⟨true, s.clients, .closeServer, [], []⟩ with
              pc := .close client }
          else some { s with pc := .close client }
      | _ => none
  | .close =>
      match s.pc with
      | .close client =>
          if s.handler then none
          else some { s with pc := .accept, clients := s.clients.erase client }
      | _ => none
  | .deliver =>
      if s.handler = false ∧ s.pending then some { s with handler := true, pending := false }
      else none
  | .waitpid (some client) =>
      match s.child client with
      | some c =>
          if s.handler ∧ c.pc = .zombie then some (s.setChild client { c with pc := .reaped })
          else none
      | none => none
  | .waitpid none =>
      if s.handler ∧ s.hasZombie = false then some { s with handler := false } else none
  | .child client r => s.childStep client r

end Server

/-- The server as a machine. -/
def forkServer : Machine Server Input where
  step := Server.next

/-- The server in front of its first `accept`. -/
def Starts (s : Server) : Prop :=
  s.pc = .accept ∧ s.handler = false ∧ s.clients = [] ∧ s.accepted = 0 ∧ ∀ k, s.child k = none

end TcpEcho
end OperatingSystems
