import OperatingSystems.Library.Scanf
import OperatingSystems.TcpEcho.Processes

/-!
# A client of the echo server

`communicate` reads a line from the standard input, sends it up to its NUL, and prints what one
`recv` returns; it does not wait for the whole of its echo.  A session is a client and the child
that serves it, with a stream of bytes in each direction: either of them may go on, and `recv`
takes any number of the bytes that are there.
-/

namespace OperatingSystems
namespace TcpEcho

/-- `BUF_SIZE`. -/
def bufSize : Nat := 1024

/-- The call that the client makes next. -/
inductive ClientPc
  | fgets
  | send (buffer : List Byte)
  | recv
  | closed
  deriving DecidableEq

/-- The client, and the record of the lines that it read, of what was taken from it for each of
them, and of what it printed. -/
structure Client where
  pc : ClientPc
  stdin : List Byte
  lines : List (List Byte)
  messages : List (List Byte)
  replies : List (List Byte)

namespace Client

/-- The loop is left, and the socket is closed. -/
def leave (c : Client) : Client :=
  { c with pc := .closed }

/-- One call of `communicate`. -/
def next (c : Client) (r : Result) : Option Client :=
  match c.pc, r with
  | .fgets, .done =>
      match fgets bufSize c.stdin with
      | some (line, rest) =>
          some { c with
            pc := .send (cstr (line ++ [0]))
            stdin := rest
            lines := c.lines ++ [line] }
      | none => some c.leave
  | .send buffer, .taken n =>
      if n = buffer.length then
        some { c with pc := .recv, messages := c.messages ++ [buffer] }
      else if n < buffer.length then
        some { c.leave with messages := c.messages ++ [buffer.take n] }
      else none
  | .send _, .failed => some c.leave
  | .recv, .block data =>
      if data ≠ [] ∧ data.length ≤ bufSize - 1 then
        some { c with pc := .fgets, replies := c.replies ++ [cstr (data ++ [0])] }
      else none
  | .recv, .nothing => some c.leave
  | _, .killed => if c.pc = .closed then none else some c.leave
  | _, _ => none

end Client

/-- The bytes that a call takes from its stream. -/
def Result.received : Result → List Byte
  | .block data => data
  | _ => []

/-- The bytes that a `send` of this buffer leaves in its stream. -/
def Result.given (buffer : List Byte) : Result → List Byte
  | .taken n => buffer.take n
  | _ => []

/-- What the client is about to send. -/
def ClientPc.message : ClientPc → List Byte
  | .send buffer => buffer
  | _ => []

structure Session where
  client : Client
  server : Child
  toServer : List Byte
  toClient : List Byte

namespace Session

inductive Input
  | client (result : Result)
  | server (result : Result)

/-- One call of the client, or of the child for the connection `k`. -/
def next (k : Nat) (s : Session) (a : Input) : Option Session :=
  match a with
  | .client r =>
      if r.received.isPrefixOf s.toClient then
        (s.client.next r).map fun c =>
          { s with
            client := c
            toClient := s.toClient.drop r.received.length
            toServer := s.toServer ++ r.given s.client.pc.message }
      else none
  | .server r =>
      if r.received.isPrefixOf s.toServer then
        (s.server.next k r).map fun c =>
          { s with
            server := c
            toServer := s.toServer.drop r.received.length
            toClient := s.toClient ++ r.given s.server.pc.unsent }
      else none

/-- A `send` of the child takes the whole buffer, or fails. -/
def whole (s : Session) : Input → Bool
  | .server (.taken n) => n = s.server.pc.unsent.length
  | _ => true

/-- Nothing fails: a `send` takes the whole buffer, and a `recv` finds the end of its stream when
the other side has closed the connection and everything is read. -/
def works (s : Session) : Input → Bool
  | .server (.taken n) => n = s.server.pc.unsent.length
  | .client (.taken n) => n = s.client.pc.message.length
  | .server .nothing => s.toServer = [] ∧ s.client.pc = .closed
  | .client .nothing => s.toClient = [] ∧ s.server.serving = false
  | .server .failed | .client .failed | .server .killed | .client .killed => false
  | _ => true

/-- The client is connected, and `text` is what will be typed. -/
def start (k : Nat) (text : List Byte) : Session :=
  ⟨⟨.fgets, text, [], [], []⟩, ⟨true, [k], .closeServer, [], []⟩, [], []⟩

end Session

/-- A session as a machine. -/
def session (k : Nat) : Machine Session Session.Input where
  step := Session.next k

end TcpEcho
end OperatingSystems
