import OperatingSystems.Proxy.Reading
import OperatingSystems.Proxy.Request

/-!
# The miss path of `client_handler`

The code that `client_handler` runs after `map_add`: connect, send the request,
follow redirects, forward and cache the header block, forward and cache the
body.  A `Loader` holds the local variables of that code, the bytes its upstream
socket still delivers, and a log of what it did to its sockets and to its cache
entry; an `Env` holds everything the outside world decides.

The pieces (`httpConnect`, `requestSend`, `headerLoop`, `readBody`, `send`) act
on a `Loader` alone.  `Loader.fetch` is their sequential composition; the
concurrent server runs the same pieces between its accesses to shared memory.
The arrays `headers` and `body_buf` are taken to have room for what is stored in
them; `Loader.fetchWithin` is the miss path on the arrays as they are.
-/

namespace OperatingSystems
namespace Proxy

/-- What the peer of one `http_connect` call does: whether name resolution,
`socket` and `connect` succeed, whether `send` takes the request, and what it
sends back. -/
structure Hop where
  reachable : Bool
  takesRequest : Bool
  response : Socket

/-- The outside world of one `client_handler` run: the peers of its successive
`http_connect` calls and the results of its successive `send` calls to the
client. -/
structure Env where
  hop : Nat → Hop
  reply : Nat → Int

/-- What a run did, in order.  Descriptors are numbered by the `http_connect`
call that returned them; `none` is the invalid descriptor `-1`.  `recv` stands
for one call of `read_line` or `read_body`, `statusLine` for the status line that
`parse_http_status` is applied to. -/
inductive Event
  | connect (fd : Nat)
  | sendRequest (fd : Option Nat) (text : List Byte)
  | recv (fd : Option Nat)
  | statusLine (status : Int)
  | close (fd : Option Nat)
  | sendClient (buffer : List Byte)
  | listAdd (value : List Byte)
  | complete
  deriving DecidableEq

/-- The buffers passed to `send` for the client. -/
def handed (log : List Event) : List (List Byte) :=
  log.filterMap fun
    | .sendClient buffer => some buffer
    | _ => none

/-- The values passed to `list_add`. -/
def listAdds (log : List Event) : List (List Byte) :=
  log.filterMap fun
    | .listAdd value => some value
    | _ => none

@[simp] theorem handed_append (log more : List Event) :
    handed (log ++ more) = handed log ++ handed more := List.filterMap_append ..

@[simp] theorem listAdds_append (log more : List Event) :
    listAdds (log ++ more) = listAdds log ++ listAdds more := List.filterMap_append ..

/-- The local variables of the miss path.  `conn` is what `target_socket` still
delivers, `attempts` and `sends` count the calls of `http_connect` and of `send`
to the client. -/
structure Loader where
  request : Request
  targetSocket : Option Nat
  conn : Socket
  clientAlive : Bool
  redirects : Nat
  bufferSize : Int
  needToCache : Bool
  attempts : Nat
  sends : Nat
  log : List Event

namespace Loader

/-- The state before `http_connect`. -/
def start (request : Request) : Loader where
  request := request
  targetSocket := none
  conn := .closed
  clientAlive := true
  redirects := 0
  bufferSize := Proxy.bufferSize
  needToCache := true
  attempts := 0
  sends := 0
  log := []

/-- Append to the log. -/
def emit (l : Loader) (e : Event) : Loader :=
  { l with log := l.log ++ [e] }

/-- `target_socket = http_connect(request)`. -/
def httpConnect (env : Env) (l : Loader) : Loader :=
  if (hostPort l.request).isSome && (env.hop l.attempts).reachable then
    { l with
      targetSocket := some l.attempts
      conn := (env.hop l.attempts).response
      attempts := l.attempts + 1
      log := l.log ++ [.connect l.attempts] }
  else { l with targetSocket := none, conn := .closed, attempts := l.attempts + 1 }

/-- The result of `request_send` is not `-1`. -/
def requestSent (env : Env) (l : Loader) : Bool :=
  match buildRequest l.request, l.targetSocket with
  | some _, some fd => (env.hop fd).takesRequest
  | _, _ => false

/-- The effect of `request_send`. -/
def requestSend (l : Loader) : Loader :=
  match buildRequest l.request with
  | none => l
  | some text => l.emit (.sendRequest l.targetSocket text)

/-- `close(target_socket)`; a closed descriptor delivers nothing. -/
def closeTarget (l : Loader) : Loader :=
  { l with conn := .closed, log := l.log ++ [.close l.targetSocket] }

/-- `if (client_alive) { if (send(...) <= 0) client_alive = 0; }` -/
def send (env : Env) (l : Loader) (buffer : List Byte) : Loader :=
  if l.clientAlive then
    { l with
      clientAlive := 0 < env.reply l.sends
      sends := l.sends + 1
      log := l.log ++ [.sendClient buffer] }
  else l

/-- `read_line(target_socket, buffer, sizeof(buffer))` for the status line. -/
def readStatusLine (l : Loader) : List Byte × Loader :=
  ((readLine l.conn Proxy.bufferSize).1,
    { l with conn := (readLine l.conn Proxy.bufferSize).2, log := l.log ++ [.recv l.targetSocket] })

/-- The header block of one response after its status line: `need_to_cache` is
set, the header lines are collected. -/
def readHead (l : Loader) (statusLine : List Byte) : Head × Loader :=
  let status := parseHttpStatus statusLine
  let result :=
    headerLines (l.conn.bytes.length + 1) status l.conn ⟨statusLine, none, l.bufferSize⟩
  (result.1,
    { l with
      conn := result.2
      needToCache := cacheAllowed status
      bufferSize := result.1.bufferSize
      log := l.log ++ [.statusLine status, .recv l.targetSocket] })

/-- Follow a redirect: `close`, `update_request_from_location`, `http_connect`. -/
def follow (env : Env) (l : Loader) (location : List Byte) : Loader :=
  ({ l.closeTarget with
      request := updateRequestFromLocation l.request location }).httpConnect env

/-- `while (redirects < MAX_REDIRECTS)` with `n` rounds left.  The second
component is the header block that is to be added to the cache entry. -/
def headerLoop (env : Env) : Nat → Loader → Loader × Option (List Byte)
  | 0, l => (l, none)
  | n + 1, l =>
      let line := l.readStatusLine
      if line.1 = [] then (line.2, none)
      else
        let head := line.2.readHead line.1
        if !isRedirect (parseHttpStatus line.1) then
          let sent := head.2.send env head.1.headers
          (sent, if sent.needToCache then some head.1.headers else none)
        else
          match head.1.location with
          | none => (head.2, none)
          | some location =>
              let next := head.2.follow env location
              if next.targetSocket.isNone then (next, none)
              else headerLoop env n { next.requestSend with redirects := next.redirects + 1 }

/-- `read_body(target_socket, body_buf, buffer_size)`. -/
def readBody (l : Loader) : List Byte × Loader :=
  ((Proxy.readBody l.conn l.bufferSize).1,
    { l with conn := (Proxy.readBody l.conn l.bufferSize).2,
             log := l.log ++ [.recv l.targetSocket] })

/-- The body loop.  Every round consumes a byte, so one round more than there
are bytes is enough. -/
def bodyLoop (env : Env) : Nat → Loader → Loader
  | 0, l => l
  | fuel + 1, l =>
      let body := l.readBody
      if body.1 = [] then body.2
      else
        let cached := if body.2.needToCache then body.2.emit (.listAdd body.1) else body.2
        bodyLoop env fuel (cached.send env body.1)

/-- The connection phase, with both failure branches: each sets `complete` and
falls through. -/
def connectPhase (env : Env) (request : Request) : Loader :=
  let l := (start request).httpConnect env
  let l := if l.targetSocket.isNone then l.emit .complete else l
  let sent := l.requestSent env
  let l := l.requestSend
  if sent then l else l.closeTarget.emit .complete

/-- `list_add` of the header block, if the header loop left one to add. -/
def addHeaders : Loader × Option (List Byte) → Loader
  | (l, none) => l
  | (l, some headers) => l.emit (.listAdd headers)

/-- The whole miss path between `map_add` and `map_remove`. -/
def fetch (env : Env) (request : Request) : Loader :=
  let l := addHeaders ((connectPhase env request).headerLoop env maxRedirects)
  ((l.bodyLoop env (l.conn.bytes.length + 1)).closeTarget).emit .complete

end Loader

/-! ### Requests and upstreams for concrete runs -/

/-- A request for `http://a/`. -/
def plainRequest : Request where
  method := .get
  version := .http11
  searchPath := bytes "http://a/"
  metadata := [⟨bytes "Host", bytes "a"⟩]

/-- A request for `http://b/`. -/
def otherRequest : Request where
  method := .get
  version := .http11
  searchPath := bytes "http://b/"
  metadata := [⟨bytes "Host", bytes "b"⟩]

/-- A response with a header block and a body. -/
def plainResponse : List Byte :=
  bytes "HTTP/1.1 200 OK\r\n\r\nab"

/-- A response that is not cached. -/
def missingResponse : List Byte :=
  bytes "HTTP/1.1 404 Not Found\r\n\r\n"

/-- Every peer is reached and sends this response; the client takes everything. -/
def answering (response : List Byte) : Env where
  hop := fun _ => ⟨true, true, ⟨response, []⟩⟩
  reply := fun _ => 1

/-- The first peer sends one response, every later peer another one. -/
def redirecting (first final : List Byte) : Env where
  hop := fun k => ⟨true, true, ⟨if k = 0 then first else final, []⟩⟩
  reply := fun _ => 1

/-- A redirect to `http://b/`. -/
def movedResponse : List Byte :=
  bytes "HTTP/1.1 302 Found\r\nLocation: http://b/\r\n\r\n"

end Proxy
end OperatingSystems
