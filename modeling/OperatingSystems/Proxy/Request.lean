import OperatingSystems.Library.CString

/-!
# The request of the caching proxy

`request/request.c` and the request half of `handler/messages/messages.c`: the
parsed request, its metadata list, and the text that is sent upstream.  A
`Request` here is one that `client_handler` has accepted, so `searchPath` is not
the null pointer.

`hostPort` is the part of `http_connect` before name resolution: the host and
the port string it connects to, or `none` when there is no `Host` header.
-/

namespace OperatingSystems
namespace Proxy

/-- `enum Methods_enum`. -/
inductive Method
  | options
  | get
  | head
  | post
  | put
  | delete
  | trace
  | connect
  | unknown
  deriving DecidableEq

/-- `enum Versions_enum`. -/
inductive Version
  | http10
  | http11
  | invalid
  deriving DecidableEq

/-- `Metadata_item`: one header line. -/
structure MetadataItem where
  key : List Byte
  value : List Byte
  deriving DecidableEq

/-- `Request`, with the metadata queue as the list of its items. -/
structure Request where
  method : Method
  version : Version
  searchPath : List Byte
  metadata : List MetadataItem
  deriving DecidableEq

/-- `list_get_key`: the value of the first item with exactly this key. -/
def listGetKey (list : List MetadataItem) (key : List Byte) : Option (List Byte) :=
  (list.find? fun item => item.key == key).map MetadataItem.value

/-- `request_set_host`: replace the first `Host` item, in any spelling of the
key, or append one. -/
def requestSetHost (host : List Byte) : List MetadataItem → List MetadataItem
  | [] => [⟨bytes "Host", host⟩]
  | item :: rest =>
      if strcaseeq item.key (bytes "Host") then { item with value := host } :: rest
      else item :: requestSetHost host rest

/-- `sscanf(location, "http://%255[^/]%2047s", ...) >= 1`: the host conversion,
which needs at least one character. -/
def scanHost (location : List Byte) : Option (List Byte) :=
  if startsWith (bytes "http://") location then
    match ((location.drop 7).takeWhile (· != 47)).take 255 with
    | [] => none
    | host => some host
  else none

/-- `update_request_from_location`, with `request_set_url` inlined. -/
def updateRequestFromLocation (req : Request) (location : List Byte) : Request :=
  match scanHost location with
  | none => req
  | some host =>
      { req with metadata := requestSetHost host req.metadata, searchPath := location }

/-- `extract_uri`: from the first `/` after the first `//`, otherwise `/`. -/
def extractUri (searchPath : List Byte) : List Byte :=
  match strstr (bytes "//") searchPath with
  | none => bytes "/"
  | some pathStart =>
      match strchr (pathStart.drop 2) 47 with
      | none => bytes "/"
      | some uri => uri

/-- The version part of the request line; `none` makes `build_request` fail. -/
def versionText : Version → Option (List Byte)
  | .http10 => some (bytes " HTTP/1.0\r\n")
  | .http11 => some (bytes " HTTP/1.1\r\n")
  | .invalid => none

/-- One kept header line of the upstream request. -/
def headerText (item : MetadataItem) : List Byte :=
  if item.key = bytes "Connection" ∨ item.key = bytes "Proxy-Connection" then []
  else item.key ++ bytes ": " ++ item.value ++ bytes "\r\n"

/-- `build_request`: the text sent upstream, `none` for an invalid version. -/
def buildRequest (req : Request) : Option (List Byte) :=
  (versionText req.version).map fun version =>
    bytes "GET " ++ extractUri req.searchPath ++ version ++
      req.metadata.flatMap headerText ++
      (if req.version = .http11 then bytes "Connection: close\r\n" else []) ++ bytes "\r\n"

/-- The host and port that `http_connect` resolves: 255 characters of the
`Host` value, cut at its first colon, and the five characters after it. -/
def hostPort (req : Request) : Option (List Byte × List Byte) :=
  (listGetKey req.metadata (bytes "Host")).map fun hostHeader =>
    let host := hostHeader.take 255
    match strchr host 58 with
    | none => (host, bytes "80")
    | some colon => (host.takeWhile (· != 58), (colon.drop 1).take 5)

end Proxy
end OperatingSystems
