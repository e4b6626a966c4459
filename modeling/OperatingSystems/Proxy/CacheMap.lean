import OperatingSystems.Proxy.Loader

/-!
# `client_handler` on a quiet server

The cache as the list of its entries, and `clientHandler` as it runs while no
other handler does, in arrays that have room for what it stores
(`clientHandlerWithin` is the same run in the arrays as they are).  The linked
chain behind the list and the interleavings of several handlers are the subject
of the concurrent server.
-/

namespace OperatingSystems
namespace Proxy

/-- `Cache` with its response list: the values of its nodes and `complete`. -/
structure CacheEntry where
  url : List Byte
  nodes : List (List Byte)
  complete : Bool
  deriving DecidableEq

/-- `Map`, from its first entry on. -/
abbrev CacheMap := List CacheEntry

/-- `map_find_by_url`. -/
def mapFindByUrl (map : CacheMap) (url : List Byte) : Option CacheEntry :=
  map.find? fun entry => entry.url == url

/-- `map_add`. -/
def mapAdd (map : CacheMap) (url : List Byte) : CacheMap :=
  ⟨url, [], false⟩ :: map

/-- `map_remove`: unlink the first entry with this URL. -/
def mapRemove (map : CacheMap) (url : List Byte) : CacheMap :=
  map.eraseP fun entry => entry.url == url

/-- What the loader writes through `cache_node`, the entry at the head. -/
def fillFirst (nodes : List (List Byte)) : CacheMap → CacheMap
  | [] => []
  | entry :: map => { entry with nodes := nodes, complete := true } :: map

/-- The text of `request_send_not_allowed`. -/
def notAllowedText : List Byte :=
  bytes "HTTP/1.1 405 Method Not Allowed\r\nAllow: GET\r\nConnection: close\r\nContent-Length: 0\r\n\r\n"

/-- What one run leaves behind: the map and the log of the run. -/
structure Outcome where
  map : CacheMap
  log : List Event

/-- The miss path with its `map_add` and its final `map_remove`. -/
def missPath (env : Env) (map : CacheMap) (request : Request) : Outcome :=
  let l := Loader.fetch env request
  let filled := fillFirst (listAdds l.log) (mapAdd map request.searchPath)
  { map := if l.needToCache then filled else mapRemove filled l.request.searchPath
    log := l.log }

/-- The streaming loop on a complete entry, from its `k`-th `send` on. -/
def streamNodes (env : Env) : Nat → List (List Byte) → List Event
  | _, [] => []
  | k, value :: rest =>
      .sendClient value :: if env.reply k = -1 then [] else streamNodes env (k + 1) rest

/-- `client_handler` after `read_header`.  On an incomplete entry it waits for a
loader, which a quiet server does not have: `none`. -/
def clientHandler (env : Env) (map : CacheMap) (request : Request) : Option Outcome :=
  if request.method ≠ .get then some ⟨map, [.sendClient notAllowedText]⟩
  else
    match mapFindByUrl map request.searchPath with
    | some entry =>
        if entry.complete then some ⟨map, streamNodes env 0 entry.nodes⟩ else none
    | none => some (missPath env map request)

/-- A `GET` request whose URL is not in the map takes the miss path. -/
theorem clientHandler_miss {env : Env} {map : CacheMap} {request : Request}
    (hget : request.method = .get) (hmiss : mapFindByUrl map request.searchPath = none) :
    clientHandler env map request = some (missPath env map request) := by
  simp [clientHandler, hget, hmiss]

/-- A URL which is not in the map is the URL of no entry. -/
theorem mapFindByUrl_eq_none_iff (map : CacheMap) (url : List Byte) :
    mapFindByUrl map url = none ↔ ∀ entry ∈ map, entry.url ≠ url := by
  simp [mapFindByUrl]

/-- Removing the URL of the head entry removes the head entry. -/
theorem mapRemove_cons_self (entry : CacheEntry) (map : CacheMap) :
    mapRemove (entry :: map) entry.url = map := by
  simp [mapRemove]

/-- Removing another URL leaves the head entry. -/
theorem mem_mapRemove_of_ne {entry : CacheEntry} {map : CacheMap} {url : List Byte}
    (hurl : entry.url ≠ url) : entry ∈ mapRemove (entry :: map) url := by
  simp [mapRemove, hurl]

end Proxy
end OperatingSystems
