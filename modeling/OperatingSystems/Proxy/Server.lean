import OperatingSystems.Library.Chain
import OperatingSystems.Library.Locks
import OperatingSystems.Proxy.Loader

/-!
# The concurrent server

`client_handler` as run by any number of threads over one cache.  The shared
memory holds the linked chain of `Cache` entries, their response lists, and all
locks; a `Handler` holds the local variables of one run, and its `Pc` names the
statement it executes next.  A step is one access to shared memory, or a stretch
of code that touches none.

Three readings of the C code are fixed here.  An address is never handed out
twice, so a destroyed entry keeps its last contents, marked `destroyed`.  A store
to a list and the broadcast that follows it in the same critical section are one
step.  `pthread_cond_wait` may wake up at any time.

After a failed `request_send` the loader goes on to read from a descriptor which
it has closed; what that delivers is `Handler.stale`, any socket at all.  If there
was no connection the descriptor is `-1`, which delivers nothing.
-/

namespace OperatingSystems
namespace Proxy

open Threads

/-! ### Shared memory -/

/-- The mutex of the map, the mutex of an entry's list, the lock of a node. -/
inductive Lock
  | map
  | list (entry : Nat)
  | node (entry index : Nat)
  deriving DecidableEq

/-- `Cache` with its `List`: `nodes` are the values from `first` on, `waiters`
the handlers parked on `cond`. -/
structure Cache where
  url : List Byte
  next : Option Nat
  nodes : List (List Byte)
  complete : Bool
  waiters : Finset Nat
  destroyed : Bool

/-- `map_add` before the entry is linked: `list_init` and the copied URL. -/
def Cache.new (url : List Byte) (next : Option Nat) : Cache :=
  ⟨url, next, [], false, ∅, false⟩

/-- `list->first`. -/
def Cache.first (c : Cache) : Option Nat :=
  if c.nodes = [] then none else some 0

/-- `node->next`. -/
def Cache.nextNode (c : Cache) (node : Nat) : Option Nat :=
  if node + 1 < c.nodes.length then some (node + 1) else none

/-- The successor that `list_wait_for_data` looks for. -/
def Cache.successor (c : Cache) : Option Nat → Option Nat
  | none => c.first
  | some node => c.nextNode node

/-- The shared memory. `fresh` is the next address that `map_add` allocates. -/
structure Memory where
  locks : Lock → RwLock Nat
  first : Option Nat
  cache : Nat → Cache
  fresh : Nat

namespace Memory

/-- The memory of a server that has served nothing. -/
def start : Memory where
  locks := fun _ => .unlocked
  first := none
  cache := fun _ => .new [] none
  fresh := 0

/-- The pointers from entry to entry. -/
def next (memory : Memory) (entry : Nat) : Option Nat :=
  (memory.cache entry).next

/-- Write one entry. -/
def setCache (memory : Memory) (entry : Nat) (c : Cache) : Memory :=
  { memory with cache := Function.update memory.cache entry c }

/-- Take a lock, if it is free for this mode. -/
def acquire (memory : Memory) (i : Nat) (l : Lock) (m : Mode) : Option Memory :=
  ((memory.locks l).acquire i m).map fun l' =>
    { memory with locks := Function.update memory.locks l l' }

/-- Give a lock back. -/
def release (memory : Memory) (i : Nat) (l : Lock) (m : Mode) : Memory :=
  { memory with locks := Function.update memory.locks l ((memory.locks l).release i m) }

/-- `map_add`: allocate an entry and link it in front. -/
def mapAdd (memory : Memory) (url : List Byte) : Memory :=
  { memory with
    first := some memory.fresh
    cache := Function.update memory.cache memory.fresh (.new url memory.first)
    fresh := memory.fresh + 1 }

/-- The critical section of `list_add`. -/
def listAdd (memory : Memory) (entry : Nat) (value : List Byte) : Memory :=
  memory.setCache entry
    { memory.cache entry with nodes := (memory.cache entry).nodes ++ [value], waiters := ∅ }

/-- `complete = 1` and the broadcast. -/
def setComplete (memory : Memory) (entry : Nat) : Memory :=
  memory.setCache entry { memory.cache entry with complete := true, waiters := ∅ }

/-- `map_remove` at a matching entry: unlink it and free it. -/
def unlink (memory : Memory) (prev : Option Nat) (entry : Nat) : Memory :=
  let linked :=
    match prev with
    | none => { memory with first := memory.next entry }
    | some p => memory.setCache p { memory.cache p with next := memory.next entry }
  linked.setCache entry { linked.cache entry with destroyed := true }

end Memory

/-! ### The handlers -/

/-- The two failure branches between `map_add` and the header loop. -/
inductive Failure
  | connect
  | send
  deriving DecidableEq

/-- The two calls of `list_add`. -/
inductive Site
  | headers
  | body
  deriving DecidableEq

/-- The statement a handler executes next. -/
inductive Pc
  -- lookup
  | lockMap
  | find (current : Option Nat)
  | foundUnlock
  -- hit: streaming, with `list_wait_for_data` inlined
  | readFirst
  | waitLock
  | waitCheck
  | waitSleep
  | waitAsleep
  | waitRelock
  | waitReturn (more : Bool)
  | rdlock (node : Nat)
  | send (node : Nat)
  | rdunlock (node : Nat) (ok : Bool)
  | stateLock (node : Nat)
  | stateRead (node : Nat)
  | stateUnlock (next : Option Nat) (isComplete : Bool)
  -- miss: connection, with the two failure branches
  | mapAdd
  | addedUnlock
  | connect
  | requestSend
  | failLockMap (f : Failure)
  | failLock (f : Failure)
  | failSet (f : Failure)
  | failUnlock (f : Failure)
  | failUnlockMap (f : Failure)
  -- miss: header and body loop, with `list_add` inlined
  | headerLoop
  | listLock (site : Site)
  | listAppend (site : Site)
  | listUnlock (site : Site) (node : Nat)
  | wrlock (site : Site) (node : Nat)
  | unlockPrev (site : Site) (prev : Nat)
  | bodyRead
  | bodySend
  | unlockCurrent (node : Nat)
  -- completion, with `map_remove` inlined
  | doneLock
  | doneSet
  | doneUnlock
  | removeLock
  | removeFind (prev current : Option Nat)
  | removeUnlink (prev : Option Nat) (entry : Nat)
  | removeUnlock
  | returned
  deriving DecidableEq

/-- The statement after one of the two `list_add` calls and its node locks. -/
def Site.next : Site → Pc
  | .headers => .bodyRead
  | .body => .bodySend

/-- Both failure branches fall through. -/
def Failure.next : Failure → Pc
  | .connect => .requestSend
  | .send => .headerLoop

/-- One run of `client_handler`.  `loader` holds the request and the variables of
the miss path, `added` the entry that this run created, `chunk` the bytes that are
being added to it, `sent` what the hit path passed to `send`. -/
structure Handler where
  pc : Pc
  loader : Loader
  env : Env
  stale : Socket
  cacheNode : Nat
  added : Option Nat
  current : Option Nat
  prev : Option Nat
  chunk : List Byte
  sent : List (List Byte)

/-- The accesses to shared memory. -/
inductive Op
  | local
  | acquire (l : Lock) (m : Mode)
  | release (l : Lock) (m : Mode)
  | sleep (entry : Nat)
  | wake (entry : Nat)
  | mapAdd (url : List Byte)
  | listAdd (entry : Nat) (value : List Byte)
  | setComplete (entry : Nat)
  | unlink (prev : Option Nat) (entry : Nat)
  deriving DecidableEq

namespace Handler

/-- A run that has read its request header. -/
def start (request : Request) (env : Env) (stale : Socket) : Handler where
  pc := .lockMap
  loader := .start request
  env := env
  stale := stale
  cacheNode := 0
  added := none
  current := none
  prev := none
  chunk := []
  sent := []

/-- `request->search_path`. -/
def searchPath (t : Handler) : List Byte :=
  t.loader.request.searchPath

/-- The access to shared memory that comes next. -/
def op (t : Handler) : Option Op :=
  match t.pc with
  | .find _ | .readFirst | .waitCheck | .send _ | .stateRead _ => some .local
  | .connect | .requestSend | .headerLoop | .bodyRead | .bodySend => some .local
  | .removeFind _ _ => some .local
  | .lockMap | .failLockMap _ | .removeLock => some (.acquire .map .write)
  | .foundUnlock | .addedUnlock | .failUnlockMap _ | .removeUnlock => some (.release .map .write)
  | .waitLock | .waitRelock | .stateLock _ | .failLock _ | .listLock _ | .doneLock =>
      some (.acquire (.list t.cacheNode) .write)
  | .waitReturn _ | .stateUnlock _ _ | .failUnlock _ | .listUnlock _ _ | .doneUnlock =>
      some (.release (.list t.cacheNode) .write)
  | .waitSleep => some (.sleep t.cacheNode)
  | .waitAsleep => some (.wake t.cacheNode)
  | .rdlock node => some (.acquire (.node t.cacheNode node) .read)
  | .rdunlock node _ => some (.release (.node t.cacheNode node) .read)
  | .wrlock _ node => some (.acquire (.node t.cacheNode node) .write)
  | .unlockPrev _ prev => some (.release (.node t.cacheNode prev) .write)
  | .unlockCurrent node => some (.release (.node t.cacheNode node) .write)
  | .mapAdd => some (.mapAdd t.searchPath)
  | .listAppend _ => some (.listAdd t.cacheNode t.chunk)
  | .failSet _ | .doneSet => some (.setComplete t.cacheNode)
  | .removeUnlink prev entry => some (.unlink prev entry)
  | .returned => none

/-- One round of `map_find_by_url`. -/
def findRound (t : Handler) (memory : Memory) : Option Nat → Handler
  | none => { t with pc := .mapAdd }
  | some e =>
      if (memory.cache e).url = t.searchPath then { t with pc := .foundUnlock, cacheNode := e }
      else { t with pc := .find (memory.next e) }

/-- The head of the streaming loop. -/
def streamFrom (t : Handler) (current : Option Nat) : Handler :=
  { t with
    current := current
    pc :=
      match current with
      | none => .waitLock
      | some node => .rdlock node }

/-- One round of the loop in `list_wait_for_data`. -/
def waitRound (t : Handler) (c : Cache) : Handler :=
  match c.successor t.current with
  | some next => { t with current := some next, pc := .waitReturn true }
  | none => { t with pc := if c.complete then .waitReturn false else .waitSleep }

/-- `send(client_socket, current->value, current->size, 0)` on the hit path. -/
def sendNode (t : Handler) (c : Cache) (node : Nat) : Handler :=
  { t with
    sent := t.sent ++ [c.nodes.getD node []]
    pc := .rdunlock node (t.env.reply t.sent.length ≠ -1) }

/-- `http_connect` and the test of its result. -/
def connectRound (t : Handler) : Handler :=
  { t with
    loader := t.loader.httpConnect t.env
    pc :=
      if (t.loader.httpConnect t.env).targetSocket.isNone then .failLockMap .connect
      else .requestSend }

/-- `request_send` and the test of its result. -/
def requestRound (t : Handler) : Handler :=
  if t.loader.requestSent t.env then { t with loader := t.loader.requestSend, pc := .headerLoop }
  else
    { t with
      loader :=
        { t.loader.requestSend.closeTarget with
          conn := if t.loader.targetSocket.isNone then .closed else t.stale }
      pc := .failLockMap .send }

/-- The header loop, up to the `list_add` of the header block. -/
def headerRound (t : Handler) : Handler :=
  { t with
    loader := (t.loader.headerLoop t.env maxRedirects).1
    current := none
    prev := none
    chunk := ((t.loader.headerLoop t.env maxRedirects).2).getD []
    pc :=
      match (t.loader.headerLoop t.env maxRedirects).2 with
      | none => .bodyRead
      | some _ => .listLock .headers }

/-- `read_body` and the statement after it. -/
def bodyRound (t : Handler) : Handler :=
  if t.loader.readBody.1 = [] then
    { t with
      loader := t.loader.readBody.2.closeTarget
      pc :=
        match t.current with
        | none => .doneLock
        | some node => .unlockCurrent node }
  else
    { t with
      loader := t.loader.readBody.2
      chunk := t.loader.readBody.1
      pc := if t.loader.readBody.2.needToCache then .listLock .body else .bodySend }

/-- One round of `map_remove`. -/
def removeRound (t : Handler) (memory : Memory) (prev : Option Nat) : Option Nat → Handler
  | none => { t with pc := .removeUnlock }
  | some e =>
      if (memory.cache e).url = t.searchPath then { t with pc := .removeUnlink prev e }
      else { t with pc := .removeFind (some e) (memory.next e) }

/-- The local state after the next access, which reads `memory`. -/
def resume (memory : Memory) (t : Handler) : Handler :=
  match t.pc with
  | .lockMap => { t with pc := .find memory.first }
  | .find current => t.findRound memory current
  | .foundUnlock => { t with pc := .readFirst }
  | .readFirst => t.streamFrom (memory.cache t.cacheNode).first
  | .waitLock => { t with pc := .waitCheck }
  | .waitCheck => t.waitRound (memory.cache t.cacheNode)
  | .waitSleep => { t with pc := .waitAsleep }
  | .waitAsleep => { t with pc := .waitRelock }
  | .waitRelock => { t with pc := .waitCheck }
  | .waitReturn more => if more then t.streamFrom t.current else { t with pc := .returned }
  | .rdlock node => { t with pc := .send node }
  | .send node => t.sendNode (memory.cache t.cacheNode) node
  | .rdunlock node ok => { t with pc := if ok then .stateLock node else .returned }
  | .stateLock node => { t with pc := .stateRead node }
  | .stateRead node =>
      { t with
        pc := .stateUnlock ((memory.cache t.cacheNode).nextNode node)
          (memory.cache t.cacheNode).complete }
  -- `current = next`: a null pointer sends the loop back to `list_wait_for_data`.
  | .stateUnlock next isComplete =>
      if next = none ∧ isComplete then { t with pc := .returned } else t.streamFrom next
  | .mapAdd =>
      { t with pc := .addedUnlock, cacheNode := memory.fresh, added := some memory.fresh }
  | .addedUnlock => { t with pc := .connect }
  | .connect => t.connectRound
  | .requestSend => t.requestRound
  | .failLockMap f => { t with pc := .failLock f }
  | .failLock f => { t with pc := .failSet f }
  | .failSet f => { t with pc := .failUnlock f, loader := t.loader.emit .complete }
  | .failUnlock f => { t with pc := .failUnlockMap f }
  -- There is no `return` in the failure branches.
  | .failUnlockMap f => { t with pc := f.next }
  | .headerLoop => t.headerRound
  | .listLock site => { t with pc := .listAppend site }
  | .listAppend site =>
      { t with
        pc := .listUnlock site (memory.cache t.cacheNode).nodes.length
        loader := t.loader.emit (.listAdd t.chunk) }
  -- The node is in the list before its lock is taken.
  | .listUnlock site node => { t with pc := .wrlock site node }
  | .wrlock site node =>
      { t with
        prev := t.current
        current := some node
        pc :=
          match t.current with
          | none => site.next
          | some prev => .unlockPrev site prev }
  | .unlockPrev site _ => { t with pc := site.next }
  | .bodyRead => t.bodyRound
  | .bodySend => { t with loader := t.loader.send t.env t.chunk, pc := .bodyRead }
  | .unlockCurrent _ => { t with pc := .doneLock }
  | .doneLock => { t with pc := .doneSet }
  | .doneSet => { t with pc := .doneUnlock, loader := t.loader.emit .complete }
  -- `map_remove(cache, request->search_path)`: the URL may be that of a redirect.
  | .doneUnlock => { t with pc := if t.loader.needToCache then .returned else .removeLock }
  | .removeLock => { t with pc := .removeFind none memory.first }
  | .removeFind prev current => t.removeRound memory prev current
  | .removeUnlink _ _ => { t with pc := .removeUnlock }
  | .removeUnlock => { t with pc := .returned }
  | .returned => t

end Handler

/-- The effect of an access by handler `i`; `none` while it blocks. -/
def Op.exec (i : Nat) (o : Op) (memory : Memory) : Option Memory :=
  match o with
  | .local => some memory
  | .acquire l m => memory.acquire i l m
  | .release l m => some (memory.release i l m)
  -- `pthread_cond_wait` gives the mutex back and queues the caller in one step.
  | .sleep e =>
      some ((memory.release i (.list e) .write).setCache e
        { memory.cache e with waiters := insert i (memory.cache e).waiters })
  | .wake e =>
      some (memory.setCache e
        { memory.cache e with waiters := (memory.cache e).waiters.erase i })
  | .mapAdd url => some (memory.mapAdd url)
  | .listAdd e value => some (memory.listAdd e value)
  | .setComplete e => some (memory.setComplete e)
  | .unlink prev e => some (memory.unlink prev e)

/-- The threads of the server. -/
def server : Program Nat Memory Handler Op where
  op := Handler.op
  exec := Op.exec
  resume := Handler.resume

/-- A server before its first request, with the runs to come. -/
def Starts (s : State Nat Memory Handler) : Prop :=
  s.shared = .start ∧ ∀ i, ∃ request env stale, s.thread i = .start request env stale

/-- The server whose `i`-th run gets this request and this upstream. -/
def serving (request : Nat → Request) (env : Nat → Env) : State Nat Memory Handler :=
  ⟨.start, fun i => .start (request i) (env i) .closed⟩

theorem starts_serving (request : Nat → Request) (env : Nat → Env) :
    Starts (serving request env) :=
  ⟨rfl, fun i => ⟨request i, env i, .closed, rfl⟩⟩

/-! ### Runs of the server -/

section Runs

variable {init : State Nat Memory Handler → Prop} {ok : State Nat Memory Handler → Nat → Prop}
  {s : State Nat Memory Handler}

/-- The invariant rule for the server. -/
theorem serverInduction {I : State Nat Memory Handler → Prop}
    (start : ∀ s, init s → I s)
    (step : ∀ s i o memory, server.ReachableUnder init ok s → I s → ok s i →
      (s.thread i).op = some o → o.exec i s.shared = some memory →
      I (s.advance i memory ((s.thread i).resume s.shared)))
    (hs : server.ReachableUnder init ok s) : I s :=
  hs.induction start step

/-- The invariant rule for the server, handler by handler. -/
theorem serverThreads {L : Nat → Memory → Handler → Prop}
    (start : ∀ i request env stale, L i .start (.start request env stale))
    (own : ∀ s i o memory, server.ReachableUnder Starts ok s → ok s i →
      (∀ j, L j s.shared (s.thread j)) → (s.thread i).op = some o →
      o.exec i s.shared = some memory → L i memory ((s.thread i).resume s.shared))
    (other : ∀ s i j o memory, server.ReachableUnder Starts ok s → ok s i → j ≠ i →
      (∀ k, L k s.shared (s.thread k)) → (s.thread i).op = some o →
      o.exec i s.shared = some memory → L j memory (s.thread j))
    (hs : server.ReachableUnder Starts ok s) (i : Nat) : L i s.shared (s.thread i) := by
  refine hs.forall_threads (L := L) ?_ own other i
  rintro s ⟨hshared, hthread⟩ i
  obtain ⟨request, env, stale, hi⟩ := hthread i
  rw [hshared, hi]
  exact start i request env stale

/-- Reach a state of a concrete server by a schedule, and test it. -/
theorem exists_serving_runIf {test : State Nat Memory Handler → Nat → Bool}
    (htest : ∀ s i, test s i = true → ok s i) {request : Nat → Request} {env : Nat → Env}
    {schedule : List Nat} (goal : State Nat Memory Handler → Prop) [DecidablePred goal]
    (h : (server.runIf test (serving request env) schedule).any (fun s => goal s) = true) :
    ∃ s ∈ server.runIf test (serving request env) schedule,
      server.ReachableUnder Starts ok s ∧ goal s :=
  (Program.ReachableUnder.start (starts_serving request env)).exists_runIf htest goal h

end Runs

/-! ### Control flow -/

/-- The control flow of `client_handler`: which statement may follow which. -/
inductive Pc.Follows : Pc → Pc → Prop
  | lockMap (current : Option Nat) : Follows .lockMap (.find current)
  | findNone : Follows (.find none) .mapAdd
  | findHit (e : Nat) : Follows (.find (some e)) .foundUnlock
  | findNext (e : Nat) (next : Option Nat) : Follows (.find (some e)) (.find next)
  | foundUnlock : Follows .foundUnlock .readFirst
  | readFirstWait : Follows .readFirst .waitLock
  | readFirst (node : Nat) : Follows .readFirst (.rdlock node)
  | waitLock : Follows .waitLock .waitCheck
  | waitCheck (more : Bool) : Follows .waitCheck (.waitReturn more)
  | waitCheckSleep : Follows .waitCheck .waitSleep
  | waitSleep : Follows .waitSleep .waitAsleep
  | waitAsleep : Follows .waitAsleep .waitRelock
  | waitRelock : Follows .waitRelock .waitCheck
  | waitReturnWait : Follows (.waitReturn true) .waitLock
  | waitReturn (node : Nat) : Follows (.waitReturn true) (.rdlock node)
  | waitReturnDone : Follows (.waitReturn false) .returned
  | rdlock (node : Nat) : Follows (.rdlock node) (.send node)
  | send (node : Nat) (ok : Bool) : Follows (.send node) (.rdunlock node ok)
  | rdunlock (node : Nat) : Follows (.rdunlock node true) (.stateLock node)
  | rdunlockError (node : Nat) : Follows (.rdunlock node false) .returned
  | stateLock (node : Nat) : Follows (.stateLock node) (.stateRead node)
  | stateRead (node : Nat) (next : Option Nat) (isComplete : Bool) :
      Follows (.stateRead node) (.stateUnlock next isComplete)
  | stateUnlockDone : Follows (.stateUnlock none true) .returned
  | stateUnlockWait (isComplete : Bool) : Follows (.stateUnlock none isComplete) .waitLock
  | stateUnlock (node : Nat) (isComplete : Bool) :
      Follows (.stateUnlock (some node) isComplete) (.rdlock node)
  | mapAdd : Follows .mapAdd .addedUnlock
  | addedUnlock : Follows .addedUnlock .connect
  | connect : Follows .connect .requestSend
  | connectFailed : Follows .connect (.failLockMap .connect)
  | requestSend : Follows .requestSend .headerLoop
  | requestSendFailed : Follows .requestSend (.failLockMap .send)
  | failLockMap (f : Failure) : Follows (.failLockMap f) (.failLock f)
  | failLock (f : Failure) : Follows (.failLock f) (.failSet f)
  | failSet (f : Failure) : Follows (.failSet f) (.failUnlock f)
  | failUnlock (f : Failure) : Follows (.failUnlock f) (.failUnlockMap f)
  | failUnlockMapConnect : Follows (.failUnlockMap .connect) .requestSend
  | failUnlockMapSend : Follows (.failUnlockMap .send) .headerLoop
  | headerLoop : Follows .headerLoop .bodyRead
  | headerLoopAdd : Follows .headerLoop (.listLock .headers)
  | listLock (site : Site) : Follows (.listLock site) (.listAppend site)
  | listAppend (site : Site) (node : Nat) : Follows (.listAppend site) (.listUnlock site node)
  | listUnlock (site : Site) (node : Nat) : Follows (.listUnlock site node) (.wrlock site node)
  | wrlockHeaders (node : Nat) : Follows (.wrlock .headers node) .bodyRead
  | wrlockBody (node : Nat) : Follows (.wrlock .body node) .bodySend
  | wrlockPrev (site : Site) (node prev : Nat) :
      Follows (.wrlock site node) (.unlockPrev site prev)
  | unlockPrevHeaders (prev : Nat) : Follows (.unlockPrev .headers prev) .bodyRead
  | unlockPrevBody (prev : Nat) : Follows (.unlockPrev .body prev) .bodySend
  | bodyRead : Follows .bodyRead .bodySend
  | bodyReadAdd : Follows .bodyRead (.listLock .body)
  | bodyReadEnd : Follows .bodyRead .doneLock
  | bodyReadUnlock (node : Nat) : Follows .bodyRead (.unlockCurrent node)
  | bodySend : Follows .bodySend .bodyRead
  | unlockCurrent (node : Nat) : Follows (.unlockCurrent node) .doneLock
  | doneLock : Follows .doneLock .doneSet
  | doneSet : Follows .doneSet .doneUnlock
  | doneUnlock : Follows .doneUnlock .returned
  | doneUnlockRemove : Follows .doneUnlock .removeLock
  | removeLock (current : Option Nat) : Follows .removeLock (.removeFind none current)
  | removeFindNone (prev : Option Nat) : Follows (.removeFind prev none) .removeUnlock
  | removeFindHit (prev : Option Nat) (e : Nat) :
      Follows (.removeFind prev (some e)) (.removeUnlink prev e)
  | removeFindNext (prev : Option Nat) (e : Nat) (next : Option Nat) :
      Follows (.removeFind prev (some e)) (.removeFind (some e) next)
  | removeUnlink (prev : Option Nat) (e : Nat) : Follows (.removeUnlink prev e) .removeUnlock
  | removeUnlock : Follows .removeUnlock .returned
  | returned : Follows .returned .returned

/-- Every step follows the control flow. -/
theorem Handler.follows_resume (memory : Memory) (t : Handler) :
    t.pc.Follows (t.resume memory).pc := by
  obtain ⟨pc, loader, env, stale, cacheNode, added, current, prev, chunk, sent⟩ := t
  -- A counter that tests nothing goes on to one place only; those are closed last.
  cases pc <;> simp only [resume]
  case find cursor =>
    cases cursor with
    | none => exact .findNone
    | some e =>
        simp only [findRound]
        split
        · exact .findHit e
        · exact .findNext e _
  case readFirst =>
    simp only [streamFrom]
    cases (memory.cache cacheNode).first with
    | none => exact .readFirstWait
    | some node => exact .readFirst node
  case waitCheck =>
    simp only [waitRound]
    split
    · exact .waitCheck true
    · cases (memory.cache cacheNode).complete with
      | true => exact .waitCheck false
      | false => exact .waitCheckSleep
  case waitReturn more =>
    cases more with
    | false => exact .waitReturnDone
    | true =>
        cases current with
        | none => exact .waitReturnWait
        | some node => exact .waitReturn node
  case rdunlock node ok =>
    cases ok with
    | false => exact .rdunlockError node
    | true => exact .rdunlock node
  case stateUnlock next isComplete =>
    cases next with
    | none =>
        cases isComplete with
        | false => exact .stateUnlockWait false
        | true => exact .stateUnlockDone
    | some node => exact .stateUnlock node isComplete
  case connect =>
    simp only [connectRound]
    split
    · exact .connectFailed
    · exact .connect
  case requestSend =>
    simp only [requestRound]
    split
    · exact .requestSend
    · exact .requestSendFailed
  case headerLoop =>
    simp only [headerRound]
    split
    · exact .headerLoop
    · exact .headerLoopAdd
  case failUnlockMap f => cases f <;> constructor
  case wrlock site node =>
    cases current with
    | none => cases site <;> constructor
    | some prev => exact .wrlockPrev site node prev
  case unlockPrev site prev => cases site <;> constructor
  case bodyRead =>
    simp only [bodyRound]
    split
    · cases current with
      | none => exact .bodyReadEnd
      | some node => exact .bodyReadUnlock node
    · split
      · exact .bodyReadAdd
      · exact .bodyRead
  case doneUnlock =>
    split
    · exact .doneUnlock
    · exact .doneUnlockRemove
  case removeFind prev cursor =>
    cases cursor with
    | none => exact .removeFindNone prev
    | some e =>
        simp only [removeRound]
        split
        · exact .removeFindHit prev e
        · exact .removeFindNext prev e _
  all_goals constructor

/-! ### What an access leaves alone -/

theorem Memory.cache_setCache (memory : Memory) (entry x : Nat) (c : Cache) :
    (memory.setCache entry c).cache x = if x = entry then c else memory.cache x :=
  Function.update_apply ..

/-- Two memories with the same map: the same entries, linked and named alike. -/
structure SameMap (memory memory' : Memory) : Prop where
  first : memory'.first = memory.first
  fresh : memory'.fresh = memory.fresh
  next : ∀ e, memory'.next e = memory.next e
  url : ∀ e, (memory'.cache e).url = (memory.cache e).url
  destroyed : ∀ e, (memory'.cache e).destroyed = (memory.cache e).destroyed

theorem SameMap.setCache (memory : Memory) (entry : Nat) (c : Cache)
    (hnext : c.next = (memory.cache entry).next) (hurl : c.url = (memory.cache entry).url)
    (hdestroyed : c.destroyed = (memory.cache entry).destroyed) :
    SameMap memory (memory.setCache entry c) := by
  have hsame {α : Type} (f : Cache → α) (hf : f c = f (memory.cache entry)) (e : Nat) :
      f ((memory.setCache entry c).cache e) = f (memory.cache e) := by
    by_cases he : e = entry
    · subst he
      simpa [Memory.setCache] using hf
    · simp [Memory.setCache, he]
  exact ⟨rfl, rfl, hsame Cache.next hnext, hsame Cache.url hurl,
    hsame Cache.destroyed hdestroyed⟩

/-- Only `map_add` and `map_remove` change the map. -/
theorem Op.exec_map {i : Nat} {o : Op} {memory memory' : Memory}
    (h : o.exec i memory = some memory') :
    SameMap memory memory' ∨ (∃ url, o = .mapAdd url ∧ memory' = memory.mapAdd url) ∨
      ∃ prev e, o = .unlink prev e ∧ memory' = memory.unlink prev e := by
  have hlocks (locks : Lock → RwLock Nat) : SameMap memory { memory with locks := locks } :=
    ⟨rfl, rfl, fun _ => rfl, fun _ => rfl, fun _ => rfl⟩
  cases o <;> simp only [Op.exec, Option.some.injEq] at h
  case acquire l m =>
    obtain ⟨l', -, rfl⟩ := Option.map_eq_some_iff.mp h
    exact Or.inl (hlocks _)
  case mapAdd url => exact Or.inr (Or.inl ⟨url, rfl, h.symm⟩)
  case unlink prev e => exact Or.inr (Or.inr ⟨prev, e, rfl, h.symm⟩)
  case sleep e =>
    subst h
    have hset : SameMap (memory.release i (.list e) .write) _ :=
      SameMap.setCache (memory.release i (.list e) .write) e
        { memory.cache e with waiters := insert i (memory.cache e).waiters } rfl rfl rfl
    exact Or.inl ⟨hset.first, hset.fresh, hset.next, hset.url, hset.destroyed⟩
  all_goals
    subst h
    first
      | exact Or.inl (SameMap.setCache _ _ _ rfl rfl rfl)
      | exact Or.inl (hlocks _)

/-- `map_add` does change the map. -/
theorem SameMap.ne_mapAdd {i : Nat} {o : Op} {memory memory' : Memory}
    (hsame : SameMap memory memory') (h : o.exec i memory = some memory') (url : List Byte) :
    o ≠ .mapAdd url := by
  rintro rfl
  obtain rfl := Option.some.inj h
  exact absurd hsame.fresh (Nat.succ_ne_self _)

namespace Memory

/-- The map after `map_add`. -/
theorem next_mapAdd (memory : Memory) (url : List Byte) :
    (memory.mapAdd url).next = Function.update memory.next memory.fresh memory.first := by
  funext x
  by_cases hx : x = memory.fresh
  · subst hx
    simp [next, mapAdd, Cache.new]
  · simp [next, mapAdd, hx]

theorem cache_mapAdd_of_ne (memory : Memory) (url : List Byte) {x : Nat}
    (hx : x ≠ memory.fresh) : (memory.mapAdd url).cache x = memory.cache x := by
  simp [mapAdd, hx]

theorem cache_mapAdd_fresh (memory : Memory) (url : List Byte) :
    (memory.mapAdd url).cache memory.fresh = .new url memory.first := by
  simp [mapAdd]

/-- The map after `map_remove`. -/
theorem next_unlink_none (memory : Memory) (entry : Nat) :
    (memory.unlink none entry).next = memory.next := by
  funext x
  by_cases hx : x = entry
  · subst hx
    simp [next, unlink, setCache]
  · simp [next, unlink, setCache, hx]

theorem next_unlink_some (memory : Memory) (p entry : Nat) :
    (memory.unlink (some p) entry).next =
      Function.update memory.next p (memory.next entry) := by
  funext x
  by_cases hx : x = entry <;> by_cases hp : x = p <;>
    simp_all [next, unlink, setCache, Function.update_apply]

theorem cache_unlink (memory : Memory) (prev : Option Nat) (entry x : Nat) :
    ((memory.unlink prev entry).cache x).url = (memory.cache x).url ∧
      ((memory.unlink prev entry).cache x).nodes = (memory.cache x).nodes ∧
      ((memory.unlink prev entry).cache x).complete = (memory.cache x).complete ∧
      ((memory.unlink prev entry).cache x).waiters = (memory.cache x).waiters ∧
      (((memory.unlink prev entry).cache x).destroyed = true ↔
        (memory.cache x).destroyed = true ∨ x = entry) := by
  cases prev with
  | none =>
      by_cases hx : x = entry
      · subst hx
        simp [unlink, setCache]
      · simp [unlink, setCache, hx]
  | some p =>
      by_cases hx : x = entry <;> by_cases hp : x = p <;>
        simp_all [unlink, setCache, Function.update_apply]

end Memory

/-- The URL of an entry stays as it is. -/
theorem Op.url_eq {i : Nat} {o : Op} {memory memory' : Memory} {e : Nat}
    (hexec : o.exec i memory = some memory') (he : e < memory.fresh) :
    (memory'.cache e).url = (memory.cache e).url := by
  rcases Op.exec_map hexec with hsame | ⟨url, -, rfl⟩ | ⟨prev, entry, -, rfl⟩
  · exact hsame.url e
  · rw [memory.cache_mapAdd_of_ne url (Nat.ne_of_lt he)]
  · exact (memory.cache_unlink prev entry e).1

/-- What an access by handler `i` does to the list of one allocated entry. -/
inductive ListStep (i entry : Nat) (c c' : Cache) : Op → Prop
  | same (o : Op) : c'.nodes = c.nodes → c'.complete = c.complete → c'.waiters = c.waiters →
      ListStep i entry c c' o
  | sleep : c'.nodes = c.nodes → c'.complete = c.complete → c'.waiters = insert i c.waiters →
      ListStep i entry c c' (.sleep entry)
  | wake : c'.nodes = c.nodes → c'.complete = c.complete → c'.waiters = c.waiters.erase i →
      ListStep i entry c c' (.wake entry)
  | listAdd (value : List Byte) : c'.nodes = c.nodes ++ [value] → c'.complete = c.complete →
      c'.waiters = ∅ → ListStep i entry c c' (.listAdd entry value)
  | setComplete : c'.nodes = c.nodes → c'.complete = true → c'.waiters = ∅ →
      ListStep i entry c c' (.setComplete entry)

theorem Op.exec_list {i : Nat} {o : Op} {memory memory' : Memory} {entry : Nat}
    (h : o.exec i memory = some memory') (hentry : entry < memory.fresh) :
    ListStep i entry (memory.cache entry) (memory'.cache entry) o := by
  cases o <;> simp only [Op.exec, Option.some.injEq] at h
  case acquire l m =>
    obtain ⟨l', -, rfl⟩ := Option.map_eq_some_iff.mp h
    exact .same _ rfl rfl rfl
  case «local» => exact h ▸ .same _ rfl rfl rfl
  case release l m => exact h ▸ .same _ rfl rfl rfl
  case mapAdd url =>
    subst h
    rw [Memory.cache_mapAdd_of_ne memory url (Nat.ne_of_lt hentry)]
    exact .same _ rfl rfl rfl
  case unlink prev e =>
    subst h
    obtain ⟨-, hnodes, hcomplete, hwaiters, -⟩ := memory.cache_unlink prev e entry
    exact .same _ hnodes hcomplete hwaiters
  -- The accesses to one list: the list of `entry` or another one.
  case sleep e =>
    subst h
    rw [Memory.cache_setCache]
    split
    · next he => exact he ▸ .sleep rfl rfl rfl
    · exact .same _ rfl rfl rfl
  case wake e =>
    subst h
    rw [Memory.cache_setCache]
    split
    · next he => exact he ▸ .wake rfl rfl rfl
    · exact .same _ rfl rfl rfl
  case listAdd e value =>
    subst h
    rw [Memory.listAdd, Memory.cache_setCache]
    split
    · next he => exact he ▸ .listAdd value rfl rfl rfl
    · exact .same _ rfl rfl rfl
  case setComplete e =>
    subst h
    rw [Memory.setComplete, Memory.cache_setCache]
    split
    · next he => exact he ▸ .setComplete rfl rfl rfl
    · exact .same _ rfl rfl rfl

end Proxy
end OperatingSystems
