import Mathlib.Logic.Relation
import OperatingSystems.Proxy.CacheMap
import OperatingSystems.Proxy.NoStuck
import OperatingSystems.Proxy.Redirects

/-!
# The concurrent server and the quiet one

What the sequential model of the miss path and of the map says is what the
threads do.

* `Handler.rest` — the result of a run, computed by the sequential pieces from any
  of its states; `Handler.rest_resume` — no step of the run changes it.
* `loader_refines_fetch` — a handler that has finished loading is in the state that
  `Loader.fetch` computes, and its entry holds what `fetch` adds.
* `map_refines_step`, `map_refines` — a step of a handler is a step of the map as a
  list of entries, and a run of the server is a run of that map; `lookup_refines` — a
  lookup finds what `mapFindByUrl` finds.
-/

namespace OperatingSystems
namespace Proxy

open Threads

/-! ### The miss path from its middle -/

namespace Loader

variable (env : Env) (l : Loader)

/-- The body loop and the completion. -/
def finishBody : Loader :=
  ((l.bodyLoop env (l.conn.bytes.length + 1)).closeTarget).emit .complete

/-- The same from the header loop on. -/
def finishHeaders : Loader :=
  (addHeaders (l.headerLoop env maxRedirects)).finishBody env

/-- The same from `request_send` on. -/
def finishRequest : Loader :=
  if l.requestSent env then l.requestSend.finishHeaders env
  else (l.requestSend.closeTarget.emit .complete).finishHeaders env

/-- The same from `http_connect` on. -/
def finishConnect : Loader :=
  if (l.httpConnect env).targetSocket.isNone then
    ((l.httpConnect env).emit .complete).finishRequest env
  else (l.httpConnect env).finishRequest env

variable {env l}

/-- The whole miss path. -/
theorem fetch_eq_finishConnect (request : Request) :
    fetch env request = (start request).finishConnect env := by
  unfold fetch finishConnect finishRequest connectPhase
  simp only
  split <;> split <;> rfl

/-- A round of the body loop that goes on has consumed at least one byte. -/
theorem length_round_lt (env : Env) (hbody : l.readBody.1 ≠ []) :
    ((l.readBody.2.cacheBlock l.readBody.1).send env l.readBody.1).conn.bytes.length <
      l.conn.bytes.length := by
  simp only [readBody_fst, ne_eq, List.take_eq_nil_iff, not_or] at hbody
  have hpos := List.length_pos_iff.mpr hbody.2
  simp only [send_conn, cacheBlock_conn, readBody_conn_bytes, List.length_drop]
  omega

/-- More rounds than there are bytes make no difference. -/
theorem bodyLoop_of_length_lt {fuel : Nat} (h : l.conn.bytes.length < fuel) :
    l.bodyLoop env fuel = l.bodyLoop env (l.conn.bytes.length + 1) := by
  induction fuel using Nat.strong_induction_on generalizing l with
  | _ fuel ih =>
      obtain ⟨fuel, rfl⟩ : ∃ n, fuel = n + 1 := ⟨fuel - 1, by omega⟩
      rw [bodyLoop_succ, bodyLoop_succ]
      by_cases hbody : l.readBody.1 = []
      · rw [if_pos hbody, if_pos hbody]
      · have hshort := length_round_lt env hbody
        rw [if_neg hbody, if_neg hbody, ih fuel (by omega) (by omega),
          ih l.conn.bytes.length (by omega) hshort]

/-- One round of the body loop. -/
theorem finishBody_eq (env : Env) (l : Loader) :
    l.finishBody env =
      if l.readBody.1 = [] then l.readBody.2.closeTarget.emit .complete
      else ((l.readBody.2.cacheBlock l.readBody.1).send env l.readBody.1).finishBody env := by
  unfold finishBody
  rw [bodyLoop_succ]
  by_cases hbody : l.readBody.1 = []
  · rw [if_pos hbody, if_pos hbody]
  · rw [if_neg hbody, if_neg hbody, bodyLoop_of_length_lt (length_round_lt env hbody)]

theorem listAdds_closeTarget (l : Loader) : listAdds l.closeTarget.log = listAdds l.log := by
  rw [closeTarget, listAdds_append]
  exact List.append_nil _

/-- The header loop adds nothing to the entry. -/
theorem listAdds_headerLoop (env : Env) (n : Nat) (l : Loader) :
    listAdds (l.headerLoop env n).1.log = listAdds l.log := by
  refine headerLoop_induction env
    (motive := fun _ l r => listAdds r.1.log = listAdds l.log) ?_ ?_ ?_ ?_ ?_ ?_ n l
  · exact fun _ => rfl
  · exact fun _ l _ => readStatusLine_quiet.2.2
  · exact fun _ l _ _ => listAdds_send.trans listAdds_readResponse
  · exact fun _ l _ _ => listAdds_readResponse
  · exact fun _ l location _ _ hnone => (follow_of_targetSocket_eq_none hnone).2.2.2.2
  · intro n l location r _ _ hsome ih
    rw [ih]
    obtain ⟨log, hsend, -, -, hadds⟩ := (l.readResponse.follow env location).requestSend_fields
    rw [nextHop, hsend]
    apply hadds.trans
    rw [Ne, follow_targetSocket_eq_none_iff, Bool.not_eq_false] at hsome
    simp [follow_of_reached hsome, listAdds, readResponse_log]

end Loader

/-! ### The rest of a run -/

/-- What the loader variables of a handler will be when it has finished loading. -/
def Handler.rest (t : Handler) : Loader :=
  match t.pc with
  | .addedUnlock | .connect => t.loader.finishConnect t.env
  | .failLockMap .connect | .failLock .connect | .failSet .connect =>
      (t.loader.emit .complete).finishRequest t.env
  | .failUnlock .connect | .failUnlockMap .connect | .requestSend =>
      t.loader.finishRequest t.env
  | .failLockMap .send | .failLock .send | .failSet .send =>
      (t.loader.emit .complete).finishHeaders t.env
  | .failUnlock .send | .failUnlockMap .send | .headerLoop => t.loader.finishHeaders t.env
  | .listLock .headers | .listAppend .headers =>
      (t.loader.emit (.listAdd t.chunk)).finishBody t.env
  | .listUnlock .headers _ | .wrlock .headers _ | .unlockPrev .headers _ | .bodyRead =>
      t.loader.finishBody t.env
  | .listLock .body | .listAppend .body =>
      ((t.loader.emit (.listAdd t.chunk)).send t.env t.chunk).finishBody t.env
  | .listUnlock .body _ | .wrlock .body _ | .unlockPrev .body _ | .bodySend =>
      (t.loader.send t.env t.chunk).finishBody t.env
  | .unlockCurrent _ | .doneLock | .doneSet => t.loader.emit .complete
  | _ => t.loader

/-- No step of the loading code changes what it will come to. -/
theorem Handler.rest_resume {memory : Memory} {t : Handler} (hstale : t.stale = .closed)
    (hload : t.pc.role = .load) : (t.resume memory).rest = t.rest := by
  obtain ⟨pc, loader, env, stale, cacheNode, added, current, prev, chunk, sent⟩ := t
  cases pc <;> simp only [Pc.role, reduceCtorEq] at hload
  case connect =>
    by_cases hfail : (loader.httpConnect env).targetSocket.isNone = true <;>
      simp only [resume, connectRound, rest, Loader.finishConnect, hfail, if_true, if_false,
        Bool.false_eq_true]
  case requestSend =>
    by_cases hsent : loader.requestSent env = true
    · simp only [resume, requestRound, rest, Loader.finishRequest, hsent, if_true]
    · -- A closed descriptor that nobody has reused delivers nothing.
      obtain rfl : stale = .closed := hstale
      simp only [resume, requestRound, rest, Loader.finishRequest, hsent, if_false,
        Bool.false_eq_true, ite_self]
      rfl
  case failUnlockMap f => cases f <;> rfl
  case headerLoop =>
    cases hblock : (loader.headerLoop env maxRedirects).2 with
    | none =>
        simp only [resume, headerRound, rest, Loader.finishHeaders, hblock]
        rw [← Prod.eta (loader.headerLoop env maxRedirects), hblock]
        rfl
    | some headers =>
        simp only [resume, headerRound, rest, Loader.finishHeaders, hblock]
        rw [← Prod.eta (loader.headerLoop env maxRedirects), hblock]
        rfl
  case bodyRead =>
    show (bodyRound _).rest = loader.finishBody env
    rw [Loader.finishBody_eq]
    by_cases hbody : loader.readBody.1 = []
    · simp only [bodyRound, hbody, if_true]
      cases current <;> rfl
    · cases hneed : loader.readBody.2.needToCache <;>
        simp only [bodyRound, hbody, hneed, if_false, if_true, Loader.cacheBlock,
          Bool.false_eq_true] <;> rfl
  case failSet f => cases f <;> rfl
  case failLockMap f => cases f <;> rfl
  case failLock f => cases f <;> rfl
  case failUnlock f => cases f <;> rfl
  case listLock site => cases site <;> rfl
  case listAppend site => cases site <;> rfl
  case listUnlock site node => cases site <;> rfl
  case wrlock site node => cases site <;> cases current <;> rfl
  case unlockPrev site prev => cases site <;> rfl
  case doneSet => simp [resume, rest]
  all_goals rfl

/-- The log records an addition to the list exactly when there is one. -/
theorem Handler.listAdds_resume {memory : Memory} {t : Handler}
    (h : ∀ site, t.pc ≠ .listAppend site) :
    listAdds (t.resume memory).loader.log = listAdds t.loader.log := by
  by_cases hload : t.pc.role = .load
  · cases hpc : t.pc <;> simp only [hpc, Pc.role, reduceCtorEq] at hload <;>
      simp only [resume, hpc]
    case connect =>
      simp only [connectRound, Loader.httpConnect]
      split <;> simp [listAdds]
    case requestSend =>
      obtain ⟨log, hsend, -, -, hadds⟩ := t.loader.requestSend_fields
      simp only [requestRound]
      split
      · simp [hsend, hadds]
      · show listAdds t.loader.requestSend.closeTarget.log = _
        rw [Loader.listAdds_closeTarget, hsend, hadds]
    case failSet f => simp [Loader.emit, listAdds]
    case headerLoop => exact Loader.listAdds_headerLoop _ _ _
    case listAppend site => exact absurd hpc (h site)
    case bodyRead =>
      simp only [bodyRound]
      split
      · exact (Loader.listAdds_closeTarget _).trans Loader.listAdds_readBody
      · exact Loader.listAdds_readBody
    case bodySend => exact Loader.listAdds_send
    case doneSet => simp [Loader.emit, listAdds]
  · rw [(t.frame memory).loader hload]

/-! ### The loaders of a server -/

/-- The entry as the sequential model has it. -/
def Cache.view (c : Cache) : CacheEntry :=
  ⟨c.url, c.nodes, c.complete⟩

/-- A handler on its way through `fetch` for its request, and its entry. -/
structure Fetches (request : Request) (env : Env) (memory : Memory) (t : Handler) : Prop where
  world : t.env = env
  closed : t.stale = .closed
  lookup : t.pc.role = .lookup → t.loader = .start request
  rest : ∀ e, t.added = some e → t.rest = Loader.fetch env request
  url : ∀ e, t.added = some e → (memory.cache e).url = request.searchPath
  nodes : ∀ e, t.added = some e → (memory.cache e).nodes = listAdds t.loader.log

/-- After the loading code, nothing is left to do for the loader. -/
theorem Handler.rest_of_not_load {t : Handler} (h : t.pc.role ≠ .load) : t.rest = t.loader := by
  unfold rest
  revert h
  cases t.pc <;> simp [Pc.role]

theorem Handler.rest_resume_of_added {memory : Memory} {t : Handler} (hstale : t.stale = .closed)
    (hlookup : t.pc.role ≠ .lookup) : (t.resume memory).rest = t.rest := by
  by_cases hload : t.pc.role = .load
  · exact rest_resume hstale hload
  · have hnext : (t.resume memory).pc.role ≠ .load := fun h =>
      (role_resume.2 h).elim hload fun hpc => hlookup (by rw [hpc]; rfl)
    rw [rest_of_not_load hload, rest_of_not_load hnext, (t.frame memory).loader hload]

section Step

variable {request : Request} {env : Env}

/-- The insertion makes the entry, and the loader has not started. -/
theorem Fetches.insert {memory : Memory} {t : Handler} (h : Fetches request env memory t)
    (hpc : t.pc = .mapAdd) : Fetches request env (memory.mapAdd t.searchPath) (t.resume memory) := by
  have hloader := h.lookup (by rw [hpc]; rfl)
  have hadded {e : Nat} (he : (t.resume memory).added = some e) : e = memory.fresh := by
    rw [Handler.added_resume, if_pos hpc] at he
    exact (Option.some.inj he).symm
  refine ⟨?_, ?_, fun hrole => ?_, fun e he => ?_, fun e he => ?_, fun e he => ?_⟩
  · rw [(t.frame memory).env, h.world]
  · rw [(t.frame memory).stale, h.closed]
  · rw [Handler.resume, hpc] at hrole
    simp [Pc.role] at hrole
  · rw [Handler.resume, hpc]
    show t.loader.finishConnect t.env = _
    rw [hloader, h.world, Loader.fetch_eq_finishConnect]
  · rw [hadded he, Memory.cache_mapAdd_fresh]
    show t.loader.request.searchPath = _
    rw [hloader]
    rfl
  · rw [hadded he, Memory.cache_mapAdd_fresh, Handler.resume, hpc]
    show [] = listAdds t.loader.log
    rw [hloader]
    rfl

/-- Every other step of the handler. -/
theorem Fetches.resume {s : State Nat Memory Handler} (hs : server.Reachable Starts s) {i : Nat}
    {o : Op} {memory : Memory} (h : Fetches request env s.shared (s.thread i))
    (hpc : (s.thread i).pc ≠ .mapAdd) (hop : (s.thread i).op = some o)
    (hexec : o.exec i s.shared = some memory) :
    Fetches request env memory ((s.thread i).resume s.shared) := by
  have hadded {e : Nat} (he : ((s.thread i).resume s.shared).added = some e) :
      (s.thread i).added = some e := by
    rwa [Handler.added_resume, if_neg hpc] at he
  refine ⟨?_, ?_, fun hrole => ?_, fun e he => ?_, fun e he => ?_, fun e he => ?_⟩
  · rw [((s.thread i).frame s.shared).env, h.world]
  · rw [((s.thread i).frame s.shared).stale, h.closed]
  · have hbefore := Handler.role_resume.1 hrole
    rw [((s.thread i).frame s.shared).loader (by simp [hbefore])]
    exact h.lookup hbefore
  · rw [Handler.rest_resume_of_added h.closed (role_ne_lookup_of_added hs (hadded he))]
    exact h.rest e (hadded he)
  · rw [Op.url_eq hexec (added_spec hs (hadded he)).2]
    exact h.url e (hadded he)
  · obtain ⟨hnode, hlt⟩ := added_spec hs (hadded he)
    by_cases happend : ∃ site, (s.thread i).pc = .listAppend site
    · obtain ⟨site, hsite⟩ := happend
      rw [Handler.op, hsite] at hop
      obtain rfl := Option.some.inj hop
      obtain rfl := Option.some.inj hexec
      rw [Handler.resume, hsite, hnode]
      simp [Memory.listAdd, Memory.cache_setCache, Loader.emit, h.nodes e (hadded he), listAdds]
    · rw [Handler.listAdds_resume fun site hsite => happend ⟨site, hsite⟩,
        ← h.nodes e (hadded he)]
      exact Op.nodes_eq hexec hlt fun value ho => happend (Handler.op_listAdd (ho ▸ hop)).1

end Step

section Server

variable {request : Nat → Request} {env : Nat → Env} {s : State Nat Memory Handler}

theorem reachable_of_serving (hs : server.Reachable (· = serving request env) s) :
    server.Reachable Starts s :=
  hs.mono (fun _ h => h ▸ starts_serving request env) fun _ _ h => h

/-- In every run, every handler is on its way through `fetch` for its request. -/
theorem fetches (hs : server.Reachable (· = serving request env) s) (i : Nat) :
    Fetches (request i) (env i) s.shared (s.thread i) := by
  refine hs.forall_threads (L := fun i => Fetches (request i) (env i)) ?_ ?_ ?_ i
  · rintro s rfl i
    constructor <;> simp [serving, Handler.start, Handler.rest]
  · intro s i o memory hreach _ hall hop hexec
    by_cases hpc : (s.thread i).pc = .mapAdd
    · have hnew : (s.thread i).op = some (.mapAdd (s.thread i).searchPath) := by
        rw [Handler.op, hpc]
      obtain rfl := Option.some.inj (hnew.symm.trans hop)
      obtain rfl := Option.some.inj hexec
      exact (hall i).insert hpc
    · exact (hall i).resume (reachable_of_serving hreach) hpc hop hexec
  · intro s i j o memory hreach _ hji hall hop hexec
    have hr := reachable_of_serving hreach
    refine ⟨(hall j).world, (hall j).closed, (hall j).lookup, (hall j).rest, fun e he => ?_,
      fun e he => ?_⟩
    · rw [Op.url_eq hexec (added_spec hr he).2]
      exact (hall j).url e he
    · rw [nodes_of_added hr hji he hop hexec]
      exact (hall j).nodes e he

/-- A handler that has finished loading has done what `fetch` does for its request,
and its entry is the one that `fetch` fills. -/
theorem loader_refines_fetch (hs : server.Reachable (· = serving request env) s) {i e : Nat}
    (hadded : (s.thread i).added = some e) (hfinished : (s.thread i).pc.role ≠ .load) :
    (s.thread i).loader = Loader.fetch (env i) (request i) ∧
      (s.shared.cache e).view =
        ⟨(request i).searchPath, listAdds (Loader.fetch (env i) (request i)).log, true⟩ := by
  have hfetches := fetches hs i
  have hloader : (s.thread i).loader = Loader.fetch (env i) (request i) := by
    rw [← Handler.rest_of_not_load hfinished]
    exact hfetches.rest e hadded
  refine ⟨hloader, ?_⟩
  have hcomplete := complete_of_not_loading (reachable_of_serving hs) hadded hfinished
  rw [Cache.view, hfetches.url e hadded, hfetches.nodes e hadded, hloader, hcomplete]

end Server

/-! ### The map as a list of entries -/

/-- Change the entry of a URL. -/
def mapUpdate (map : CacheMap) (url : List Byte) (f : CacheEntry → CacheEntry) : CacheMap :=
  map.map fun entry => if entry.url = url then f entry else entry

/-- What may happen to the map. -/
inductive MapStep (map : CacheMap) : CacheMap → Prop
  | same : MapStep map map
  | add (url : List Byte) : mapFindByUrl map url = none → MapStep map (mapAdd map url)
  | listAdd (url value : List Byte) :
      MapStep map (mapUpdate map url fun entry => { entry with nodes := entry.nodes ++ [value] })
  | complete (url : List Byte) :
      MapStep map (mapUpdate map url fun entry => { entry with complete := true })
  | remove (url : List Byte) : (∃ entry ∈ map, entry.url = url) → MapStep map (mapRemove map url)

/-- The entries `l` of the map. -/
def Memory.view (memory : Memory) (l : List Nat) : CacheMap :=
  l.map fun e => (memory.cache e).view

section View

variable {memory memory' : Memory} {l l' : List Nat} {t : Handler}

theorem Memory.mapFindByUrl_view_eq_none_iff (url : List Byte) :
    mapFindByUrl (memory.view l) url = none ↔ ∀ e ∈ l, (memory.cache e).url ≠ url := by
  simp [mapFindByUrl_eq_none_iff, Memory.view, Cache.view]

/-- No other entry has the URL of an entry of the map. -/
theorem Linked.url_ne {l₁ l₂ : List Nat} {e x : Nat} (h : Linked memory (l₁ ++ e :: l₂))
    (hx : x ∈ l₁ ++ l₂) : (memory.cache x).url ≠ (memory.cache e).url := by
  have hnodup := List.nodup_cons.mp (List.nodup_middle.mp h.chain.nodup)
  intro hurl
  apply hnodup.1
  rw [← List.inj_on_of_nodup_map h.urls ?_ (by simp) hurl]
  · exact hx
  · rcases List.mem_append.mp hx with hx | hx <;> simp [hx]

/-- `map_find_by_url` finds the only entry with its URL. -/
theorem Linked.mapFindByUrl_view (h : Linked memory l) {e : Nat} (he : e ∈ l) :
    mapFindByUrl (memory.view l) (memory.cache e).url = some (memory.cache e).view := by
  obtain ⟨l₁, l₂, rfl⟩ := List.append_of_mem he
  have hfind : (l₁ ++ e :: l₂).find? (fun x => (memory.cache x).url == (memory.cache e).url) =
      some e := by
    refine List.find?_eq_some_iff_append.mpr ⟨by simp, l₁, l₂, rfl, fun x hx => ?_⟩
    simpa using h.url_ne (List.mem_append_left l₂ hx)
  rw [mapFindByUrl, Memory.view, List.find?_map]
  exact congrArg (Option.map fun x => (memory.cache x).view) hfind

/-- One entry is changed, all others stay as they are. -/
theorem Linked.view_update (h : Linked memory l) {e : Nat} (he : e ∈ l)
    {f : CacheEntry → CacheEntry} (hself : (memory'.cache e).view = f (memory.cache e).view)
    (hother : ∀ x ∈ l, x ≠ e → (memory'.cache x).view = (memory.cache x).view) :
    memory'.view l = mapUpdate (memory.view l) (memory.cache e).url f := by
  rw [Memory.view, mapUpdate, Memory.view, List.map_map]
  refine List.map_congr_left fun x hx => ?_
  show _ = if (memory.cache x).url = (memory.cache e).url then _ else _
  by_cases hxe : x = e
  · subst hxe
    rw [if_pos rfl, hself]
  · rw [if_neg fun hurl => hxe (List.inj_on_of_nodup_map h.urls hx he hurl), hother x hx hxe]

theorem Memory.view_mapAdd (hfresh : ∀ e ∈ l, e < memory.fresh) (url : List Byte) :
    (memory.mapAdd url).view (memory.fresh :: l) = Proxy.mapAdd (memory.view l) url := by
  show ((memory.mapAdd url).cache memory.fresh).view :: (memory.mapAdd url).view l = _
  rw [memory.cache_mapAdd_fresh]
  refine congrArg (List.cons _) (List.map_congr_left fun e he => ?_)
  rw [memory.cache_mapAdd_of_ne url (Nat.ne_of_lt (hfresh e he))]

/-- `map_remove` removes the only entry with its URL. -/
theorem Linked.view_unlink {l₁ l₂ : List Nat} {entry : Nat} (prev : Option Nat)
    (h : Linked memory (l₁ ++ entry :: l₂)) :
    (memory.unlink prev entry).view (l₁ ++ l₂) =
      mapRemove (memory.view (l₁ ++ entry :: l₂)) (memory.cache entry).url := by
  have hsame (e : Nat) : ((memory.unlink prev entry).cache e).view = (memory.cache e).view := by
    obtain ⟨hurl, hnodes, hcomplete, -, -⟩ := memory.cache_unlink prev entry e
    rw [Cache.view, Cache.view, hurl, hnodes, hcomplete]
  have hnone : ∀ x ∈ memory.view l₁, ¬ (x.url == (memory.cache entry).url) = true := by
    intro x hx
    obtain ⟨e, he, rfl⟩ := List.mem_map.mp hx
    simpa [Cache.view] using h.url_ne (List.mem_append_left l₂ he)
  calc (memory.unlink prev entry).view (l₁ ++ l₂)
      = memory.view l₁ ++ memory.view l₂ := by simp [Memory.view, hsame]
    _ = memory.view l₁ ++ ((memory.cache entry).view :: memory.view l₂).eraseP
          fun x => x.url == (memory.cache entry).url := by simp [Cache.view]
    _ = mapRemove (memory.view (l₁ ++ entry :: l₂)) (memory.cache entry).url := by
        rw [mapRemove, ← List.eraseP_append_right _ hnone]
        simp [Memory.view]

/-- An access that neither adds to the list of an entry nor completes it leaves the
entry as it is. -/
theorem Op.view_eq {i : Nat} {o : Op} {e : Nat} (hexec : o.exec i memory = some memory')
    (he : e < memory.fresh) (hadd : ∀ value, o ≠ .listAdd e value) (hset : o ≠ .setComplete e) :
    (memory'.cache e).view = (memory.cache e).view := by
  have hcomplete : (memory'.cache e).complete = (memory.cache e).complete := by
    cases Op.exec_list hexec he with
    | same _ _ hcomplete _ => exact hcomplete
    | sleep _ hcomplete _ => exact hcomplete
    | wake _ hcomplete _ => exact hcomplete
    | listAdd value _ _ _ => exact absurd rfl (hadd value)
    | setComplete _ _ _ => exact absurd rfl hset
  rw [Cache.view, Cache.view, Op.url_eq hexec he, Op.nodes_eq hexec he hadd, hcomplete]

/-- An access that does not change the map changes at most one entry. -/
theorem Linked.mapStep_of_sameMap (h : Linked memory l) {i : Nat} {o : Op}
    (hexec : o.exec i memory = some memory') : MapStep (memory.view l) (memory'.view l) := by
  have hkeep (hlist : ∀ e ∈ l, (∀ value, o ≠ .listAdd e value) ∧ o ≠ .setComplete e) :
      MapStep (memory.view l) (memory'.view l) := by
    have hview : memory'.view l = memory.view l := List.map_congr_left fun e he =>
      Op.view_eq hexec (h.allocated e he) (hlist e he).1 (hlist e he).2
    rw [hview]
    exact .same
  -- The two accesses that change an entry, which may have left the map already.
  by_cases hadd : ∃ e ∈ l, ∃ value, o = .listAdd e value
  · obtain ⟨e, he, value, rfl⟩ := hadd
    have hself : (memory'.cache e).view =
        { (memory.cache e).view with nodes := (memory.cache e).view.nodes ++ [value] } := by
      obtain rfl := Option.some.inj hexec
      simp [Memory.listAdd, Memory.cache_setCache, Cache.view]
    rw [h.view_update (f := fun entry => { entry with nodes := entry.nodes ++ [value] }) he hself
      fun x hx hxe => Op.view_eq hexec (h.allocated x hx) (by simp [hxe.symm]) (by simp)]
    exact .listAdd _ _
  · by_cases hset : ∃ e ∈ l, o = .setComplete e
    · obtain ⟨e, he, rfl⟩ := hset
      have hself : (memory'.cache e).view = { (memory.cache e).view with complete := true } := by
        obtain rfl := Option.some.inj hexec
        simp [Memory.setComplete, Memory.cache_setCache, Cache.view]
      rw [h.view_update (f := fun entry => { entry with complete := true }) he hself
        fun x hx hxe => Op.view_eq hexec (h.allocated x hx) (by simp) (by simp [hxe.symm])]
      exact .complete _
    · exact hkeep fun e he => ⟨fun value ho => hadd ⟨e, he, value, ho⟩, fun ho => hset ⟨e, he, ho⟩⟩

end View

section Run

variable {ok : State Nat Memory Handler → Nat → Prop} {s : State Nat Memory Handler}

/-- A step of a handler is a step of the map. -/
theorem map_refines_step (hs : server.ReachableUnder Starts ok s) {l : List Nat}
    (hlinked : Linked s.shared l) {s' : State Nat Memory Handler} {i : Nat}
    (hstep : server.step s i = some s') :
    ∃ l', Linked s'.shared l' ∧ MapStep (s.shared.view l) (s'.shared.view l') := by
  obtain ⟨o, memory, hop, hexec, rfl⟩ := server.step_eq_some_iff.mp hstep
  obtain ⟨l₀, hlinked₀, hwalks⟩ := linked hs
  obtain rfl := hlinked.chain.unique hlinked₀.chain
  obtain ⟨l', haccess⟩ := (hwalks i).access hop hexec
  refine ⟨l', haccess.linked hlinked, ?_⟩
  rw [State.advance_shared]
  cases haccess with
  | same _ _ => exact hlinked.mapStep_of_sameMap hexec
  | add hpc hmemory hurl =>
      rw [hmemory, Memory.view_mapAdd hlinked.allocated]
      exact .add _ ((Memory.mapFindByUrl_view_eq_none_iff _).mpr hurl)
  | remove l₁ l₂ entry hpc hmemory hl hurl =>
      subst hl
      rw [hmemory, hlinked.view_unlink, hurl]
      refine .remove _ ⟨(s.shared.cache entry).view, ?_, hurl⟩
      exact List.mem_map_of_mem (by simp)

/-- A run of the server is a run of the map. -/
theorem map_refines (hs : server.ReachableUnder Starts ok s) :
    ∃ l, Linked s.shared l ∧ Relation.ReflTransGen MapStep [] (s.shared.view l) := by
  induction hs with
  | start h => exact ⟨[], h.1 ▸ linked_start, .refl⟩
  | step hs _ hstep ih =>
      obtain ⟨l, hlinked, hrun⟩ := ih
      obtain ⟨l', hlinked', hmap⟩ := map_refines_step hs hlinked hstep
      exact ⟨l', hlinked', hrun.tail hmap⟩

/-- A walk along the chain ends at the entry that `map_find_by_url` finds in the
list of entries, or at its end if there is none. -/
theorem lookup_refines (hs : server.ReachableUnder Starts ok s) {l : List Nat}
    (hlinked : Linked s.shared l) (i : Nat) :
    ((s.thread i).pc = .foundUnlock →
        mapFindByUrl (s.shared.view l) (s.thread i).searchPath =
          some (s.shared.cache (s.thread i).cacheNode).view) ∧
      ((s.thread i).pc = .mapAdd →
        mapFindByUrl (s.shared.view l) (s.thread i).searchPath = none) := by
  obtain ⟨l₀, hlinked₀, hwalks⟩ := linked hs
  obtain rfl := hlinked.chain.unique hlinked₀.chain
  have hat := hwalks i
  constructor <;> intro hpc <;> rw [Walks, hpc] at hat
  · rw [← hat.2]
    exact hlinked.mapFindByUrl_view hat.1
  · exact (Memory.mapFindByUrl_view_eq_none_iff _).mpr hat

end Run

end Proxy
end OperatingSystems
