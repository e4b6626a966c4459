import OperatingSystems.Proxy.Forwarding

/-!
# What a request leaves in the cache

`leavesCacheAsItWas_iff` — a fetch that fails or is not cached leaves the map as it
was exactly when a first response arrived and no redirect has changed the URL by
which the entry is removed.
-/

namespace OperatingSystems
namespace Proxy

/-- After the run there is an entry for the requested URL only if the final
response has a `2xx` status; otherwise the map is the map before the run. -/
def LeavesCacheAsItWas (env : Env) (map : CacheMap) (request : Request) : Prop :=
  ∃ out, clientHandler env map request = some out ∧
    ((∃ entry ∈ out.map, entry.url = request.searchPath) → FinalOk out.log) ∧
    (¬ FinalOk out.log → out.map = map)

/-- The trail of the request ends at a `2xx` response in time, or a first
response arrives and the trail ends at the URL it started from. -/
def Settled (env : Env) (request : Request) : Prop :=
  ((finalTrail env request).Answered env maxRedirects ∧
      cacheAllowed (statusOf ((finalTrail env request).stream env)) = true) ∨
    (streamAt env 0 request ≠ [] ∧
      (finalTrail env request).request.searchPath = request.searchPath)

/-- The map after the miss path: the new entry in front, unless it is removed by
the URL at the end of the trail. -/
theorem missPath_map (env : Env) (map : CacheMap) (request : Request) :
    ∃ entry : CacheEntry, entry.url = request.searchPath ∧
      (missPath env map request).map =
        if (Loader.fetch env request).needToCache then entry :: map
        else mapRemove (entry :: map) (finalTrail env request).request.searchPath := by
  refine ⟨⟨request.searchPath, listAdds (Loader.fetch env request).log, true⟩, rfl, ?_⟩
  rw [← Loader.fetch_request]
  rfl

/-- A run leaves the cache as it was exactly when its request is settled. -/
theorem leavesCacheAsItWas_iff {env : Env} {map : CacheMap} {request : Request}
    (hget : request.method = .get) (hmiss : mapFindByUrl map request.searchPath = none) :
    LeavesCacheAsItWas env map request ↔ Settled env request := by
  have hnone := (mapFindByUrl_eq_none_iff map request.searchPath).mp hmiss
  obtain ⟨entry, hurl, hmap⟩ := missPath_map env map request
  have hneed : (Loader.fetch env request).needToCache = true ↔
      FinalOk (missPath env map request).log ∨ streamAt env 0 request = [] :=
    Loader.fetch_needToCache_iff
  have hok : FinalOk (missPath env map request).log ↔ _ := Loader.finalOk_fetch_iff
  rw [LeavesCacheAsItWas, Settled, ← hok, clientHandler_miss hget hmiss]
  simp only [Option.some.injEq, exists_eq_left']
  by_cases hfinal : FinalOk (missPath env map request).log
  · simp [hfinal]
  by_cases hfirst : streamAt env 0 request = []
  · -- No status line was read: the empty entry stays.
    rw [if_pos (hneed.mpr (Or.inr hfirst))] at hmap
    simp [hfinal, hfirst, hmap, hurl]
  have hremove : (Loader.fetch env request).needToCache = false := by
    rw [← Bool.not_eq_true, hneed]
    simp [hfinal, hfirst]
  rw [hremove] at hmap
  simp only [hfinal, hfirst, ne_eq, not_false_eq_true, true_and, false_or, imp_false,
    forall_const]
  constructor
  · rintro ⟨habsent, -⟩
    by_contra hne
    refine habsent ⟨entry, ?_, hurl⟩
    rw [hmap]
    exact mem_mapRemove_of_ne (fun heq => hne (heq.symm.trans hurl))
  · intro hsame
    rw [hsame, ← hurl] at hmap
    have hleft : (missPath env map request).map = map := by
      rw [hmap]
      exact mapRemove_cons_self entry map
    rw [hleft]
    exact ⟨fun ⟨old, hmem, hold⟩ => hnone old hmem hold, rfl⟩

/-- A `404` response leaves nothing behind. -/
theorem leavesCacheAsItWas_notFound :
    LeavesCacheAsItWas (answering (bytes "HTTP/1.1 404 Not Found\r\n\r\n")) [] plainRequest :=
  (leavesCacheAsItWas_iff rfl rfl).mpr (Or.inr (by decide +kernel))

/-- A refused connection leaves an empty complete entry behind, which every
later request for the URL is answered from. -/
theorem leavesCacheAsItWas_refused :
    let env : Env := ⟨fun _ => ⟨false, false, .closed⟩, fun _ => 1⟩
    mapFindByUrl [] plainRequest.searchPath = none ∧ ¬ LeavesCacheAsItWas env [] plainRequest ∧
      clientHandler env [] plainRequest =
        some ⟨[⟨plainRequest.searchPath, [], true⟩], (missPath env [] plainRequest).log⟩ ∧
      finalStatus (missPath env [] plainRequest).log = none := by
  have hlog : finalStatus (missPath ⟨fun _ => ⟨false, false, .closed⟩, fun _ => 1⟩ []
      plainRequest).log = none := by decide +kernel
  refine ⟨rfl, ?_, ?_, hlog⟩
  · rintro ⟨out, hrun, -, hmap⟩
    obtain rfl := Option.some.inj (hrun : some _ = some out)
    have hempty := hmap (by simp [FinalOk, hlog])
    revert hempty
    decide +kernel
  · rfl

end Proxy
end OperatingSystems
