import K2Cache.Proof.NodeIds
import K2Cache.Proof.ServerIds
import K2Cache.Spec.PredicateLock

/-!
# The response to a lock of predicates

The entry of a predicate is added before it is known whether it can be translated back, and
`err_code` is not set beforehand, though `get_real_id` writes a success to it for the ids of
the plain sequence only. So an entry is the requested real id exactly for those
(`availablePredicate_iff`), whatever was in `err_code`. Where nothing is evicted all that is
requested is taken, also what has no tree.

`lockResponse_iff`: the response lists the usable predicates if and only if everything that
is taken is from the plain sequence and has a tree.
-/

namespace K2Cache

open Lib

variable {T σ : Type}

/-! ## Translating back -/

/-- The two kinds of managers of node ids. -/
inductive NodeIdState where
  | identity
  | impl (m : NodeIdsManager)

namespace NodeIdState

/-- What the manager answers. -/
def ids : NodeIdState → NodeIds
  | identity => .identity
  | impl m => m.ids

/-- Ids do not overlap. -/
def Valid : NodeIdState → Prop
  | identity => True
  | impl m => ∃ n, m.Valid n

/-- The real id is one of the plain sequence. -/
def Plain : NodeIdState → UInt64 → Prop
  | identity, _ => False
  | impl m, r => r ∈ m.nodesSequence.values

end NodeIdState

namespace NodeIdsManager.Valid

variable {m : NodeIdsManager} {n : ℕ} {r : UInt64}

/-- Success is written for an id of the sequence. -/
theorem getRealId_plain (h : m.Valid n) (hr : r ∈ m.nodesSequence.values) :
    m.getRealId (m.getId r) = (r, some .success) := by
  obtain ⟨k, hk, hkr⟩ := List.getElem_of_mem hr
  have hto : (UInt64.ofNat k).toNat = k := by
    have := h.length_lt
    exact UInt64.toNat_ofNat_of_lt' (by rw [UInt64.size]; omega)
  have hget : m.nodesSequence.values[(UInt64.ofNat k).toNat]? = some r := by rw [hto, List.getElem?_eq_getElem hk, hkr]
  have hmaps : m.Maps r (UInt64.ofNat k) := .inl hget
  rw [hmaps.getId h]
  unfold NodeIdsManager.getRealId NodesSequence.getRealId
  rw [hget]
  rfl

/-- For other real ids it is not. -/
theorem getRealId_not_plain (h : m.Valid n) (hr : r ∉ m.nodesSequence.values) :
    (m.getRealId (m.getId r)).2 ≠ some .success := by
  have hseq : m.nodesSequence.values[(m.getId r).toNat]? = none := by
    by_cases hfound : m.getId r = notFoundNodeid
    · have hlen := h.length_le
      have hroom := h.room
      rw [hfound, toNat_notFoundNodeid]
      exact List.getElem?_eq_none (by omega)
    · rcases (getId_found_iff h).1 hfound with hm | hm
      · exact absurd (List.mem_of_getElem? hm) hr
      · exact List.getElem?_eq_none (h.above r _ hm)
  unfold NodeIdsManager.getRealId NodesSequence.getRealId NodesMap.getRealId
  rw [hseq]
  cases m.nodesMap.revMap.find? (m.getId r) <;> simp

end NodeIdsManager.Valid

open TripleMatchesPartStreamer

theorem availablePredicate_success {ids : NodeIds} {p v : UInt64} (h : ids.getRealId p = (v, some .success)) (uninit : ℤ) :
    availablePredicate ids uninit p = some v := by
  unfold availablePredicate
  rw [h]
  rfl

theorem availablePredicate_failure {ids : NodeIds} {p : UInt64} (h : (ids.getRealId p).2 ≠ some .success) :
    availablePredicate ids NidsErrCode.notFound.code p = none := by
  have hcode : ((ids.getRealId p).2.map NidsErrCode.code).getD NidsErrCode.notFound.code = NidsErrCode.notFound.code := by
    rcases hr : (ids.getRealId p).2 with _ | (_ | _)
    · rfl
    · rfl
    · exact absurd hr h
  exact if_pos (by rw [hcode]; decide)

/-- **The entry of a requested id** is that id, whatever was in `err_code`, if the id is plain.
Otherwise `err_code` may be such that the entry is not set. -/
theorem availablePredicate_spec {st : NodeIdState} (hv : st.Valid) (r : UInt64) :
    (st.Plain r → ∀ uninit, availablePredicate st.ids uninit (st.ids.getId r) = some r) ∧
      (¬ st.Plain r → availablePredicate st.ids NidsErrCode.notFound.code (st.ids.getId r) = none) := by
  cases st with
  | identity => exact ⟨nofun, fun _ => rfl⟩
  | impl m =>
    obtain ⟨n, hn⟩ := hv
    exact ⟨fun hr => availablePredicate_success (hn.getRealId_plain hr),
      fun hr => availablePredicate_failure (hn.getRealId_not_plain hr)⟩

theorem mem_getLoadedPredicatesResponse {ids : NodeIds} {uninit : ℕ → ℤ} {loaded : List UInt64} {e : Option UInt64} :
    e ∈ getLoadedPredicatesResponse ids uninit loaded ↔
      ∃ i p, loaded[i]? = some p ∧ e = availablePredicate ids (uninit i) p := by
  unfold getLoadedPredicatesResponse
  rw [List.mem_mapIdx]
  constructor
  · rintro ⟨i, hi, rfl⟩
    exact ⟨i, _, List.getElem?_eq_getElem hi, rfl⟩
  · rintro ⟨i, p, hp, rfl⟩
    obtain ⟨hi, rfl⟩ := List.getElem?_eq_some_iff.1 hp
    exact ⟨i, hi, rfl⟩

/-! ## What is taken -/

namespace CacheServer

variable {P : CacheParams T} {strategyId : ReplacementStrategyId} {hasFic : Bool}

/-- The predicate is in memory, or nothing is evicted. -/
def taken (strategyId : ReplacementStrategyId) (s : CacheServer T σ) (p : UInt64) : Bool :=
  strategyId = .noCaching || s.manager.index.hasPredicateActive p

theorem takeLoaded_spec (strategyId : ReplacementStrategyId) (requested : List UInt64) (s : CacheServer T σ) :
    (takeLoaded strategyId requested s).1 = .ok (requested.filter (taken strategyId s)) := by
  unfold takeLoaded
  split
  · rename_i hno
    have hall : requested.filter (taken strategyId s) = requested :=
      List.filter_eq_self.2 fun p _ => by simp [taken, hno]
    rw [hall]
    rfl
  · rename_i hno
    have hactive : taken strategyId s = s.manager.index.hasPredicateActive := by
      funext p
      simp [taken, hno]
    rw [hactive, Act.get_bind, Act.modify_bind]
    split <;> rfl

/-- The response of a request that is answered, whatever was in `err_code`. -/
theorem processPredicatesLock_ok {ids : NodeIds} {uninit : ℕ → ℤ} {predicates : List UInt64} {s s' : CacheServer T σ}
    {channelId : ℤ} {entries : List (Option UInt64)}
    (h : processPredicatesLock P strategyId hasFic ids uninit predicates s = (.ok (channelId, entries), s')) :
    entries = getLoadedPredicatesResponse ids uninit ((predicates.map ids.getId).filter (taken strategyId s)) ∧
      ∀ uninit', processPredicatesLock P strategyId hasFic ids uninit' predicates s =
        (.ok (channelId, getLoadedPredicatesResponse ids uninit' ((predicates.map ids.getId).filter (taken strategyId s))), s') := by
  have htake := takeLoaded_spec strategyId (predicates.map ids.getId) s
  obtain ⟨loaded, s₁, h1, h2⟩ := Act.bind_eq_ok h
  rw [h1] at htake
  obtain rfl := Except.ok.inj htake
  obtain ⟨channelId', s₂, h3, h4⟩ := Act.bind_eq_ok h2
  obtain ⟨hr, rfl⟩ := Prod.mk.inj h4
  obtain ⟨rfl, rfl⟩ := Prod.mk.inj (Except.ok.inj hr)
  refine ⟨rfl, fun uninit' => ?_⟩
  unfold processPredicatesLock
  rw [Act.bind_ok h1, Act.bind_ok h3]
  rfl

theorem createTriplesStreamer_true (P : CacheParams T) (loaded : List UInt64) (s : CacheServer T σ) :
    (createTriplesStreamer P true loaded >>= fun _ => (pure () : Act Exn (CacheServer T σ) Unit)) s =
      ((fic P).initStreamerPredicates P.ops loaded >>= fun _ => Act.modify fun s => { s with
        streams := s.streams.insert s.currentChannelId loaded
        currentChannelId := s.currentChannelId + 1 }) s := by
  unfold createTriplesStreamer
  rw [if_pos rfl, Act.bind_run, Act.bind_run, Act.bind_run]
  rcases (fic P).initStreamerPredicates P.ops loaded s with ⟨_ | _, s'⟩ <;> rfl

/-- With a replacement strategy and an indexed cache the request does to the memory what
`lockPredicates` says. -/
theorem lockPredicates_eq (P : CacheParams T) (requested : List UInt64) :
    (lockPredicates P requested : Act Exn (CacheServer T σ) Unit) = (do
      let loaded ← takeLoaded .lru requested
      let _ ← createTriplesStreamer P true loaded
      pure ()) := by
  funext s
  unfold lockPredicates takeLoaded
  rw [if_neg (by decide), Act.get_bind, Act.modify_bind, Act.bind_run, Act.get_bind, Act.modify_bind]
  dsimp only
  by_cases hlt : (requested.filter s.manager.index.hasPredicateActive).length < requested.length
  · rw [if_pos hlt, if_pos hlt]
    exact (createTriplesStreamer_true P _ _).symm
  · rw [if_neg hlt, if_neg hlt]
    exact (createTriplesStreamer_true P _ _).symm

end CacheServer

/-! ## The response -/

/-- **The response lists the usable predicates**: every entry is a requested real id whose
predicate has a tree, and those that were in memory are all listed. -/
def RightResponse (ids : NodeIds) (s : Manager T) (predicates : List UInt64) (entries : List (Option UInt64)) : Prop :=
  (∀ e ∈ entries, ∃ r ∈ predicates, e = some r ∧ s.hasPredicate (ids.getId r) = true) ∧
    ∀ r ∈ predicates, s.index.hasPredicateActive (ids.getId r) = true → some r ∈ entries

open CacheServer

/-- **The response is right**, whatever was in `err_code`, if and only if every requested
predicate that is taken has an id of the plain sequence, and a tree. -/
theorem lockResponse_iff {P : CacheParams T} {strategyId : ReplacementStrategyId} {hasFic : Bool} {st : NodeIdState}
    (hv : st.Valid) {predicates : List UInt64} {s : CacheServer T σ}
    (hanswered : ∃ uninit r s', processPredicatesLock P strategyId hasFic st.ids uninit predicates s = (.ok r, s')) :
    (∀ uninit channelId entries s',
      processPredicatesLock P strategyId hasFic st.ids uninit predicates s = (.ok (channelId, entries), s') →
        RightResponse st.ids s.manager predicates entries) ↔
      ∀ r ∈ predicates, taken strategyId s (st.ids.getId r) = true →
        st.Plain r ∧ s.manager.hasPredicate (st.ids.getId r) = true := by
  constructor
  · intro hright r hr htaken
    obtain ⟨uninit, ⟨channelId, entries⟩, s', hrun⟩ := hanswered
    obtain ⟨hentries, -⟩ := hright (fun _ => NidsErrCode.notFound.code) _ _ _ ((processPredicatesLock_ok hrun).2 _)
    have hloaded : st.ids.getId r ∈ (predicates.map st.ids.getId).filter (taken strategyId s) :=
      List.mem_filter.2 ⟨List.mem_map_of_mem hr, htaken⟩
    obtain ⟨i, hi⟩ := List.mem_iff_getElem?.1 hloaded
    obtain ⟨r', -, he, htree⟩ := hentries _ (mem_getLoadedPredicatesResponse.2 ⟨i, _, hi, rfl⟩)
    obtain ⟨hplain, hother⟩ := availablePredicate_spec hv r
    by_cases hp : st.Plain r
    · rw [hplain hp] at he
      obtain rfl := Option.some.inj he
      exact ⟨hp, htree⟩
    · rw [hother hp] at he
      cases he
  · intro hall uninit channelId entries s' hrun
    obtain ⟨rfl, -⟩ := processPredicatesLock_ok hrun
    refine ⟨fun e he => ?_, fun r hr hactive => ?_⟩
    · obtain ⟨i, p, hi, rfl⟩ := mem_getLoadedPredicatesResponse.1 he
      obtain ⟨hmem, htaken⟩ := List.mem_filter.1 (List.mem_of_getElem? hi)
      obtain ⟨r, hr, rfl⟩ := List.mem_map.1 hmem
      obtain ⟨hp, htree⟩ := hall r hr htaken
      exact ⟨r, hr, (availablePredicate_spec hv r).1 hp _, htree⟩
    · have htaken : taken strategyId s (st.ids.getId r) = true := by
        unfold taken
        rw [hactive, Bool.or_true]
      obtain ⟨i, hi⟩ := List.mem_iff_getElem?.1 (List.mem_filter.2 ⟨List.mem_map_of_mem hr, htaken⟩)
      refine mem_getLoadedPredicatesResponse.2 ⟨i, _, hi, ?_⟩
      exact ((availablePredicate_spec hv r).1 (hall r hr htaken).1 _).symm

section

open PointTree

/-- A server over `indexDisk`. -/
def PointTree.cacheServer : CacheServer PointTree LRUReplacementStrategy :=
  .construct LRUReplacementStrategy.strategy (Manager.openIndex indexDisk) 1000

/-- Real id 15 is at position 5 of the sequence. -/
def PointTree.plainIds : NodeIdState := .impl (loadedManager ⟨[10, 11, 12, 13, 14, 15]⟩ (.construct ∅))

theorem PointTree.plainIds_valid : plainIds.Valid := by
  refine ⟨0, NodesLoaded.valid ⟨by decide, ?_, ?_, ?_, by decide, ?_⟩ rfl⟩
  all_goals exact nofun

/-- A server that evicts nothing is asked for the predicate it has. -/
theorem lockResponse_iff_stored :
    ∃ s', processPredicatesLock (cacheParams .binary) .noCaching true plainIds.ids (fun _ => -1) [15] cacheServer =
        (.ok (0, [some 15]), s') ∧
      RightResponse plainIds.ids cacheServer.manager [15] [some 15] := by
  have hres : (processPredicatesLock (cacheParams .binary) .noCaching true plainIds.ids (fun _ => -1) [15] cacheServer).1 =
      .ok (0, [some 15]) := by decide +kernel
  obtain ⟨s', hs'⟩ : ∃ s', processPredicatesLock (cacheParams .binary) .noCaching true plainIds.ids (fun _ => -1) [15]
      cacheServer = (.ok (0, [some 15]), s') := ⟨_, Prod.ext hres rfl⟩
  refine ⟨s', hs', (lockResponse_iff plainIds_valid ⟨_, _, _, hs'⟩).2 (fun r hr _ => ?_) _ _ _ _ hs'⟩
  obtain rfl := List.mem_singleton.1 hr
  have hplain : (15 : UInt64) ∈ [10, 11, 12, 13, 14, 15] := by decide
  exact ⟨hplain, by decide +kernel⟩

/-- It is asked for an id that it does not know: the response has an entry that was not set. -/
theorem lockResponse_unset :
    ∃ s', processPredicatesLock (cacheParams .binary) .noCaching true plainIds.ids (fun _ => 0) [77] cacheServer =
        (.ok (0, [none]), s') ∧
      ¬ RightResponse plainIds.ids cacheServer.manager [77] [none] := by
  have hres : (processPredicatesLock (cacheParams .binary) .noCaching true plainIds.ids (fun _ => 0) [77] cacheServer).1 =
      .ok (0, [none]) := by decide +kernel
  refine ⟨_, Prod.ext hres rfl, fun h => ?_⟩
  obtain ⟨r, -, he, -⟩ := h.1 none List.mem_cons_self
  cases he

end

end K2Cache
