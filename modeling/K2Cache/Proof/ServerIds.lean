import K2Cache.Proof.Refine
import K2Cache.Spec.ServerTask

/-!
# Messages with unknown ids

`handled_iff`: over every list of messages, from the start of the server, each is answered
and an unknown id changes no table, if and only if each message names open ids where the
server does not check them, and what it asks of the streamer, the session or the cache
returns. The messages of a BGP are checked, and so in effect is the end of a channel.
-/

namespace K2Cache

open Lib

/-- The action returns. -/
def Returns {ε σ α : Type} (x : Act ε σ α) (s : σ) : Prop := ∃ a s', x s = (.ok a, s')

section

variable {ε σ α β : Type} {x : Act ε σ α} {f : α → Act ε σ β} {s : σ}

theorem returns_bind : Returns (x >>= f) s ↔ ∃ a s', x s = (.ok a, s') ∧ Returns (f a) s' := by
  constructor
  · rintro ⟨b, s'', h⟩
    obtain ⟨a, s', h1, h2⟩ := Act.bind_eq_ok h
    exact ⟨a, s', h1, b, s'', h2⟩
  · rintro ⟨a, s', h1, b, s'', h2⟩
    exact ⟨b, s'', (Act.bind_ok h1).trans h2⟩

theorem returns_get_bind (f : σ → Act ε σ β) : Returns (Act.get >>= f) s ↔ Returns (f s) s := Iff.rfl

/-- What follows without fail. -/
theorem returns_then (h : ∀ a s', Returns (f a) s') : Returns (x >>= f) s ↔ Returns x s := by
  rw [returns_bind]
  exact ⟨fun ⟨a, s', h1, _⟩ => ⟨a, s', h1⟩, fun ⟨a, s', h1⟩ => ⟨a, s', h1, h a s'⟩⟩

end

/-! ## Null pointers in the tables -/

/-- No pointer of the table is null. -/
def Filled {α : Type} (m : OrdMap ℤ (Option α)) : Prop := ∀ id v, m.find? id = some v → v ≠ none

section

variable {α : Type} {m : OrdMap ℤ (Option α)} {id : ℤ}

theorem filled_empty : Filled (∅ : OrdMap ℤ (Option α)) := fun _ _ h => absurd h (by simp)

theorem Filled.insert (h : Filled m) (a : α) : Filled (m.insert id (some a)) := by
  intro id' v hv
  rw [OrdMap.find?_insert] at hv
  split at hv
  · rw [← Option.some.inj hv]
    exact Option.some_ne_none a
  · exact h id' v hv

theorem find?_insert_erase (v : Option α) (id' : ℤ) :
    ((m.insert id v).erase id).find? id' = if id' = id then none else m.find? id' := by
  rw [OrdMap.find?_erase, OrdMap.find?_insert]
  split <;> rfl

theorem Filled.clean (h : Filled m) (v : Option α) : Filled ((m.insert id v).erase id) := by
  intro id' w hw
  rw [find?_insert_erase] at hw
  split at hw
  · cases hw
  · exact h id' w hw

/-- An id that is open has something behind its pointer. -/
theorem Filled.find? (h : Filled m) : m.contains id = true ↔ ∃ a, m.find? id = some (some a) := by
  rw [OrdMap.contains_iff]
  constructor
  · rintro ⟨v, hv⟩
    cases v with
    | none => exact absurd rfl (h id none hv)
    | some a => exact ⟨a, hv⟩
  · rintro ⟨a, ha⟩
    exact ⟨some a, ha⟩

/-- `map[id]` of a table without null pointers. -/
theorem Filled.subscript (h : Filled m) (id : ℤ) :
    (∃ a, m.find? id = some (some a) ∧ subscript m id = (some a, m)) ∨
      m.find? id = none ∧ subscript m id = (none, m.insert id none) := by
  cases hf : m.find? id with
  | none => exact .inr ⟨rfl, by simp only [K2Cache.subscript, hf]⟩
  | some v =>
    cases v with
    | none => exact absurd rfl (h id none hf)
    | some a => exact .inl ⟨a, rfl, by simp only [K2Cache.subscript, hf]⟩

end

variable {κ Str Ses Bgp : Type}

/-- No pointer of the tables is null. -/
structure NoNull (s : CacheServerTaskProcessor κ Str Ses Bgp) : Prop where
  streamers : Filled s.triplesStreamerMap
  patterns : ∀ c t, s.triplesStreamerMap.find? c = some (some t) → Filled t.triplesStreamersMap
  updaters : Filled s.updatersSessions

section

variable {s : CacheServerTaskProcessor κ Str Ses Bgp}

theorem NoNull.withCache (h : NoNull s) (k : κ) : NoNull { s with cache := k } := ⟨h.streamers, h.patterns, h.updaters⟩

theorem NoNull.setStreamer (h : NoNull s) {t : TripleMatchesPartStreamer Str} (ht : Filled t.triplesStreamersMap) (c : ℤ) :
    NoNull (s.setStreamer c t) := by
  refine ⟨h.streamers.insert t, fun c' t' hf => ?_, h.updaters⟩
  rw [CacheServerTaskProcessor.setStreamer, OrdMap.find?_insert] at hf
  split at hf
  · obtain rfl := Option.some.inj (Option.some.inj hf)
    exact ht
  · exact h.patterns c' t' hf

theorem noNull_construct (k : κ) : NoNull (CacheServerTaskProcessor.construct k : CacheServerTaskProcessor κ Str Ses Bgp) :=
  ⟨filled_empty, fun _ _ h => absurd h (by simp [CacheServerTaskProcessor.construct]), filled_empty⟩

end

namespace ServerTask

open CacheServerTaskProcessor

variable {H : ServerParts κ Str Ses Bgp} {s s' : CacheServerTaskProcessor κ Str Ses Bgp}

/-! ## The lookups -/

@[simp] theorem onCache_run {α : Type} (x : Act Halt κ α) (s : CacheServerTaskProcessor κ Str Ses Bgp) :
    onCache x s = ((x s.cache).1, { s with cache := (x s.cache).2 }) := rfl

theorem onCache_eq_ok {α : Type} {x : Act Halt κ α} {a : α} (h : onCache x s = (.ok a, s')) :
    ∃ k, x s.cache = (.ok a, k) ∧ s' = { s with cache := k } := by
  rw [onCache_run, Prod.mk.injEq] at h
  exact ⟨(x s.cache).2, Prod.ext h.1 rfl, h.2.symm⟩

theorem onCache_ok {α : Type} {x : Act Halt κ α} {a : α} {k : κ} (h : x s.cache = (.ok a, k)) :
    onCache x s = (.ok a, { s with cache := k }) := by
  rw [onCache_run, h]

theorem returns_onCache {α : Type} {x : Act Halt κ α} : Returns (onCache x) s ↔ Returns x s.cache := by
  constructor
  · rintro ⟨a, s', h⟩
    obtain ⟨k, hk, -⟩ := onCache_eq_ok h
    exact ⟨a, k, hk⟩
  · rintro ⟨a, k, h⟩
    exact ⟨a, _, onCache_ok h⟩

theorem getTripleStreamer_eq_ok (h : NoNull s) {c : ℤ} {t : TripleMatchesPartStreamer Str} :
    getTripleStreamer c s = (.ok t, s') ↔ s.triplesStreamerMap.find? c = some (some t) ∧ s' = s := by
  rcases h.streamers.subscript c with ⟨a, hf, hs⟩ | ⟨hf, hs⟩
  · simp only [getTripleStreamer, hs, hf, deref, Act.pure_run, Prod.mk.injEq, Except.ok.injEq, Option.some.injEq]
    exact and_congr_right fun _ => eq_comm
  · simp [getTripleStreamer, hs, hf, deref]

theorem getTriplePatternStreamer_eq_ok {c p : ℤ} {t : TripleMatchesPartStreamer Str} {st : Str}
    (ht : Filled t.triplesStreamersMap) :
    getTriplePatternStreamer c t p s = (.ok st, s') ↔
      t.triplesStreamersMap.find? p = some (some st) ∧ s' = s.setStreamer c t := by
  rcases ht.subscript p with ⟨a, hf, hs⟩ | ⟨hf, hs⟩
  · simp only [getTriplePatternStreamer, hs, hf, deref, Act.pure_run, Prod.mk.injEq, Except.ok.injEq, Option.some.injEq]
    exact and_congr_right fun _ => eq_comm
  · simp [getTriplePatternStreamer, hs, hf, deref]

theorem getUpdater_eq_ok (h : NoNull s) {u : ℤ} {ses : Ses} :
    getUpdater u s = (.ok ses, s') ↔ s.updatersSessions.find? u = some (some ses) ∧ s' = s := by
  rcases h.updaters.subscript u with ⟨a, hf, hs⟩ | ⟨hf, hs⟩
  · simp only [getUpdater, hs, hf, deref, Act.pure_run, Prod.mk.injEq, Except.ok.injEq, Option.some.injEq]
    exact and_congr_right fun _ => eq_comm
  · simp [getUpdater, hs, hf, deref]

/-! ## A message leaves no null pointer -/

/-- A part that is sent. -/
theorem sendPart_noNull {c p : ℤ} {t : TripleMatchesPartStreamer Str} {st : Str} {r : CacheResponse} (h : NoNull s)
    (ht : Filled t.triplesStreamersMap) (hr : sendPart H c p t st s = (.ok r, s')) : NoNull s' := by
  obtain ⟨a, s₁, h1, h2⟩ := Act.bind_eq_ok hr
  obtain ⟨k, -, rfl⟩ := onCache_eq_ok h1
  have hs' : s' = _ := (congrArg Prod.snd h2).symm
  rw [hs']
  refine NoNull.setStreamer (h.withCache k) ?_ c
  split
  · exact (ht.insert a.2).clean none
  · exact ht.insert a.2

theorem sendBatch_noNull {c : ℤ} {st : Bgp} {r : CacheResponse} (h : NoNull s) (hr : sendBatch H c st s = (.ok r, s')) :
    NoNull s' := by
  obtain ⟨a, s₁, h1, h2⟩ := Act.bind_eq_ok hr
  obtain ⟨k, -, rfl⟩ := onCache_eq_ok h1
  have hs' : s' = _ := (congrArg Prod.snd h2).symm
  rw [hs']
  split <;> exact ⟨h.streamers, h.patterns, h.updaters⟩

/-- What is answered comes from the action of the message. -/
theorem map_eq_ok {α β : Type} {x : Act Halt (CacheServerTaskProcessor κ Str Ses Bgp) α} {f : α → β} {b : β}
    (h : (f <$> x) s = (.ok b, s')) : ∃ a, x s = (.ok a, s') ∧ f a = b := by
  obtain ⟨a, s₁, h1, h2⟩ := Act.bind_eq_ok (x := x) (f := fun a => pure (f a)) h
  obtain ⟨h3, rfl⟩ := Prod.mk.inj h2
  exact ⟨a, h1, Except.ok.inj h3⟩

/-- **A message that is processed leaves no null pointer.** -/
theorem processNext_noNull {m : CacheRequest} {r : Option CacheResponse} (h : NoNull s)
    (hr : processNext H m s = (.ok r, s')) : NoNull s' := by
  cases m with
  | connectionEnd =>
    obtain ⟨-, rfl⟩ := Prod.mk.inj hr
    exact h
  | cacheRequestSeparatePredicates predicates =>
    obtain ⟨a, hr, -⟩ := map_eq_ok hr
    obtain ⟨loaded, s₁, h1, h2⟩ := Act.bind_eq_ok hr
    obtain ⟨k, -, rfl⟩ := onCache_eq_ok h1
    obtain ⟨u, s₂, h3, h4⟩ := Act.bind_eq_ok h2
    obtain ⟨k', -, rfl⟩ := onCache_eq_ok h3
    have hs' : s' = _ := (congrArg Prod.snd h4).symm
    rw [hs']
    have hset := NoNull.setStreamer (h.withCache k') (t := ⟨s.currentTriplesStreamersChannelId, loaded, 0, ∅⟩) filled_empty
      s.currentTriplesStreamersChannelId
    exact ⟨hset.streamers, hset.patterns, hset.updaters⟩
  | streamRequestTriplePattern c node =>
    obtain ⟨a, hr, -⟩ := map_eq_ok hr
    obtain ⟨t, s₁, h1, h2⟩ := Act.bind_eq_ok hr
    obtain ⟨hf, rfl⟩ := (getTripleStreamer_eq_ok h).1 h1
    obtain ⟨st, s₂, h3, h4⟩ := Act.bind_eq_ok h2
    obtain ⟨k, -, rfl⟩ := onCache_eq_ok h3
    exact sendPart_noNull (t := { t with currentPatternChannelId := t.currentPatternChannelId + 1 }) (h.withCache k)
      (h.patterns c t hf) h4
  | streamContinueTriplePattern c p =>
    obtain ⟨a, hr, -⟩ := map_eq_ok hr
    obtain ⟨t, s₁, h1, h2⟩ := Act.bind_eq_ok hr
    obtain ⟨hf, rfl⟩ := (getTripleStreamer_eq_ok h).1 h1
    have ht := h.patterns c t hf
    obtain ⟨st, s₂, h3, h4⟩ := Act.bind_eq_ok h2
    obtain ⟨-, rfl⟩ := (getTriplePatternStreamer_eq_ok ht).1 h3
    exact sendPart_noNull (h.setStreamer ht c) ht h4
  | doneWithPredicatesNotify c =>
    obtain ⟨a, hr, -⟩ := map_eq_ok hr
    have hs' : s' = cleanTripleStreamer H c s := (congrArg Prod.snd hr).symm
    rw [hs']
    refine ⟨h.streamers.clean none, fun c' t hf => ?_, h.updaters⟩
    simp only [cleanTripleStreamer, find?_insert_erase] at hf
    split at hf
    · cases hf
    · exact h.patterns c' t hf
  | cacheRequestStartUpdateTriples =>
    obtain ⟨a, hr, -⟩ := map_eq_ok hr
    have hs' : s' = _ := (congrArg Prod.snd hr).symm
    rw [hs']
    exact ⟨h.streamers, h.patterns, h.updaters.insert _⟩
  | cacheDoneUpdateTriples u =>
    obtain ⟨a, hr, -⟩ := map_eq_ok hr
    obtain ⟨ses, s₁, h1, h2⟩ := Act.bind_eq_ok hr
    obtain ⟨hf, rfl⟩ := (getUpdater_eq_ok h).1 h1
    obtain ⟨_, s₂, h3, h4⟩ := Act.bind_eq_ok h2
    obtain ⟨k, -, rfl⟩ := onCache_eq_ok h3
    have hs' : s' = _ := (congrArg Prod.snd h4).symm
    rw [hs']
    exact h.withCache k
  | triplesUpdateBatch u toAdd toDelete =>
    obtain ⟨a, hr, -⟩ := map_eq_ok hr
    obtain ⟨ses, s₁, h1, h2⟩ := Act.bind_eq_ok hr
    obtain ⟨hf, rfl⟩ := (getUpdater_eq_ok h).1 h1
    obtain ⟨ses₁, s₂, h3, h4⟩ := Act.bind_eq_ok h2
    obtain ⟨k, -, rfl⟩ := onCache_eq_ok h3
    obtain ⟨ses₂, s₃, h5, h6⟩ := Act.bind_eq_ok h4
    obtain ⟨k', -, rfl⟩ := onCache_eq_ok h5
    have hs' : s' = _ := (congrArg Prod.snd h6).symm
    rw [hs']
    exact ⟨h.streamers, h.patterns, h.updaters.insert ses₂⟩
  | syncLogsWithIndexesRequest =>
    obtain ⟨a, hr, -⟩ := map_eq_ok hr
    obtain ⟨_, s₁, h1, h2⟩ := Act.bind_eq_ok hr
    obtain ⟨k, -, rfl⟩ := onCache_eq_ok h1
    have hs' : s' = _ := (congrArg Prod.snd h2).symm
    rw [hs']
    exact h.withCache k
  | requestBgpJoin names patterns small =>
    obtain ⟨a, hr, -⟩ := map_eq_ok hr
    exact sendBatch_noNull (s := { s with currentBgpStreamersChannelId := s.currentBgpStreamersChannelId + 1 })
      ⟨h.streamers, h.patterns, h.updaters⟩ hr
  | requestMoreBgpJoin c =>
    obtain ⟨a, hr, -⟩ := map_eq_ok hr
    rw [processRequestMoreBgpJoin, Act.get_bind] at hr
    cases hf : s.bgpStreamersMap.find? c with
    | none =>
      rw [hf] at hr
      obtain ⟨-, rfl⟩ := Prod.mk.inj hr
      exact h
    | some st =>
      rw [hf] at hr
      exact sendBatch_noNull h hr
  | cancelQuery c =>
    obtain ⟨a, hr, -⟩ := map_eq_ok hr
    simp only [processRequestCancelQuery, Act.modify_bind, Act.pure_run, Prod.mk.injEq] at hr
    rw [← hr.2]
    split <;> exact ⟨h.streamers, h.patterns, h.updaters⟩
  | unknown =>
    obtain ⟨-, rfl⟩ := Prod.mk.inj hr
    exact h

/-! ## Answers -/

/-- The ids that the message names are open. -/
def NamesOpen (s : CacheServerTaskProcessor κ Str Ses Bgp) : CacheRequest → Prop
  | .streamRequestTriplePattern c _ => s.triplesStreamerMap.contains c = true
  | .streamContinueTriplePattern c p =>
    ∃ t, s.triplesStreamerMap.find? c = some (some t) ∧ t.triplesStreamersMap.contains p = true
  | .doneWithPredicatesNotify c => s.triplesStreamerMap.contains c = true
  | .cacheDoneUpdateTriples u => s.updatersSessions.contains u = true
  | .triplesUpdateBatch u _ _ => s.updatersSessions.contains u = true
  | .requestMoreBgpJoin c => s.bgpStreamersMap.contains c = true
  | .cancelQuery c => s.bgpStreamersMap.contains c = true
  | _ => True

/-- The messages whose ids are not checked. -/
def Unchecked : CacheRequest → Prop
  | .streamRequestTriplePattern _ _ => True
  | .streamContinueTriplePattern _ _ => True
  | .cacheDoneUpdateTriples _ => True
  | .triplesUpdateBatch _ _ _ => True
  | _ => False

variable (H) in
/-- What the message asks of the streamer, the session or the cache returns. -/
def PartsReturn (s : CacheServerTaskProcessor κ Str Ses Bgp) : CacheRequest → Prop
  | .cacheRequestSeparatePredicates ps => Returns (H.lockPredicates ps >>= H.initStreamerPredicates) s.cache
  | .streamRequestTriplePattern c node => ∀ t, s.triplesStreamerMap.find? c = some (some t) →
    Returns (H.streamer t.channelId t.currentPatternChannelId node >>= H.getNextResponse) s.cache
  | .streamContinueTriplePattern c p => ∀ t st, s.triplesStreamerMap.find? c = some (some t) →
    t.triplesStreamersMap.find? p = some (some st) → Returns (H.getNextResponse st) s.cache
  | .cacheDoneUpdateTriples u => ∀ ses, s.updatersSessions.find? u = some (some ses) →
    Returns (H.commitUpdates ses) s.cache
  | .triplesUpdateBatch u toAdd toDelete => ∀ ses, s.updatersSessions.find? u = some (some ses) →
    Returns (applyTriples H.addTriple toAdd ses >>= applyTriples H.deleteTriple toDelete) s.cache
  | .syncLogsWithIndexesRequest => Returns H.syncToPersistent s.cache
  | .requestBgpJoin names patterns small =>
    Returns (H.getNextMessage (H.bgpStreamer (s.currentBgpStreamersChannelId + 1) (bgpMessageOf names patterns small) s.cache))
      s.cache
  | .requestMoreBgpJoin c => ∀ st, s.bgpStreamersMap.find? c = some st → Returns (H.getNextMessage st) s.cache
  | _ => True

variable (H) in
/-- The message is one the server knows, its ids are open where they are not checked, and
what it asks for returns. -/
structure Answerable (s : CacheServerTaskProcessor κ Str Ses Bgp) (m : CacheRequest) : Prop where
  known : m ≠ .unknown
  opened : Unchecked m → NamesOpen s m
  returns : PartsReturn H s m

/-- The same channels and sessions are open, with the same streamers and sessions. -/
structure SameTables (s s' : CacheServerTaskProcessor κ Str Ses Bgp) : Prop where
  streamers : s'.triplesStreamerMap = s.triplesStreamerMap
  updaters : s'.updatersSessions = s.updatersSessions
  bgps : s'.bgpStreamersMap = s.bgpStreamersMap

variable (H) in
/-- The message is answered, and where it names an id that is not open, the tables stay as they are. -/
def Handled (s : CacheServerTaskProcessor κ Str Ses Bgp) (m : CacheRequest) : Prop :=
  ∃ r s', processNext H m s = (.ok (some r), s') ∧ (¬ NamesOpen s m → SameTables s s')

theorem returns_sendPart {c p : ℤ} {t : TripleMatchesPartStreamer Str} {st : Str} :
    Returns (sendPart H c p t st) s ↔ Returns (H.getNextResponse st) s.cache :=
  (returns_then fun _ _ => ⟨_, _, rfl⟩).trans returns_onCache

theorem returns_sendBatch {c : ℤ} {st : Bgp} : Returns (sendBatch H c st) s ↔ Returns (H.getNextMessage st) s.cache :=
  (returns_then fun _ _ => ⟨_, _, rfl⟩).trans returns_onCache

/-- Two calls of the cache, one after the other. -/
theorem returns_onCache_bind {α β γ : Type} {x : Act Halt κ α} {y : α → Act Halt κ β}
    {f : α → Act Halt (CacheServerTaskProcessor κ Str Ses Bgp) γ}
    (hf : ∀ a k, Returns (f a) { s with cache := k } ↔ Returns (y a) k) :
    Returns (onCache x >>= f) s ↔ Returns (x >>= y) s.cache := by
  rw [returns_bind, returns_bind]
  constructor
  · rintro ⟨a, s', h1, h2⟩
    obtain ⟨k, hk, rfl⟩ := onCache_eq_ok h1
    exact ⟨a, k, hk, (hf a k).1 h2⟩
  · rintro ⟨a, k, h1, h2⟩
    exact ⟨a, _, onCache_ok h1, (hf a k).2 h2⟩

theorem returns_processStreamRequest (h : NoNull s) {c : ℤ} {node : TripleNodeId} :
    Returns (processStreamRequestTriplePattern H c node) s ↔ ∃ t, s.triplesStreamerMap.find? c = some (some t) ∧
      Returns (H.streamer t.channelId t.currentPatternChannelId node >>= H.getNextResponse) s.cache := by
  have hrest : ∀ t : TripleMatchesPartStreamer Str, Returns (do
      let streamer ← onCache (H.streamer t.channelId t.currentPatternChannelId node)
      sendPart H c t.currentPatternChannelId { t with currentPatternChannelId := t.currentPatternChannelId + 1 } streamer) s ↔
      Returns (H.streamer t.channelId t.currentPatternChannelId node >>= H.getNextResponse) s.cache :=
    fun t => returns_onCache_bind fun _ _ => returns_sendPart
  rw [processStreamRequestTriplePattern, returns_bind]
  constructor
  · rintro ⟨t, s', h1, h2⟩
    obtain ⟨hf, rfl⟩ := (getTripleStreamer_eq_ok h).1 h1
    exact ⟨t, hf, (hrest t).1 h2⟩
  · rintro ⟨t, hf, h2⟩
    exact ⟨t, s, (getTripleStreamer_eq_ok h).2 ⟨hf, rfl⟩, (hrest t).2 h2⟩

theorem returns_processStreamContinue (h : NoNull s) {c p : ℤ} :
    Returns (processStreamContinueTriplePattern H c p) s ↔ ∃ t st, s.triplesStreamerMap.find? c = some (some t) ∧
      t.triplesStreamersMap.find? p = some (some st) ∧ Returns (H.getNextResponse st) s.cache := by
  rw [processStreamContinueTriplePattern, returns_bind]
  constructor
  · rintro ⟨t, s', h1, h2⟩
    obtain ⟨hf, rfl⟩ := (getTripleStreamer_eq_ok h).1 h1
    obtain ⟨st, s'', h3, h4⟩ := returns_bind.1 h2
    obtain ⟨hp, rfl⟩ := (getTriplePatternStreamer_eq_ok (h.patterns c t hf)).1 h3
    have h5 := returns_sendPart.1 h4
    exact ⟨t, st, hf, hp, h5⟩
  · rintro ⟨t, st, hf, hp, h2⟩
    have h5 : Returns (sendPart H c p t st) (s.setStreamer c t) := returns_sendPart.2 h2
    refine ⟨t, s, (getTripleStreamer_eq_ok h).2 ⟨hf, rfl⟩, returns_bind.2 ⟨st, _, ?_, h5⟩⟩
    exact (getTriplePatternStreamer_eq_ok (h.patterns c t hf)).2 ⟨hp, rfl⟩

theorem returns_processDoneUpdate (h : NoNull s) {u : ℤ} :
    Returns (processDoneUpdateTriples H u) s ↔
      ∃ ses, s.updatersSessions.find? u = some (some ses) ∧ Returns (H.commitUpdates ses) s.cache := by
  have hrest : ∀ ses : Ses, Returns (do
      onCache (H.commitUpdates ses)
      pure CacheResponse.ackDoneUpdateTriples) s ↔ Returns (H.commitUpdates ses) s.cache :=
    fun ses => (returns_then fun _ _ => ⟨_, _, rfl⟩).trans returns_onCache
  rw [processDoneUpdateTriples, returns_bind]
  constructor
  · rintro ⟨ses, s', h1, h2⟩
    obtain ⟨hf, rfl⟩ := (getUpdater_eq_ok h).1 h1
    exact ⟨ses, hf, (hrest ses).1 h2⟩
  · rintro ⟨ses, hf, h2⟩
    exact ⟨ses, s, (getUpdater_eq_ok h).2 ⟨hf, rfl⟩, (hrest ses).2 h2⟩

theorem returns_processBatch (h : NoNull s) {u : ℤ} {toAdd toDelete : List TripleNodeId} :
    Returns (processUpdateTriplesBatch H u toAdd toDelete) s ↔ ∃ ses, s.updatersSessions.find? u = some (some ses) ∧
      Returns (applyTriples H.addTriple toAdd ses >>= applyTriples H.deleteTriple toDelete) s.cache := by
  have hrest : ∀ ses : Ses, Returns (do
      let updater ← onCache (applyTriples H.addTriple toAdd ses)
      let updater ← onCache (applyTriples H.deleteTriple toDelete updater)
      Act.modify fun s => { s with updatersSessions := s.updatersSessions.insert u (some updater) }
      pure (CacheResponse.batchReceived u)) s ↔
      Returns (applyTriples H.addTriple toAdd ses >>= applyTriples H.deleteTriple toDelete) s.cache := by
    refine fun ses => returns_onCache_bind fun _ _ => ?_
    exact (returns_then fun _ _ => ⟨_, _, rfl⟩).trans returns_onCache
  rw [processUpdateTriplesBatch, returns_bind]
  constructor
  · rintro ⟨ses, s', h1, h2⟩
    obtain ⟨hf, rfl⟩ := (getUpdater_eq_ok h).1 h1
    exact ⟨ses, hf, (hrest ses).1 h2⟩
  · rintro ⟨ses, hf, h2⟩
    exact ⟨ses, s, (getUpdater_eq_ok h).2 ⟨hf, rfl⟩, (hrest ses).2 h2⟩

theorem returns_processLock {ps : List UInt64} :
    Returns (processPredicatesLock H ps) s ↔ Returns (H.lockPredicates ps >>= H.initStreamerPredicates) s.cache := by
  refine returns_onCache_bind fun a k => ?_
  exact (returns_then fun _ _ => ⟨_, _, rfl⟩).trans returns_onCache

theorem returns_map {α β : Type} {x : Act Halt (CacheServerTaskProcessor κ Str Ses Bgp) α} {f : α → β} :
    Returns (f <$> x) s ↔ Returns x s :=
  returns_then (x := x) (f := fun a => pure (f a)) fun _ _ => ⟨_, _, rfl⟩

/-- **What a message needs to be processed**: its ids where they are not checked, and what
it asks for. -/
theorem returns_processNext (h : NoNull s) (m : CacheRequest) :
    Returns (processNext H m) s ↔ (Unchecked m → NamesOpen s m) ∧ PartsReturn H s m := by
  cases m with
  | connectionEnd => exact ⟨fun _ => ⟨nofun, trivial⟩, fun _ => ⟨_, _, rfl⟩⟩
  | cacheRequestSeparatePredicates ps =>
    rw [processNext, returns_map, returns_processLock]
    exact ⟨fun h => ⟨nofun, h⟩, And.right⟩
  | streamRequestTriplePattern c node =>
    rw [processNext, returns_map, returns_processStreamRequest h]
    constructor
    · rintro ⟨t, hf, hr⟩
      refine ⟨fun _ => h.streamers.find?.2 ⟨t, hf⟩, fun t' hf' => ?_⟩
      obtain rfl := Option.some.inj (Option.some.inj (hf.symm.trans hf'))
      exact hr
    · rintro ⟨ho, hr⟩
      obtain ⟨t, hf⟩ := h.streamers.find?.1 (ho trivial)
      exact ⟨t, hf, hr t hf⟩
  | streamContinueTriplePattern c p =>
    rw [processNext, returns_map, returns_processStreamContinue h]
    constructor
    · rintro ⟨t, st, hf, hp, hr⟩
      refine ⟨fun _ => ⟨t, hf, (h.patterns c t hf).find?.2 ⟨st, hp⟩⟩, fun t' st' hf' hp' => ?_⟩
      obtain rfl := Option.some.inj (Option.some.inj (hf.symm.trans hf'))
      obtain rfl := Option.some.inj (Option.some.inj (hp.symm.trans hp'))
      exact hr
    · rintro ⟨ho, hr⟩
      obtain ⟨t, hf, hc⟩ := ho trivial
      obtain ⟨st, hp⟩ := (h.patterns c t hf).find?.1 hc
      exact ⟨t, st, hf, hp, hr t st hf hp⟩
  | doneWithPredicatesNotify c => exact ⟨fun _ => ⟨nofun, trivial⟩, fun _ => ⟨_, _, rfl⟩⟩
  | cacheRequestStartUpdateTriples => exact ⟨fun _ => ⟨nofun, trivial⟩, fun _ => ⟨_, _, rfl⟩⟩
  | cacheDoneUpdateTriples u =>
    rw [processNext, returns_map, returns_processDoneUpdate h]
    constructor
    · rintro ⟨ses, hf, hr⟩
      refine ⟨fun _ => h.updaters.find?.2 ⟨ses, hf⟩, fun ses' hf' => ?_⟩
      obtain rfl := Option.some.inj (Option.some.inj (hf.symm.trans hf'))
      exact hr
    · rintro ⟨ho, hr⟩
      obtain ⟨ses, hf⟩ := h.updaters.find?.1 (ho trivial)
      exact ⟨ses, hf, hr ses hf⟩
  | triplesUpdateBatch u toAdd toDelete =>
    rw [processNext, returns_map, returns_processBatch h]
    constructor
    · rintro ⟨ses, hf, hr⟩
      refine ⟨fun _ => h.updaters.find?.2 ⟨ses, hf⟩, fun ses' hf' => ?_⟩
      obtain rfl := Option.some.inj (Option.some.inj (hf.symm.trans hf'))
      exact hr
    · rintro ⟨ho, hr⟩
      obtain ⟨ses, hf⟩ := h.updaters.find?.1 (ho trivial)
      exact ⟨ses, hf, hr ses hf⟩
  | syncLogsWithIndexesRequest =>
    have hsync : Returns (processSyncLogsWithIndexes H) s ↔ Returns H.syncToPersistent s.cache :=
      (returns_then fun _ _ => ⟨_, _, rfl⟩).trans returns_onCache
    rw [processNext, returns_map, hsync]
    exact ⟨fun h => ⟨nofun, h⟩, And.right⟩
  | requestBgpJoin names patterns small =>
    have hbgp : Returns (processRequestBgpJoin H (bgpMessageOf names patterns small)) s ↔
        PartsReturn H s (.requestBgpJoin names patterns small) :=
      returns_sendBatch (s := { s with currentBgpStreamersChannelId := s.currentBgpStreamersChannelId + 1 })
    rw [processNext, returns_map, hbgp]
    exact ⟨fun h => ⟨nofun, h⟩, And.right⟩
  | requestMoreBgpJoin c =>
    rw [processNext, returns_map]
    cases hf : s.bgpStreamersMap.find? c with
    | none =>
      -- the channel is looked up, and the answer says that it is not there
      refine ⟨fun _ => ⟨nofun, fun st hst => absurd hst (by simp [hf])⟩, fun _ => ?_⟩
      simp only [processRequestMoreBgpJoin, Returns, Act.get_bind, hf]
      exact ⟨_, _, rfl⟩
    | some st =>
      have hmore : Returns (processRequestMoreBgpJoin H c) s ↔ Returns (H.getNextMessage st) s.cache := by
        rw [processRequestMoreBgpJoin, returns_get_bind, hf]
        exact returns_sendBatch
      rw [hmore]
      refine ⟨fun hr => ⟨nofun, fun st' hst' => ?_⟩, fun hr => hr.2 st hf⟩
      obtain rfl := Option.some.inj (hf.symm.trans hst')
      exact hr
  | cancelQuery c => exact ⟨fun _ => ⟨nofun, trivial⟩, fun _ => ⟨_, _, rfl⟩⟩
  | unknown => exact ⟨fun _ => ⟨nofun, trivial⟩, fun _ => ⟨_, _, rfl⟩⟩

/-- A message of a known type that is processed is answered. -/
theorem answered_of_known {m : CacheRequest} {r : Option CacheResponse} (hm : m ≠ .unknown)
    (hr : processNext H m s = (.ok r, s')) : ∃ response, r = some response := by
  cases m with
  | connectionEnd => exact ⟨_, (Except.ok.inj (Prod.mk.inj hr).1).symm⟩
  | unknown => exact absurd rfl hm
  | _ =>
    obtain ⟨a, -, ha⟩ := map_eq_ok hr
    exact ⟨a, ha.symm⟩

/-- Where an id is not open, nothing is written to the tables. -/
theorem sameTables_of_not_open {m : CacheRequest} {r : Option CacheResponse} (hr : processNext H m s = (.ok r, s'))
    (hu : ¬ Unchecked m) (hn : ¬ NamesOpen s m) : SameTables s s' := by
  cases m with
  | doneWithPredicatesNotify c =>
    obtain ⟨a, hr, -⟩ := map_eq_ok hr
    have hs' : s' = cleanTripleStreamer H c s := (congrArg Prod.snd hr).symm
    rw [hs']
    refine ⟨OrdMap.ext_find? fun c' => ?_, rfl, rfl⟩
    have hc : s.triplesStreamerMap.find? c = none := by
      rw [← OrdMap.contains_eq_false, Bool.eq_false_iff]
      exact hn
    simp only [cleanTripleStreamer, find?_insert_erase]
    split
    · rename_i he
      rw [he, hc]
    · rfl
  | requestMoreBgpJoin c =>
    obtain ⟨a, hr, -⟩ := map_eq_ok hr
    have hc : s.bgpStreamersMap.find? c = none := by
      rw [← OrdMap.contains_eq_false, Bool.eq_false_iff]
      exact hn
    rw [processRequestMoreBgpJoin, Act.get_bind, hc] at hr
    obtain ⟨-, rfl⟩ := Prod.mk.inj hr
    exact ⟨rfl, rfl, rfl⟩
  | cancelQuery c =>
    obtain ⟨a, hr, -⟩ := map_eq_ok hr
    have hc : s.bgpStreamersMap.find? c = none := by
      rw [← OrdMap.contains_eq_false, Bool.eq_false_iff]
      exact hn
    simp only [processRequestCancelQuery, Act.modify_bind, hc] at hr
    obtain ⟨-, rfl⟩ := Prod.mk.inj hr
    exact ⟨rfl, rfl, rfl⟩
  | streamRequestTriplePattern c node => exact absurd trivial hu
  | streamContinueTriplePattern c p => exact absurd trivial hu
  | cacheDoneUpdateTriples u => exact absurd trivial hu
  | triplesUpdateBatch u toAdd toDelete => exact absurd trivial hu
  | _ => exact absurd trivial hn

/-- **One message.** -/
theorem handled_iff_answerable (h : NoNull s) (m : CacheRequest) : Handled H s m ↔ Answerable H s m := by
  constructor
  · rintro ⟨r, s', hr, -⟩
    obtain ⟨ho, hp⟩ := (returns_processNext h m).1 ⟨_, _, hr⟩
    refine ⟨?_, ho, hp⟩
    rintro rfl
    cases (Prod.mk.inj hr).1
  · rintro ⟨hk, ho, hp⟩
    obtain ⟨r, s', hr⟩ := (returns_processNext h m).2 ⟨ho, hp⟩
    obtain ⟨response, rfl⟩ := answered_of_known hk hr
    refine ⟨response, s', hr, fun hn => ?_⟩
    by_cases hu : Unchecked m
    · exact absurd (ho hu) hn
    · exact sameTables_of_not_open hr hu hn

theorem step_eq_some {m : CacheRequest} (hs : (messageMachine H).step s m = some s') :
    ∃ r, processNext H m s = (.ok r, s') := by
  unfold messageMachine at hs
  simp only at hs
  split at hs
  · rename_i r s₁ hr
    exact ⟨r, Option.some.inj hs ▸ hr⟩
  · cases hs

/-- Over the messages of a run. -/
theorem meets_handled_iff (h : NoNull s) (ms : List CacheRequest) :
    (messageMachine H).Meets (Handled H) ms s ↔ (messageMachine H).Meets (Answerable H) ms s := by
  induction ms generalizing s with
  | nil => exact Iff.rfl
  | cons m ms ih =>
    refine and_congr (handled_iff_answerable h m) (forall_congr' fun s' => imp_congr_right fun hs => ?_)
    obtain ⟨r, hr⟩ := step_eq_some hs
    exact ih (processNext_noNull h hr)

/-- **Messages with unknown ids.** From the start of a server, whatever its streamers,
sessions and cache do: all messages are answered, and none with an id that is not open
changes a table, exactly if each is of a known type, names open ids where these are not
checked, and what it asks for returns. -/
theorem handled_iff (H : ServerParts κ Str Ses Bgp) (k : κ) (ms : List CacheRequest) :
    (messageMachine H).Meets (Handled H) ms (construct k) ↔ (messageMachine H).Meets (Answerable H) ms (construct k) :=
  meets_handled_iff (noNull_construct k) ms

end ServerTask

open PointTree in
/-- A manager over `indexDisk`, with some node ids. -/
def PointTree.container : CacheContainerImpl PointTree :=
  ⟨Manager.openIndex indexDisk, ⟨indexDisk, ⟨⟨[]⟩, .construct (.ofList [(1, 1), (5, 5)]), 5, 0⟩⟩⟩

/-- The parts of a server over `PointTree`. -/
def PointTree.serverParts := CacheContainerImpl.parts (PointTree.cacheParams .binary) ⟨1000, 0, false, fun _ => false, 0⟩ 0 false

open PointTree CacheServerTaskProcessor in
/-- A client asks for more after the last part: the pattern is no longer there. -/
theorem ServerTask.handled_fails : ¬ (messageMachine serverParts).Meets (ServerTask.Handled serverParts)
    [.cacheRequestSeparatePredicates [5], .streamRequestTriplePattern 0 ⟨nodeAny, 5, nodeAny⟩,
      .streamContinueTriplePattern 0 0] (construct container) := by
  intro h
  obtain ⟨s, hrun, herr⟩ : ∃ s, (messageMachine serverParts).run
      [.cacheRequestSeparatePredicates [5], .streamRequestTriplePattern 0 ⟨nodeAny, 5, nodeAny⟩] (construct container) = some s ∧
      (ServerTask.processNext serverParts (.streamContinueTriplePattern 0 0) s).1 = .error (.thrown .nullDereference) :=
    ⟨_, rfl, rfl⟩
  have hlast := (Machine.Meets.append_iff.1 (show (messageMachine serverParts).Meets _ ([.cacheRequestSeparatePredicates [5],
    .streamRequestTriplePattern 0 ⟨nodeAny, 5, nodeAny⟩] ++ [.streamContinueTriplePattern 0 0]) _ from h)).2 s hrun
  obtain ⟨r, s', hr, -⟩ := hlast.1
  rw [hr] at herr
  cases herr

end K2Cache
