import K2Cache.Proof.Commits
import K2Cache.Proof.RealRows
import K2Cache.Proof.ServerIds

/-!
# What the messages of the clients leave

One server takes the messages of all clients. Those of the update sessions act on it as they act on
the server of `serverMachine` (`Simulates`), and no other message changes what is served: not the
streams, not the queries, and not a synchronisation whose compaction keeps the net updates.

`messageRun`: in every state that a run of messages reaches, the triples that are served are those
that the commits of the run leave.
-/

namespace K2Cache

open Lib ServerTask CacheServerTaskProcessor

variable {T : Type} {P : CacheParams T}

/-- What a message does to the update sessions. -/
def CacheRequest.cmds : CacheRequest → List ServerCmd
  | .cacheRequestStartUpdateTriples => [.beginUpdateSession]
  | .triplesUpdateBatch updateId toAdd toDelete => [.updateTriplesBatch updateId toAdd toDelete]
  | .cacheDoneUpdateTriples updateId => [.doneUpdateTriples updateId]
  | _ => []

/-- The server of the messages. -/
abbrev MessageServer (T : Type) : Type :=
  CacheServerTaskProcessor (CacheContainerImpl T) (TriplePatternMatchingStreamer T) (UpdaterSession T) (BGPStreamer T)

/-- **The sessions of the server** are those of the server without streams and queries. -/
structure Simulates (s : MessageServer T) (srv : Server T) : Prop where
  manager : srv.manager = s.cache.manager
  nodeIds : srv.nodeIds = s.cache.nodeIds
  current : srv.currentUpdateSessionId = s.currentUpdateSessionId
  sessions : ∀ id ss, srv.updatersSessions.find? id = some ss ↔ s.updatersSessions.find? id = some (some ss)

/-- A streamer is asked for its next message, on the cache as it is. -/
def askStreamer (P : CacheParams T) (fuel : ℕ) (streamer : BGPStreamer T) :
    Act Halt (CacheContainerImpl T) (BGPJoinResponse × BGPStreamer T) := fun c =>
  match BGPStreamer.getNextMessage P.ops (c.view P) fuel streamer with
  | (.ok r, streamer) => (.ok (r, streamer), c)
  | (.error e, _) => (.error e, c)

/-- The trees of the query are fetched before it is run. -/
theorem getNextMessage_eq (timeControl : TimeControl) (fuel : ℕ) (uninit : Bool) (streamer : BGPStreamer T) :
    (CacheContainerImpl.parts P timeControl fuel uninit).getNextMessage streamer = (do
      let c ← Act.get
      if streamer.queryIterator.isNone then do
        CacheContainerImpl.fetchAll P
          (streamer.bgpMessage.patterns.map fun t => (t.resolve c.nodeIds.manager.getId).predicate.cacheNodeId)
        askStreamer P fuel streamer
      else askStreamer P fuel streamer) := rfl

/-! ## The cache -/

theorem onManager_ok {α : Type} {x : Act Exn (Manager T) α} {c : CacheContainerImpl T} {a : α} {m : Manager T}
    (h : x c.manager = (.ok a, m)) : CacheContainerImpl.onManager x c = (.ok a, { c with manager := m }) := by
  unfold CacheContainerImpl.onManager orHalt Act.focus
  simp only [h]
  rfl

/-- A call of the manager that returned. -/
theorem onManager_eq_ok {α : Type} {x : Act Exn (Manager T) α} {c k : CacheContainerImpl T} {a : α}
    (h : CacheContainerImpl.onManager x c = (.ok a, k)) : ∃ m, x c.manager = (.ok a, m) ∧ k = { c with manager := m } := by
  obtain ⟨h1, h2⟩ := Prod.mk.inj h
  refine ⟨(x c.manager).2, Prod.ext ?_ rfl, h2.symm⟩
  have hmap : (x c.manager).1.mapError Halt.thrown = .ok a := h1
  cases hx : (x c.manager).1 with
  | ok b =>
    rw [hx] at hmap
    obtain rfl : b = a := Except.ok.inj hmap
    rfl
  | error e =>
    rw [hx] at hmap
    cases hmap

/-- The node ids are these, and the manager holds the store. -/
def CacheHolds (P : CacheParams T) (e : NodeIdsEnv) (store : Store) (c : CacheContainerImpl T) : Prop :=
  c.nodeIds = e ∧ HoldsStore P c.manager store

/-- The sessions and the ids are these, and the manager holds the store. -/
def ServerHolds (P : CacheParams T) (U : OrdMap ℤ (Option (UpdaterSession T))) (cur : ℤ) (e : NodeIdsEnv) (store : Store)
    (s : MessageServer T) : Prop :=
  s.updatersSessions = U ∧ s.currentUpdateSessionId = cur ∧ CacheHolds P e store s.cache

section Keeps

variable {U : OrdMap ℤ (Option (UpdaterSession T))} {cur : ℤ} {e : NodeIdsEnv} {store : Store}

theorem keeps_onCache {α : Type} {x : Act Halt (CacheContainerImpl T) α} (hx : Act.Keeps (CacheHolds P e store) x) :
    Act.Keeps (ServerHolds P U cur e store) (onCache x : Act Halt (MessageServer T) α) := by
  rintro s ⟨hU, hcur, hc⟩
  exact ⟨hU, hcur, hx s.cache hc⟩

/-- What is written to the tables of the streams and the queries. -/
theorem keeps_tables {f : MessageServer T → MessageServer T}
    (hf : ∀ s, (f s).cache = s.cache ∧ (f s).updatersSessions = s.updatersSessions ∧
      (f s).currentUpdateSessionId = s.currentUpdateSessionId) :
    Act.Keeps (ServerHolds P U cur e store) (Act.modify f : Act Halt (MessageServer T) Unit) := by
  rintro s ⟨hU, hcur, hc⟩
  obtain ⟨h1, h2, h3⟩ := hf s
  refine ⟨h2.trans hU, h3.trans hcur, ?_⟩
  show CacheHolds P e store (f s).cache
  rw [h1]
  exact hc

theorem keeps_deref {σ α : Type} {I : σ → Prop} (o : Option α) : Act.Keeps I (deref o) := by
  cases o with
  | none => exact Act.keeps_throw _
  | some a => exact Act.keeps_pure _

theorem keeps_map {α β : Type} {I : MessageServer T → Prop} {x : Act Halt (MessageServer T) α} (hx : Act.Keeps I x) (f : α → β) :
    Act.Keeps I (f <$> x) :=
  Act.Keeps.bind (x := x) (f := fun a => pure (f a)) hx fun _ => Act.keeps_pure _

theorem keeps_getTripleStreamer (channelId : ℤ) :
    Act.Keeps (ServerHolds P U cur e store) (getTripleStreamer channelId : Act Halt (MessageServer T) _) :=
  fun s h => keeps_deref (subscript s.triplesStreamerMap channelId).1 _ h

theorem keeps_getTriplePatternStreamer (channelId patternChannelId : ℤ)
    (t : TripleMatchesPartStreamer (TriplePatternMatchingStreamer T)) :
    Act.Keeps (ServerHolds P U cur e store)
      (getTriplePatternStreamer channelId t patternChannelId : Act Halt (MessageServer T) _) :=
  fun _ h => keeps_deref (subscript t.triplesStreamersMap patternChannelId).1 _ h

variable (hl : P.ops.Lawful)
include hl

theorem returns_fetch (p : UInt64) :
    Act.Returns (CacheHolds P e store) (CacheContainerImpl.onManager (Manager.fetchK2tree P p)) := by
  rintro c ⟨he, init, recs, h, rfl⟩
  obtain ⟨m, h1, h2, -⟩ := fetchK2tree_holds hl h p
  exact ⟨_, _, onManager_ok h1, he, init, recs, h2, rfl⟩

theorem returns_fetchAll (ps : List UInt64) : Act.Returns (CacheHolds P e store) (CacheContainerImpl.fetchAll P ps) := by
  induction ps with
  | nil => exact Act.returns_pure _
  | cons p ps ih =>
    unfold CacheContainerImpl.fetchAll
    split
    · exact Act.returns_pure _
    · refine (returns_fetch hl p).bind fun r => ?_
      split
      · exact ih
      · exact Act.returns_pure _

variable (timeControl : TimeControl) (fuel : ℕ) (uninit : Bool)

theorem keeps_streamer (channelId patternChannelId : ℤ) (node : TripleNodeId) :
    Act.Keeps (CacheHolds P e store)
      ((CacheContainerImpl.parts P timeControl fuel uninit).streamer channelId patternChannelId node) :=
  Act.keeps_get.bind fun _ => (returns_fetch hl _).keeps.bind fun _ => Act.keeps_pure _

omit hl in
theorem keeps_getNextResponse (streamer : TriplePatternMatchingStreamer T) :
    Act.Keeps (CacheHolds P e store) ((CacheContainerImpl.parts P timeControl fuel uninit).getNextResponse streamer) := by
  intro c hc
  unfold CacheContainerImpl.parts
  dsimp only
  split
  · exact hc
  · exact hc

theorem keeps_getNextMessage (streamer : BGPStreamer T) :
    Act.Keeps (CacheHolds P e store) ((CacheContainerImpl.parts P timeControl fuel uninit).getNextMessage streamer) := by
  have hask : Act.Keeps (CacheHolds P e store) (askStreamer P fuel streamer) := by
    intro c hc
    unfold askStreamer
    split
    · exact hc
    · exact hc
  rw [getNextMessage_eq]
  refine Act.keeps_get.bind fun c => ?_
  split
  · exact (returns_fetchAll hl _).keeps.bind fun _ => hask
  · exact hask

omit hl in
theorem keeps_sendPart (channelId patternChannelId : ℤ) (t : TripleMatchesPartStreamer (TriplePatternMatchingStreamer T))
    (streamer : TriplePatternMatchingStreamer T) :
    Act.Keeps (ServerHolds P U cur e store)
      (sendPart (CacheContainerImpl.parts P timeControl fuel uninit) channelId patternChannelId t streamer) := by
  refine (keeps_onCache (keeps_getNextResponse timeControl fuel uninit streamer)).bind fun _ => ?_
  refine Act.Keeps.bind (keeps_tables fun s => ?_) fun _ => Act.keeps_pure _
  exact ⟨rfl, rfl, rfl⟩

theorem keeps_sendBatch (channelId : ℤ) (streamer : BGPStreamer T) :
    Act.Keeps (ServerHolds P U cur e store)
      (sendBatch (CacheContainerImpl.parts P timeControl fuel uninit) channelId streamer) := by
  refine (keeps_onCache (keeps_getNextMessage hl timeControl fuel uninit streamer)).bind fun r => ?_
  refine Act.Keeps.bind (keeps_tables fun s => ?_) fun _ => Act.Keeps.bind (keeps_tables fun s => ?_) fun _ => Act.keeps_pure _
  · exact ⟨rfl, rfl, rfl⟩
  · split
    · exact ⟨rfl, rfl, rfl⟩
    · exact ⟨rfl, rfl, rfl⟩

end Keeps

section Messages

variable {s s' : MessageServer T} {srv : Server T} {timeControl : TimeControl} {fuel : ℕ} {uninit : Bool}
  {r : Option CacheResponse}

/-! ## The other messages -/

/-- **A message that is none of a session** changes nothing that is served. -/
theorem keeps_processNext {U : OrdMap ℤ (Option (UpdaterSession T))} {cur : ℤ} {e : NodeIdsEnv} {store : Store}
    (hl : P.ops.Lawful) (m : CacheRequest) (hm : m.cmds = []) (hsync : m ≠ .syncLogsWithIndexesRequest) :
    Act.Keeps (ServerHolds P U cur e store) (processNext (CacheContainerImpl.parts P timeControl fuel uninit) m) := by
  cases m with
  | connectionEnd => exact Act.keeps_pure _
  | cacheRequestSeparatePredicates predicates =>
    refine keeps_map ?_ some
    refine (keeps_onCache fun _ h => h).bind fun loaded => (keeps_onCache (Act.keeps_pure _)).bind fun _ => ?_
    refine Act.keeps_get.bind fun s => Act.Keeps.bind (keeps_tables fun s => ?_) fun _ => Act.keeps_pure _
    exact ⟨rfl, rfl, rfl⟩
  | streamRequestTriplePattern channelId node =>
    refine keeps_map ((keeps_getTripleStreamer channelId).bind fun t => ?_) some
    exact (keeps_onCache (keeps_streamer hl timeControl fuel uninit _ _ node)).bind fun streamer =>
      keeps_sendPart timeControl fuel uninit _ _ _ streamer
  | streamContinueTriplePattern channelId patternChannelId =>
    refine keeps_map ((keeps_getTripleStreamer channelId).bind fun t => ?_) some
    exact (keeps_getTriplePatternStreamer channelId patternChannelId t).bind fun streamer =>
      keeps_sendPart timeControl fuel uninit _ _ _ streamer
  | doneWithPredicatesNotify channelId =>
    refine keeps_map (Act.Keeps.bind (keeps_tables fun s => ?_) fun _ => Act.keeps_pure _) some
    refine ⟨?_, rfl, rfl⟩
    unfold cleanTripleStreamer
    dsimp only
    split
    · rfl
    · split
      · rfl
      · rfl
  | requestBgpJoin names patterns small =>
    refine keeps_map (Act.Keeps.bind (keeps_tables fun s => ?_) fun _ => ?_) some
    · exact ⟨rfl, rfl, rfl⟩
    · exact Act.keeps_get.bind fun s => keeps_sendBatch hl timeControl fuel uninit _ _
  | requestMoreBgpJoin channelId =>
    refine keeps_map (Act.keeps_get.bind fun s => ?_) some
    cases s.bgpStreamersMap.find? channelId with
    | none => exact Act.keeps_pure _
    | some streamer => exact keeps_sendBatch hl timeControl fuel uninit channelId streamer
  | cancelQuery channelId =>
    refine keeps_map (Act.Keeps.bind (keeps_tables fun s => ?_) fun _ => Act.keeps_pure _) some
    split
    · exact ⟨rfl, rfl, rfl⟩
    · exact ⟨rfl, rfl, rfl⟩
  | unknown => exact Act.keeps_pure _
  | syncLogsWithIndexesRequest => exact absurd rfl hsync
  | cacheRequestStartUpdateTriples => cases hm
  | cacheDoneUpdateTriples updateId => cases hm
  | triplesUpdateBatch updateId toAdd toDelete => cases hm

/-- A synchronisation that keeps the net updates does not either. -/
theorem sync_holds {U : OrdMap ℤ (Option (UpdaterSession T))} {cur : ℤ} {e : NodeIdsEnv} {store : Store}
    (hl : P.ops.Lawful) (hpos : ∀ t, 0 < P.ops.measure t) (hsized : ∀ t, P.ops.measure t < 2 ^ 63)
    (h : ServerHolds P U cur e store s) (hnet : Manager.CompactsWell P s.cache.manager)
    (hstep : processNext (CacheContainerImpl.parts P timeControl fuel uninit) .syncLogsWithIndexesRequest s = (.ok r, s')) :
    ServerHolds P U cur e store s' := by
  obtain ⟨a, hr, -⟩ := map_eq_ok hstep
  obtain ⟨_, s₁, h1, h2⟩ := Act.bind_eq_ok hr
  obtain ⟨k, hk, rfl⟩ := onCache_eq_ok h1
  have hs' : s' = { s with cache := k } := (congrArg Prod.snd h2).symm
  obtain ⟨hU, hcur, he, init, recs, hm, rfl⟩ := h
  obtain ⟨m', h3, h4, -⟩ := fullSync_inv hl hpos hsized hm hnet
  obtain ⟨m, h5, rfl⟩ := onManager_eq_ok hk
  obtain ⟨-, rfl⟩ := Prod.mk.inj (h3.symm.trans h5)
  rw [hs']
  exact ⟨hU, hcur, he, _, _, h4, served_nil _⟩

/-! ## The messages of the sessions -/

/-- The calls of a batch, one triple after the other. -/
theorem applyTriples_eq {f : UpdaterSession T × NodeIdsEnv → TripleNodeId → UpdaterSession T × NodeIdsEnv}
    {g : UpdaterSession T → TripleNodeId → Act Halt (CacheContainerImpl T) (UpdaterSession T)}
    (hg : ∀ ss t c, g ss t c = (.ok (f (ss, c.nodeIds) t).1, { c with nodeIds := (f (ss, c.nodeIds) t).2 }))
    (ts : List TripleNodeId) (ss : UpdaterSession T) (c : CacheContainerImpl T) :
    applyTriples g ts ss c = (.ok (ts.foldl f (ss, c.nodeIds)).1, { c with nodeIds := (ts.foldl f (ss, c.nodeIds)).2 }) := by
  induction ts generalizing ss c with
  | nil => rfl
  | cons t ts ih => rw [applyTriples, Act.bind_ok (hg ss t c), ih, List.foldl_cons]

/-- **A message of a session** does what its command does. -/
theorem Simulates.step (h : Simulates s srv) (hnull : NoNull s) (m : CacheRequest) (hm : m.cmds ≠ [])
    (hstep : processNext (CacheContainerImpl.parts P timeControl fuel uninit) m s = (.ok r, s')) :
    ∃ srv', (serverMachine P).run m.cmds srv = some srv' ∧ Simulates s' srv' ∧
      (P.logMode.app = true → (serverMachine P).Meets (fun srv c => c.Ready P srv) m.cmds srv) := by
  cases m with
  | cacheRequestStartUpdateTriples =>
    obtain ⟨a, hr, -⟩ := map_eq_ok hstep
    have hs' : s' = { s with
        updatersSessions := s.updatersSessions.insert s.currentUpdateSessionId (some .construct)
        currentUpdateSessionId := s.currentUpdateSessionId + 1 } := (congrArg Prod.snd hr).symm
    refine ⟨srv.beginUpdateSession.2, rfl, ?_, fun _ => ⟨trivial, fun _ _ => trivial⟩⟩
    rw [hs']
    refine ⟨h.manager, h.nodeIds, congrArg (· + 1) h.current, fun id ss => ?_⟩
    simp only [Server.beginUpdateSession, OrdMap.find?_insert, h.current]
    split
    · simp only [Option.some.injEq]
    · exact h.sessions id ss
  | triplesUpdateBatch updateId toAdd toDelete =>
    obtain ⟨a, hr, -⟩ := map_eq_ok hstep
    obtain ⟨ss, s₁, h1, h2⟩ := Act.bind_eq_ok hr
    obtain ⟨hf, rfl⟩ := (getUpdater_eq_ok hnull).1 h1
    have hss : srv.updatersSessions.find? updateId = some ss := (h.sessions updateId ss).2 hf
    set st := toAdd.foldl (UpdaterSession.addTriple P.ops) (ss, s₁.cache.nodeIds) with hst
    set st' := toDelete.foldl (UpdaterSession.deleteTriple P.ops) st with hst'
    have hadd : onCache (applyTriples (CacheContainerImpl.parts P timeControl fuel uninit).addTriple toAdd ss) s₁ =
        (.ok st.1, { s₁ with cache := { s₁.cache with nodeIds := st.2 } }) :=
      onCache_ok (applyTriples_eq (f := UpdaterSession.addTriple P.ops) (fun _ _ _ => rfl) toAdd ss s₁.cache)
    have hdelete : onCache (applyTriples (CacheContainerImpl.parts P timeControl fuel uninit).deleteTriple toDelete st.1)
        { s₁ with cache := { s₁.cache with nodeIds := st.2 } } =
        (.ok st'.1, { s₁ with cache := { s₁.cache with nodeIds := st'.2 } }) :=
      onCache_ok (applyTriples_eq (f := UpdaterSession.deleteTriple P.ops) (fun _ _ _ => rfl) toDelete st.1 _)
    rw [Act.bind_ok hadd, Act.bind_ok hdelete] at h2
    have hs' : s' = { s₁ with
        cache := { s₁.cache with nodeIds := st'.2 }
        updatersSessions := s₁.updatersSessions.insert updateId (some st'.1) } := (congrArg Prod.snd h2).symm
    have hcall : (serverMachine P).step srv (.updateTriplesBatch updateId toAdd toDelete) = some { srv with
        updatersSessions := srv.updatersSessions.insert updateId st'.1, nodeIds := st'.2 } := by
      simp only [serverMachine, ServerCmd.call, Server.processUpdateTriplesBatch, hss, h.nodeIds]
      rfl
    refine ⟨_, by rw [CacheRequest.cmds, Machine.run, hcall]; rfl, ?_, fun _ => ⟨?_, fun _ _ => trivial⟩⟩
    · rw [hs']
      refine ⟨h.manager, rfl, h.current, fun id ss => ?_⟩
      simp only [OrdMap.find?_insert]
      split
      · simp only [Option.some.injEq]
      · exact h.sessions id ss
    · exact (OrdMap.contains_iff _).2 ⟨ss, hss⟩
  | cacheDoneUpdateTriples updateId =>
    obtain ⟨a, hr, -⟩ := map_eq_ok hstep
    obtain ⟨ss, s₁, h1, h2⟩ := Act.bind_eq_ok hr
    obtain ⟨hf, rfl⟩ := (getUpdater_eq_ok hnull).1 h1
    have hss : srv.updatersSessions.find? updateId = some ss := (h.sessions updateId ss).2 hf
    obtain ⟨_, s₂, h3, h4⟩ := Act.bind_eq_ok h2
    obtain ⟨k, hk, rfl⟩ := onCache_eq_ok h3
    obtain ⟨m, hlog, rfl⟩ := onManager_eq_ok hk
    have hs' : s' = { s₁ with cache := { s₁.cache with manager := m } } := (congrArg Prod.snd h4).symm
    have hcall : (serverMachine P).step srv (.doneUpdateTriples updateId) = some { srv with manager := m } := by
      simp only [serverMachine, ServerCmd.call, Server.processDoneUpdateTriples, hss, h.manager, hlog]
    refine ⟨_, by rw [CacheRequest.cmds, Machine.run, hcall]; rfl, ?_, fun happ => ⟨⟨?_, .inl happ⟩, fun _ _ => trivial⟩⟩
    · rw [hs']
      exact ⟨rfl, h.nodeIds, h.current, h.sessions⟩
    · exact (OrdMap.contains_iff _).2 ⟨ss, hss⟩
  | _ => exact absurd rfl hm

/-! ## Runs -/

/-- What is served is what the records leave. -/
theorem target_eq {init : Store} (recs : Records T) (p : UInt64) :
    recs.target P.ops init p = (recs.served P.ops init p).getD ∅ := by
  by_cases hk : init p = none ∧ recs p = []
  · simp [Records.served, Records.target, Records.patches, hk]
  · rw [Records.served, if_neg hk]
    rfl

/-- Another account of the same manager. -/
theorem ServerInv.of_cacheInv (hl : P.ops.Lawful) {init init' : Store} {recs recs' : Records T} {received : ℤ → List SessionOp}
    {n : ℕ} (h : ServerInv P init srv recs received n) (h' : CacheInv P init' srv.manager recs') :
    ServerInv P init' srv recs' received n := by
  refine ⟨h', h.ids, h.sessions, h.begun, h.unborn, fun p x hx => h.assigned p x ?_⟩
  exact (fetchK2tree_has_iff hl h.cache p x).1 ((fetchK2tree_has_iff hl h' p x).2 hx)

/-- A manager that holds the same store serves the same triples. -/
theorem ServerInv.setManager (hl : P.ops.Lawful) {init init' : Store} {recs recs' : Records T}
    {received : ℤ → List SessionOp} {n : ℕ} {m : Manager T} (h : ServerInv P init srv recs received n)
    (h' : CacheInv P init' m recs') (hserved : recs'.served P.ops init' = recs.served P.ops init) :
    ServerInv P init' { srv with manager := m } recs' received n ∧
      {t | Server.Present P { srv with manager := m } t} = {t | srv.Present P t} := by
  have htarget : ∀ p, recs'.target P.ops init' p = recs.target P.ops init p := by
    intro p
    rw [target_eq, target_eq, hserved]
  have hinv : ServerInv P init' { srv with manager := m } recs' received n := by
    refine ⟨h', h.ids, h.sessions, h.begun, h.unborn, fun p x hx => h.assigned p x ?_⟩
    rw [← htarget]
    exact hx
  refine ⟨hinv, ?_⟩
  ext t
  refine (hinv.present_iff hl t).trans ?_
  simp only [htarget]
  exact (h.present_iff hl t).symm

/-- **The invariant of the server**, with what the sessions have received and the triples that are
served. -/
structure MessageInv (P : CacheParams T) (s : MessageServer T) (L : (ℤ → List SessionOp) × Set TripleNodeId) (n : ℕ) : Prop where
  noNull : NoNull s
  serves : ∃ srv init recs, Simulates s srv ∧ ServerInv P init srv recs L.1 n ∧ Manager.Holds P init recs s.cache.manager ∧
    {t | srv.Present P t} = L.2

variable {L : (ℤ → List SessionOp) × Set TripleNodeId} {n : ℕ}

/-- What a message needs: the compaction of a synchronisation keeps the net updates. -/
def CacheRequest.Safe (P : CacheParams T) (s : MessageServer T) : CacheRequest → Prop
  | .syncLogsWithIndexesRequest => Manager.CompactsWell P s.cache.manager
  | _ => True

/-- A message that changes nothing that is served keeps the invariant. -/
theorem MessageInv.of_holds (hl : P.ops.Lawful) (h : MessageInv P s L n) (hnull : NoNull s')
    (hkeeps : ∀ U cur e store, ServerHolds P U cur e store s → ServerHolds P U cur e store s') : MessageInv P s' L n := by
  obtain ⟨srv, init, recs, hsim, hinv, hholds, hserved⟩ := h.serves
  obtain ⟨hU, hcur, he, init', recs', hholds', hstore⟩ :=
    hkeeps s.updatersSessions s.currentUpdateSessionId s.cache.nodeIds _ ⟨rfl, rfl, rfl, init, recs, hholds, rfl⟩
  obtain ⟨h1, h2⟩ := hinv.setManager hl hholds'.inv hstore
  refine ⟨hnull, _, init', recs', ⟨rfl, ?_, ?_, ?_⟩, h1, hholds', h2.trans hserved⟩
  · exact hsim.nodeIds.trans he.symm
  · exact hsim.current.trans hcur.symm
  · intro id ss
    rw [hU]
    exact hsim.sessions id ss

/-- A step of the server is a call that returns. -/
theorem serverMachine_step_eq {cmd : ServerCmd} {srv' : Server T} (h : (serverMachine P).step srv cmd = some srv') :
    ∃ u, cmd.call P srv = (.ok u, srv') := by
  unfold serverMachine at h
  dsimp only at h
  split at h
  · rename_i u srv₁ hcall
    obtain rfl := Option.some.inj h
    exact ⟨u, hcall⟩
  · cases h

section Run

variable (hl : P.ops.Lawful) (happ : P.logMode.app = true) (hpos : ∀ t, 0 < P.ops.measure t)
  (hsized : ∀ t, P.ops.measure t < 2 ^ 63)
include hl happ hpos hsized

/-- A command leaves a manager that holds a store. -/
theorem serverStep_holds {cmd : ServerCmd} {srv' : Server T} {store : Store} (h : HoldsStore P srv.manager store)
    (hstep : (serverMachine P).step srv cmd = some srv') : ∃ store', HoldsStore P srv'.manager store' := by
  -- a command of the manager is an operation of its life
  have hop : ∀ (op : CacheOp T) (e : Except Exn Unit) (m : Manager T), op.call P srv.manager = (e, m) →
      ∃ store', HoldsStore P m store' := by
    intro op e m hcall
    obtain ⟨m', h1, h2⟩ := lifetimeStep hl happ hpos hsized srv.manager store (.cache op) trivial h
    have hm : (cacheMachine P).step srv.manager op = some m' := h1
    unfold cacheMachine at hm
    simp only [hcall] at hm
    cases e with
    | ok u =>
      obtain rfl : m = m' := Option.some.inj hm
      exact ⟨_, h2⟩
    | error e => cases hm
  have hmanager : ∀ op : CacheOp T, (∃ u, ServerCmd.onManager (op.call P) srv = (.ok u, srv')) →
      ∃ store', HoldsStore P srv'.manager store' := by
    rintro op ⟨u, hcall⟩
    obtain ⟨-, hsrv⟩ := Prod.mk.inj hcall
    rw [← hsrv]
    exact hop op _ _ rfl
  cases cmd with
  | beginUpdateSession =>
    obtain rfl : srv.beginUpdateSession.2 = srv' := Option.some.inj hstep
    exact ⟨store, h⟩
  | updateTriplesBatch updateId toAdd toDelete =>
    simp only [serverMachine, ServerCmd.call, Server.processUpdateTriplesBatch] at hstep
    cases hf : srv.updatersSessions.find? updateId with
    | none => simp [hf] at hstep
    | some ss =>
      rw [hf] at hstep
      obtain rfl := Option.some.inj hstep
      exact ⟨store, h⟩
  | doneUpdateTriples updateId =>
    simp only [serverMachine, ServerCmd.call, Server.processDoneUpdateTriples] at hstep
    cases hf : srv.updatersSessions.find? updateId with
    | none => simp [hf] at hstep
    | some ss =>
      rw [hf] at hstep
      dsimp only at hstep
      split at hstep
      · rename_i u srv₁ hcall
        obtain rfl : srv₁ = srv' := Option.some.inj hstep
        obtain ⟨-, hsrv⟩ := Prod.mk.inj hcall
        rw [← hsrv]
        exact hop (.log ss.logUpdates) _ _ rfl
      · cases hstep
  | fetchK2tree p => exact hmanager (.fetchK2tree p) (serverMachine_step_eq hstep)
  | retrieveKey p => exact hmanager (.retrieveKey p) (serverMachine_step_eq hstep)
  | discardInMemoryPredicate p => exact hmanager (.discardInMemoryPredicate p) (serverMachine_step_eq hstep)
  | syncToPersistent => exact hmanager .syncToPersistent (serverMachine_step_eq hstep)

/-- **One message.** -/
theorem MessageInv.step {m : CacheRequest} (h : MessageInv P s L (n + newIds m.cmds)) (hsafe : m.Safe P s)
    (hstep : processNext (CacheContainerImpl.parts P timeControl fuel uninit) m s = (.ok r, s')) :
    MessageInv P s' (m.cmds.foldl follow L) n := by
  have hnull := processNext_noNull h.noNull hstep
  have hs' : (processNext (CacheContainerImpl.parts P timeControl fuel uninit) m s).2 = s' := by rw [hstep]
  by_cases hcmds : m.cmds = []
  · rw [hcmds] at h ⊢
    refine h.of_holds hl hnull fun U cur e store hholds => ?_
    by_cases hsync : m = .syncLogsWithIndexesRequest
    · subst hsync
      exact sync_holds hl hpos hsized hholds hsafe hstep
    · rw [← hs']
      exact keeps_processNext hl m hcmds hsync s hholds
  · obtain ⟨srv, init, recs, hsim, hinv, hholds, hserved⟩ := h.serves
    obtain ⟨srv', hrun, hsim', hready⟩ := hsim.step h.noNull m hcmds hstep
    obtain ⟨srv'', recs'', hrun'', hinv', hserved'⟩ := serverRun hl m.cmds hinv (hready happ)
    obtain rfl : srv' = srv'' := Option.some.inj (hrun.symm.trans hrun'')
    rw [hserved] at hinv' hserved'
    have hstart : ∃ store, HoldsStore P srv.manager store := ⟨_, init, recs, hsim.manager ▸ hholds, rfl⟩
    obtain ⟨store', init', recs', hholds', -⟩ := Machine.always (I := fun srv => ∃ store, HoldsStore P srv.manager store)
      (fun srv cmd srv' hcmd ⟨store, h⟩ => serverStep_holds hl happ hpos hsized h hcmd) hrun hstart
    exact ⟨hnull, srv', init', recs', hsim', hinv'.of_cacheInv hl hholds'.inv, hsim'.manager ▸ hholds', hserved'⟩

end Run

end Messages

end K2Cache
