import K2Cache.Proof.Sessions

/-!
# When commits do what was asked

The patch of a commit is not what the operations say one by one, and not what came since
the last commit.

* `lastWins_iff`: exactly when the last operation on each triple wins.
* `commits_fold`: sessions that have received nothing before their previous commit
  contribute to each commit what they have received since.
-/

namespace K2Cache

open Lib NodeIdsManager

variable {T : Type} {P : CacheParams T} {srv : Server T} {n : ℕ}

/-! ## The last operation -/

/-- Whether the last operation on a triple is an add; `none` if there is no operation on it. -/
def lastOp (ops : List SessionOp) (t : TripleNodeId) : Option Bool :=
  ops.foldl (fun b op => match op with
    | .add t' => if t' = t then some true else b
    | .del t' => if t' = t then some false else b) none

/-- **The last operation on each triple wins**: from `before` to `after`. -/
def LastWins (ops : List SessionOp) (before after : Set TripleNodeId) : Prop :=
  ∀ t, (lastOp ops t = some true → t ∈ after) ∧ (lastOp ops t = some false → t ∉ after) ∧
    (lastOp ops t = none → (t ∈ after ↔ t ∈ before))

/-- The deletes hit no other triple that is added or stored, and none that counts is
dropped or overtaken by an add. -/
def DeletesHit (ops : List SessionOp) (before : Set TripleNodeId) : Prop :=
  (∀ t, .del t ∈ ops → t.predicate ≠ 0 → t.subject ≠ 0 →
    lastOp ops (reflexive t) = some false ∨ lastOp ops (reflexive t) = none ∧ reflexive t ∉ before) ∧
  ∀ t, lastOp ops t = some false →
    t.object = t.subject ∧ t.subject ≠ 0 ∧ t.predicate ≠ 0 ∨ .add t ∉ ops ∧ t ∉ before

theorem lastOp_append (ops : List SessionOp) (op : SessionOp) (t : TripleNodeId) : lastOp (ops ++ [op]) t =
    match op with
    | .add t' => if t' = t then some true else lastOp ops t
    | .del t' => if t' = t then some false else lastOp ops t := by
  rw [lastOp, List.foldl_append]
  rfl

/-- The last operation on a triple is one that was received. -/
theorem lastOp_mem (ops : List SessionOp) (t : TripleNodeId) :
    (lastOp ops t = some true → .add t ∈ ops) ∧ (lastOp ops t = some false → .del t ∈ ops) ∧
      (lastOp ops t = none → .add t ∉ ops ∧ .del t ∉ ops) := by
  induction ops using List.reverseRecOn with
  | nil => simp [lastOp]
  | append_singleton ops op ih =>
    rw [lastOp_append]
    cases op with
    | add t' =>
      by_cases heq : t' = t
      · simp [heq]
      · simpa [heq, Ne.symm heq] using ih
    | del t' =>
      by_cases heq : t' = t
      · simp [heq]
      · simpa [heq, Ne.symm heq] using ih

/-- **When the last operation wins**, in terms of the triples. -/
theorem lastWins_patch_iff (ops : List SessionOp) (before : Set TripleNodeId) :
    LastWins ops before ((sessionPatch ops).apply before) ↔ DeletesHit ops before := by
  have hafter : ∀ t, t ∈ (sessionPatch ops).apply before ↔ (t ∈ before ∨ .add t ∈ ops) ∧
      ¬ ∃ t', .del t' ∈ ops ∧ t'.predicate ≠ 0 ∧ t'.subject ≠ 0 ∧ t = reflexive t' := fun t => Iff.rfl
  constructor
  · intro h
    refine ⟨fun t hdel hp hs => ?_, fun t hlast => ?_⟩
    · have hout : reflexive t ∉ (sessionPatch ops).apply before := by
        rw [hafter]
        rintro ⟨-, hnot⟩
        exact hnot ⟨t, hdel, hp, hs, rfl⟩
      obtain ⟨h1, -, h3⟩ := h (reflexive t)
      match hlast : lastOp ops (reflexive t) with
      | some true => exact absurd (h1 hlast) hout
      | some false => exact .inl rfl
      | none => exact .inr ⟨rfl, fun hb => hout ((h3 hlast).2 hb)⟩
    · have hout := (h t).2.1 hlast
      rw [hafter, not_and_or, not_or, not_not] at hout
      rcases hout with ⟨hb, ha⟩ | ⟨t', -, hp, hs, rfl⟩
      · exact .inr ⟨ha, hb⟩
      · exact .inl ⟨rfl, hs, hp⟩
  · rintro ⟨hhit, hdropped⟩ t
    obtain ⟨m1, m2, m3⟩ := lastOp_mem ops t
    refine ⟨fun hlast => ?_, fun hlast => ?_, fun hlast => ?_⟩
    · rw [hafter]
      refine ⟨.inr (m1 hlast), ?_⟩
      rintro ⟨t', hdel, hp, hs, rfl⟩
      rcases hhit t' hdel hp hs with h | ⟨h, -⟩ <;> rw [h] at hlast <;> cases hlast
    · rw [hafter, not_and_or, not_or, not_not]
      rcases hdropped t hlast with ⟨hos, hs, hp⟩ | ⟨ha, hb⟩
      · refine .inr ⟨t, m2 hlast, hp, hs, ?_⟩
        obtain ⟨s, q, o⟩ := t
        simp only at hos
        rw [reflexive, hos]
      · exact .inl ⟨hb, ha⟩
    · obtain ⟨hadd, -⟩ := m3 hlast
      rw [hafter]
      constructor
      · rintro ⟨hb | ha, -⟩
        · exact hb
        · exact absurd ha hadd
      · intro hb
        refine ⟨.inl hb, ?_⟩
        rintro ⟨t', hdel, hp, hs, rfl⟩
        rcases hhit t' hdel hp hs with h | ⟨-, h⟩
        · rw [h] at hlast
          cases hlast
        · exact h hb

/-- The requests of a session: its batches, then a commit. -/
def sessionCmds (id : ℤ) (batches : List (List TripleNodeId × List TripleNodeId)) : List ServerCmd :=
  batches.map (fun b => .updateTriplesBatch id b.1 b.2) ++ [.doneUpdateTriples id]

/-- What a session receives in its batches. -/
def sessionOps (batches : List (List TripleNodeId × List TripleNodeId)) : List SessionOp :=
  batches.flatMap fun b => batchOps b.1 b.2

theorem foldl_follow_batches (id : ℤ) (batches : List (List TripleNodeId × List TripleNodeId))
    (L : (ℤ → List SessionOp) × Set TripleNodeId) :
    ((batches.map fun b => .updateTriplesBatch id b.1 b.2).foldl follow L).2 = L.2 ∧
      ((batches.map fun b => .updateTriplesBatch id b.1 b.2).foldl follow L).1 id = L.1 id ++ sessionOps batches := by
  induction batches generalizing L with
  | nil => simp [sessionOps]
  | cons b batches ih =>
    obtain ⟨h1, h2⟩ := ih (follow L (.updateTriplesBatch id b.1 b.2))
    rw [List.map_cons, List.foldl_cons, h1, h2]
    refine ⟨by simp [follow, ServerCmd.patch, Patch.apply], ?_⟩
    simp [follow, ServerCmd.receive, sessionOps]

theorem foldl_follow_other (id : ℤ) (cmds : List ServerCmd)
    (hcmds : ∀ a d, ServerCmd.updateTriplesBatch id a d ∉ cmds) (L : (ℤ → List SessionOp) × Set TripleNodeId) :
    (cmds.foldl follow L).1 id = L.1 id := by
  induction cmds generalizing L with
  | nil => rfl
  | cons cmd cmds ih =>
    rw [List.foldl_cons, ih fun a d h => hcmds a d (List.mem_cons_of_mem _ h)]
    cases cmd with
    | updateTriplesBatch id' a d =>
      have hne : id ≠ id' := by
        rintro rfl
        exact hcmds a d List.mem_cons_self
      simp [follow, ServerCmd.receive, hne]
    | _ => rfl

theorem newIds_append (cmds cmds' : List ServerCmd) : newIds (cmds ++ cmds') = newIds cmds + newIds cmds' := by
  simp [newIds]

/-- What is served after a session that is new has sent its batches and committed. -/
theorem session_present (hl : P.ops.Lawful) {d : Disk} {nodesMap : NodesMap} {earlier : List ServerCmd} {id : ℤ}
    {batches : List (List TripleNodeId × List TripleNodeId)}
    (hd : ServerDisk P d nodesMap (newIds (earlier ++ sessionCmds id batches))) {uninit : ℤ} {srv₀ srv : Server T}
    (hcreate : Server.create P d uninit = .ok srv₀) (hrun : (serverMachine P).run earlier srv₀ = some srv)
    (hnew : ∀ a d, .updateTriplesBatch id a d ∉ earlier)
    (hready : (serverMachine P).Meets (fun s c => c.Ready P s) (earlier ++ sessionCmds id batches) srv₀) :
    ∃ srv', (serverMachine P).run (sessionCmds id batches) srv = some srv' ∧
      {t | srv'.Present P t} = (sessionPatch (sessionOps batches)).apply {t | srv.Present P t} := by
  obtain ⟨srv₁, hcreate₁, hinv₀⟩ := hd.create hl uninit
  rw [hcreate] at hcreate₁
  cases hcreate₁
  obtain ⟨hready₁, hready₂⟩ := Machine.Meets.append_iff.1 hready
  rw [newIds_append, Nat.add_comm] at hinv₀
  obtain ⟨srv₂, recs, hrun₂, hinv, -⟩ := serverRun hl earlier hinv₀ hready₁
  rw [hrun] at hrun₂
  cases hrun₂
  rw [← Nat.zero_add (newIds (sessionCmds id batches))] at hinv
  obtain ⟨srv', -, hrun', -, hpresent⟩ := serverRun hl (sessionCmds id batches) hinv (hready₂ srv hrun)
  refine ⟨srv', hrun', ?_⟩
  -- what the session has received when it commits
  have hstart := foldl_follow_other id earlier hnew ((fun _ => []), {t | srv₀.Present P t})
  obtain ⟨hstore, hreceived⟩ := foldl_follow_batches id batches
    ((earlier.foldl follow ((fun _ => []), {t | srv₀.Present P t})).1, {t | srv.Present P t})
  rw [hpresent, sessionCmds, List.foldl_append, List.foldl_cons, List.foldl_nil, follow]
  simp only [ServerCmd.patch, hstore, hreceived, hstart, List.nil_append]

/-- **The last operation of a session wins** exactly if its deletes hit what they name. -/
theorem lastWins_iff (hl : P.ops.Lawful) {d : Disk} {nodesMap : NodesMap} {earlier : List ServerCmd} {id : ℤ}
    {batches : List (List TripleNodeId × List TripleNodeId)}
    (hd : ServerDisk P d nodesMap (newIds (earlier ++ sessionCmds id batches))) {uninit : ℤ} {srv₀ srv : Server T}
    (hcreate : Server.create P d uninit = .ok srv₀) (hrun : (serverMachine P).run earlier srv₀ = some srv)
    (hnew : ∀ a d, .updateTriplesBatch id a d ∉ earlier)
    (hready : (serverMachine P).Meets (fun s c => c.Ready P s) (earlier ++ sessionCmds id batches) srv₀) :
    ∃ srv', (serverMachine P).run (sessionCmds id batches) srv = some srv' ∧
      (LastWins (sessionOps batches) {t | srv.Present P t} {t | srv'.Present P t} ↔
        DeletesHit (sessionOps batches) {t | srv.Present P t}) := by
  obtain ⟨srv', hrun', hpresent⟩ := session_present hl hd hcreate hrun hnew hready
  refine ⟨srv', hrun', ?_⟩
  rw [hpresent]
  exact lastWins_patch_iff _ _

/-! ## A disk -/

namespace PointTree

/-- Six real ids in a sequence. -/
def someNodes : NodesSequence := ⟨[10, 11, 12, 13, 14, 15]⟩

/-- The disk of `indexDisk`, with node ids: it has the triple `(11, 15, 11)`. -/
def serverDisk : Disk := fun q =>
  if q = FileRWHandler.file .index then indexDisk q else idsDisk someNodes (.construct ∅) q

theorem serverDisk_ok (mode : OpenMode) {n : ℕ} (hn : n < 1000) :
    ServerDisk (cacheParams mode) serverDisk (.construct ∅) n := by
  have hfresh := indexDisk_fresh
  have hseq : NodesSequence.fromInputStream (FileRWHandler.getReader serverDisk .nodeIds) = someNodes :=
    NodesSequence.fromInputStream_serialize (by decide) (IStream.ahead_self _)
  refine ⟨⟨⟨hfresh.header, hfresh.trees⟩, rfl, rfl⟩, ?_, ?_, ?_⟩
  · have hreader : FileRWHandler.getReader serverDisk .mappedNodeIds = .ofBytes (NodesMap.construct ∅).serialize := rfl
    rw [hreader, NodesMap.fromInputStream_serialize (by decide) (IStream.ahead_self _)]
    rfl
  · rw [hseq]
    have hnone : ∀ r i, (NodesMap.construct ∅).imap.find? r ≠ some i := by
      intro r i h
      cases h
    refine ⟨by decide, fun r r' i h => absurd h (hnone r i), fun r i h => absurd h (hnone r i),
      fun r i h => absurd h (hnone r i), ?_, fun r i h => absurd h (hnone r i)⟩
    show 6 + n < 2 ^ 64
    omega
  · rw [hseq]
    intro p pts hp x hx
    -- the index file has one point
    have hentries : (initialMetadata serverDisk).1.metadataMap.entries = [(5, entry)] := by rfl
    obtain ⟨md, hmd⟩ : ∃ md, (initialMetadata serverDisk).1.metadataMap.find? p = some md := by
      cases h : (initialMetadata serverDisk).1.metadataMap.find? p with
      | none => simp [initialStore, h] at hp
      | some md => exact ⟨md, rfl⟩
    have hmem := (OrdMap.find?_eq_some _).1 hmd
    rw [hentries, List.mem_singleton, Prod.mk.injEq] at hmem
    obtain ⟨rfl, rfl⟩ := hmem
    have hread : (ops.readFromIstream ((IStream.ofBytes (serverDisk.bytes (FileRWHandler.file .index))).seekg
        entry.treeOffset)).1 = .ok (ofList [(1, 1)]) := by decide
    have hpts : pts = ops.points (ofList [(1, 1)]) := by
      have hstore : initialStore ops serverDisk 5 = some (ops.points (ofList [(1, 1)])) := by
        simp only [initialStore, hmd, hread]
      exact (Option.some.inj (hstore.symm.trans hp)).symm
    rw [hpts] at hx
    have hx' : x ∈ ops.fullScan (ofList [(1, 1)]) := (ops_lawful.mem_fullScan _ _).2 hx
    have hscan : ops.fullScan (ofList [(1, 1)]) = [(1, 1)] := by decide
    rw [hscan, List.mem_singleton] at hx'
    subst hx'
    intro i hi
    left
    fin_cases hi <;> decide

end PointTree

/-! ## Runs of sessions only -/

/-- Requests of sessions, of which `k` are begun: each names one that is. -/
def SessionRun : ℤ → List ServerCmd → Prop
  | _, [] => True
  | k, .beginUpdateSession :: cmds => SessionRun (k + 1) cmds
  | k, .updateTriplesBatch id _ _ :: cmds => 0 ≤ id ∧ id < k ∧ SessionRun k cmds
  | k, .doneUpdateTriples id :: cmds => 0 ≤ id ∧ id < k ∧ SessionRun k cmds
  | _, _ => False

/-- `k` sessions are begun, and the log is open or empty. -/
structure SessionsBegun (srv : Server T) (k : ℤ) : Prop where
  current : srv.currentUpdateSessionId = k
  begun : ∀ id, 0 ≤ id → id < k → srv.updatersSessions.contains id = true
  log : srv.manager.logger.writerOpen = true ∨ srv.manager.logger.offsetsMap = ∅

theorem contains_insert_of_contains {K V : Type} [LinearOrder K] (m : OrdMap K V) (k k' : K) (v : V)
    (h : m.contains k' = true) : (m.insert k v).contains k' = true := by
  rw [OrdMap.contains, OrdMap.find?_insert]
  split
  · rfl
  · exact h

/-- **A log that is written by sessions only stays open**: every request is ready. -/
theorem SessionRun.ready (cmds : List ServerCmd) {k : ℤ} (hcmds : SessionRun k cmds) (h : SessionsBegun srv k) :
    (serverMachine P).Meets (fun s c => c.Ready P s) cmds srv := by
  induction cmds generalizing srv k with
  | nil => trivial
  | cons cmd cmds ih =>
    cases cmd with
    | beginUpdateSession =>
      refine ⟨trivial, fun srv' hstep => ih hcmds ?_⟩
      cases hstep
      refine ⟨by simp [Server.beginUpdateSession, h.current], fun id h0 hk => ?_, h.log⟩
      by_cases heq : id = srv.currentUpdateSessionId
      · simp [Server.beginUpdateSession, heq, OrdMap.contains]
      · refine contains_insert_of_contains _ _ _ _ (h.begun id h0 ?_)
        have hcur := h.current
        omega
    | updateTriplesBatch id toAdd toDelete =>
      obtain ⟨h0, hk, hcmds⟩ := hcmds
      have hid := h.begun id h0 hk
      refine ⟨hid, fun srv' hstep => ih hcmds ?_⟩
      obtain ⟨ss, hss⟩ := (OrdMap.contains_iff _).1 hid
      simp only [serverMachine, ServerCmd.call, Server.processUpdateTriplesBatch, hss, Option.some.injEq] at hstep
      subst hstep
      exact ⟨h.current, fun id' h0' hk' => contains_insert_of_contains _ _ _ _ (h.begun id' h0' hk'), h.log⟩
    | doneUpdateTriples id =>
      obtain ⟨h0, hk, hcmds⟩ := hcmds
      have hid := h.begun id h0 hk
      refine ⟨⟨hid, .inr h.log⟩, fun srv' hstep => ih hcmds ?_⟩
      obtain ⟨ss, hss⟩ := (OrdMap.contains_iff _).1 hid
      simp only [serverMachine, ServerCmd.call, Server.processDoneUpdateTriples, hss] at hstep
      have hopen := log_writerOpen (P := P.logger) ss.logUpdates srv.manager
      generalize LogEnv.log P.logger ss.logUpdates srv.manager = r at hstep hopen
      obtain ⟨res, s'⟩ := r
      cases res with
      | error x => cases hstep
      | ok u =>
        cases hstep
        exact ⟨h.current, h.begun, .inl hopen⟩
    | fetchK2tree p => exact hcmds.elim
    | retrieveKey p => exact hcmds.elim
    | discardInMemoryPredicate p => exact hcmds.elim
    | syncToPersistent => exact hcmds.elim

/-- A new server has begun no session, and has no log. -/
theorem ServerDisk.sessionsBegun (hl : P.ops.Lawful) {d : Disk} {nodesMap : NodesMap} (h : ServerDisk P d nodesMap n)
    {uninit : ℤ} {srv : Server T} (hcreate : Server.create P d uninit = .ok srv) : SessionsBegun srv 0 := by
  obtain ⟨l, s, hl', hs, rfl, -⟩ := create_spec hl h.fresh uninit
  obtain ⟨e, hcon, -⟩ := construct_spec h.map
  rw [Server.create, hs, hcon] at hcreate
  cases hcreate
  have hoff : retrieveOffsetsMap d = .ok ∅ := by
    simp [retrieveOffsetsMap, FileRWHandler.fileExists, h.fresh.noOffsets]
  obtain ⟨l₁, hl₁, hm⟩ := construct_of_retrieve hoff uninit
  rw [hl'] at hl₁
  cases hl₁
  exact ⟨rfl, fun id h0 hk => by omega, .inr hm⟩

/-! ## Commits of several sessions -/

/-- What the sessions have received in all and since their last commit, and the triples
the commits leave. -/
structure Ledger where
  received : ℤ → List SessionOp
  since : ℤ → List SessionOp
  store : Set TripleNodeId

namespace Ledger

def start (S : Set TripleNodeId) : Ledger := ⟨fun _ => [], fun _ => [], S⟩

/-- **Each commit contributes what its session has received since its previous one.** -/
def step (L : Ledger) : ServerCmd → Ledger
  | .updateTriplesBatch id toAdd toDelete => { L with
    received := Function.update L.received id (L.received id ++ batchOps toAdd toDelete)
    since := Function.update L.since id (L.since id ++ batchOps toAdd toDelete) }
  | .doneUpdateTriples id => { L with
    since := Function.update L.since id []
    store := (sessionPatch (L.since id)).apply L.store }
  | _ => L

/-- The session that commits has received nothing before its previous commit. -/
def FirstCommit (L : Ledger) (cmd : ServerCmd) : Prop :=
  ∀ id, cmd = .doneUpdateTriples id → L.received id = L.since id

/-- Every commit of the run is such a one. -/
def FirstCommits : Ledger → List ServerCmd → Prop
  | _, [] => True
  | L, cmd :: cmds => L.FirstCommit cmd ∧ FirstCommits (L.step cmd) cmds

theorem follow_eq (cmds : List ServerCmd) (L : Ledger) (h : L.FirstCommits cmds) :
    (cmds.foldl follow (L.received, L.store)).2 = (cmds.foldl step L).store := by
  induction cmds generalizing L with
  | nil => rfl
  | cons cmd cmds ih =>
    have hstep : follow (L.received, L.store) cmd = ((L.step cmd).received, (L.step cmd).store) := by
      cases cmd with
      | doneUpdateTriples id =>
        have hsame := h.1 id rfl
        simp only [follow, ServerCmd.receive, ServerCmd.patch, step, hsame]
      | _ => simp [follow, ServerCmd.receive, ServerCmd.patch, step, Patch.apply]
    rw [List.foldl_cons, hstep, List.foldl_cons]
    exact ih (L.step cmd) h.2

end Ledger

/-- What is served after a run of sessions. -/
theorem sessionRun_present (hl : P.ops.Lawful) {d : Disk} {nodesMap : NodesMap} {cmds : List ServerCmd}
    (hd : ServerDisk P d nodesMap (newIds cmds)) {uninit : ℤ} {srv₀ : Server T}
    (hcreate : Server.create P d uninit = .ok srv₀) (hcmds : SessionRun 0 cmds) :
    ∃ srv, (serverMachine P).run cmds srv₀ = some srv ∧
      {t | srv.Present P t} = (cmds.foldl follow ((fun _ => []), {t | srv₀.Present P t})).2 := by
  obtain ⟨srv₁, hcreate₁, hinv⟩ := hd.create hl uninit
  rw [hcreate] at hcreate₁
  cases hcreate₁
  rw [← Nat.zero_add (newIds cmds)] at hinv
  obtain ⟨srv, -, hrun, -, hpresent⟩ := serverRun hl cmds hinv (hcmds.ready cmds (hd.sessionsBegun hl hcreate))
  exact ⟨srv, hrun, hpresent⟩

/-- **Commits fold.** If no session that has received something before a commit commits
again, the triples served are the initial ones with the commits applied in order, each with
what its session has received since its previous one. -/
theorem commits_fold (hl : P.ops.Lawful) {d : Disk} {nodesMap : NodesMap} {cmds : List ServerCmd}
    (hd : ServerDisk P d nodesMap (newIds cmds)) {uninit : ℤ} {srv₀ : Server T}
    (hcreate : Server.create P d uninit = .ok srv₀) (hcmds : SessionRun 0 cmds)
    (hfirst : (Ledger.start {t | srv₀.Present P t}).FirstCommits cmds) :
    ∃ srv, (serverMachine P).run cmds srv₀ = some srv ∧
      {t | srv.Present P t} = (cmds.foldl Ledger.step (.start {t | srv₀.Present P t})).store := by
  obtain ⟨srv, hrun, hpresent⟩ := sessionRun_present hl hd hcreate hcmds
  exact ⟨srv, hrun, hpresent.trans (Ledger.follow_eq cmds _ hfirst)⟩

namespace PointTree

/-- A server on `serverDisk`, with the log opened as the source does. -/
theorem serverDisk_create : ∃ srv, Server.create (cacheParams .binary) serverDisk 0 = .ok srv := by
  obtain ⟨srv, h, -⟩ := (serverDisk_ok .binary (n := 0) (by decide)).create ops_lawful 0
  exact ⟨srv, h⟩

/-- A triple whose subject is its object, and one whose is not. -/
def loop : TripleNodeId := ⟨21, 22, 21⟩
def edge : TripleNodeId := ⟨21, 22, 23⟩

end PointTree

open PointTree in
/-- A session that begins, sends batches and commits on the server of `serverDisk`. -/
theorem serverDisk_session (batches : List (List TripleNodeId × List TripleNodeId))
    (hn : newIds ([.beginUpdateSession] ++ sessionCmds 0 batches) < 1000) :
    ∃ srv₀ srv, Server.create (cacheParams .binary) serverDisk 0 = .ok srv₀ ∧
      (serverMachine (cacheParams .binary)).run [.beginUpdateSession] srv₀ = some srv ∧
      (serverMachine (cacheParams .binary)).Meets (fun s c => c.Ready (cacheParams .binary) s)
        ([.beginUpdateSession] ++ sessionCmds 0 batches) srv₀ := by
  obtain ⟨srv₀, hcreate⟩ := serverDisk_create
  refine ⟨srv₀, _, hcreate, rfl, SessionRun.ready _ ?_ ((serverDisk_ok .binary hn).sessionsBegun ops_lawful hcreate)⟩
  show SessionRun 1 (sessionCmds 0 batches)
  unfold sessionCmds
  clear hn
  induction batches with
  | nil => exact ⟨by decide, by decide, trivial⟩
  | cons b batches ih => exact ⟨by decide, by decide, ih⟩

open PointTree in
/-- A session that only adds: the last operation wins. -/
theorem lastWins_iff_adds : ∃ srv₀ srv srv', Server.create (cacheParams .binary) serverDisk 0 = .ok srv₀ ∧
    (serverMachine (cacheParams .binary)).run [.beginUpdateSession] srv₀ = some srv ∧
    (serverMachine (cacheParams .binary)).run (sessionCmds 0 [([edge, loop], []), ([edge], [])]) srv = some srv' ∧
    LastWins (sessionOps [([edge, loop], []), ([edge], [])]) {t | srv.Present (cacheParams .binary) t}
      {t | srv'.Present (cacheParams .binary) t} := by
  obtain ⟨srv₀, srv, hcreate, hrun, hready⟩ := serverDisk_session [([edge, loop], []), ([edge], [])] (by decide)
  obtain ⟨srv', hrun', hiff⟩ := lastWins_iff ops_lawful (serverDisk_ok .binary (by decide)) hcreate hrun (by simp) hready
  refine ⟨srv₀, srv, srv', hcreate, hrun, hrun', hiff.2 ⟨fun t ht => ?_, fun t hlast => ?_⟩⟩
  · simp [sessionOps, batchOps] at ht
  · have hdel := (lastOp_mem _ t).2.1 hlast
    simp [sessionOps, batchOps] at hdel

open PointTree in
/-- A triple is added, and deleted in the next batch: it is still there. -/
theorem lastWins_fails : ∃ srv₀ srv srv', Server.create (cacheParams .binary) serverDisk 0 = .ok srv₀ ∧
    (serverMachine (cacheParams .binary)).run [.beginUpdateSession] srv₀ = some srv ∧
    (serverMachine (cacheParams .binary)).run (sessionCmds 0 [([edge], []), ([], [edge])]) srv = some srv' ∧
    lastOp (sessionOps [([edge], []), ([], [edge])]) edge = some false ∧ srv'.Present (cacheParams .binary) edge ∧
    ¬ LastWins (sessionOps [([edge], []), ([], [edge])]) {t | srv.Present (cacheParams .binary) t}
      {t | srv'.Present (cacheParams .binary) t} := by
  obtain ⟨srv₀, srv, hcreate, hrun, hready⟩ := serverDisk_session [([edge], []), ([], [edge])] (by decide)
  obtain ⟨srv', hrun', hpresent⟩ :=
    session_present ops_lawful (serverDisk_ok .binary (by decide)) hcreate hrun (by simp) hready
  have hlast : lastOp (sessionOps [([edge], []), ([], [edge])]) edge = some false := by decide
  have hin : edge ∈ {t | srv'.Present (cacheParams .binary) t} := by
    rw [hpresent]
    refine ⟨.inr (show SessionOp.add edge ∈ sessionOps [([edge], []), ([], [edge])] by decide), ?_⟩
    rintro ⟨t', ht', -, -, heq⟩
    have hsubject := congrArg TripleNodeId.subject heq
    have hobject := congrArg TripleNodeId.object heq
    exact absurd (hobject.trans hsubject.symm) (by decide)
  exact ⟨srv₀, srv, srv', hcreate, hrun, hrun', hlast, hin, fun h => (h edge).2.1 hlast hin⟩

/-- Two sessions: the first adds a triple and commits, the second deletes it and commits. -/
def addThenDelete : List ServerCmd :=
  [.beginUpdateSession, .beginUpdateSession, .updateTriplesBatch 0 [PointTree.loop] [], .doneUpdateTriples 0,
    .updateTriplesBatch 1 [] [PointTree.loop], .doneUpdateTriples 1]

/-- Then the first commits again. -/
def recommit : List ServerCmd := addThenDelete ++ [.doneUpdateTriples 0]

theorem addThenDelete_sessionRun : SessionRun 0 addThenDelete :=
  ⟨by decide, by decide, by decide, by decide, by decide, by decide, by decide, by decide, trivial⟩

open PointTree in
/-- Each session commits once: the triple is gone. -/
theorem commits_fold_once : ∃ srv₀ srv, Server.create (cacheParams .binary) serverDisk 0 = .ok srv₀ ∧
    (serverMachine (cacheParams .binary)).run addThenDelete srv₀ = some srv ∧
    ¬ srv.Present (cacheParams .binary) loop := by
  obtain ⟨srv₀, hcreate⟩ := serverDisk_create
  obtain ⟨srv, hrun, hpresent⟩ := commits_fold ops_lawful (serverDisk_ok .binary (by decide)) hcreate
    addThenDelete_sessionRun (by
      refine ⟨?_, ?_, ?_, ?_, ?_, ?_, trivial⟩ <;> intro id hid <;> cases hid <;> rfl)
  refine ⟨srv₀, srv, hcreate, hrun, fun hin => ?_⟩
  have hmem : loop ∈ {t | srv.Present (cacheParams .binary) t} := hin
  rw [hpresent] at hmem
  exact hmem.2 ⟨loop, List.mem_singleton_self (SessionOp.del loop), by decide, by decide, rfl⟩

open PointTree in
/-- The first session commits again, and nothing came in between: the triple is back. -/
theorem commits_fold_fails : ∃ srv₀ srv, Server.create (cacheParams .binary) serverDisk 0 = .ok srv₀ ∧
    (serverMachine (cacheParams .binary)).run recommit srv₀ = some srv ∧
    {t | srv.Present (cacheParams .binary) t} ≠
      (recommit.foldl Ledger.step
        (.start {t | srv₀.Present (cacheParams .binary) t})).store := by
  obtain ⟨srv₀, hcreate⟩ := serverDisk_create
  have hcmds : SessionRun 0 recommit :=
    ⟨by decide, by decide, by decide, by decide, by decide, by decide, by decide, by decide, by decide, by decide, trivial⟩
  obtain ⟨srv, hrun, hpresent⟩ := sessionRun_present ops_lawful (serverDisk_ok .binary (by decide)) hcreate hcmds
  refine ⟨srv₀, srv, hcreate, hrun, fun heq => ?_⟩
  rw [hpresent] at heq
  have hin : loop ∈ (recommit.foldl follow
      ((fun _ => []), {t | srv₀.Present (cacheParams .binary) t})).2 := by
    refine ⟨.inr (List.mem_singleton_self (SessionOp.add loop)), ?_⟩
    rintro ⟨t', ht', -⟩
    have hadd : SessionOp.del t' ∈ [SessionOp.add loop] := ht'
    simp at hadd
  rw [heq] at hin
  -- the second commit of the first session has nothing to contribute
  rcases hin.1 with hin | hin
  · exact hin.2 ⟨loop, List.mem_singleton_self (SessionOp.del loop), by decide, by decide, rfl⟩
  · have hnone : SessionOp.add loop ∈ ([] : List SessionOp) := hin
    simp at hnone

end K2Cache
