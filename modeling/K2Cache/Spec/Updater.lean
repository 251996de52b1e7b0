import K2Cache.Spec.Manager
import K2Cache.Spec.NodeIds

/-!
# UpdaterSession, and the requests that reach it

A session collects the triples it is told to add and to delete in two maps of trees, one
tree per predicate. A commit hands both to the update log and leaves the maps as they
are. `CacheServerTaskProcessor` keeps the sessions by their ids.

The node ids are on the same disk as the rest; as no file is shared, the two managers
each have their own view of it.
-/

namespace K2Cache

open Lib

/-- `get_initial_update_k2tree_config`. -/
def initialUpdateK2treeConfig : K2TreeConfig := ⟨32, 1024, 0⟩

structure UpdaterSession (T : Type) where
  addedTriples : OrdMap UInt64 T
  removedTriples : OrdMap UInt64 T

namespace UpdaterSession

variable {T : Type}

/-- A new session. -/
def construct : UpdaterSession T := ⟨∅, ∅⟩

variable (ops : TreeOps T)

/-- `get_tree_bulk_op_id`, and the insertion into the tree it returns. -/
def bulkInsert (mapSrc : OrdMap UInt64 T) (predicateId : UInt64) (x : Point) : OrdMap UInt64 T :=
  mapSrc.insert predicateId (ops.insert ((mapSrc.find? predicateId).getD (ops.empty initialUpdateK2treeConfig)) x)

/-- `add_triple`. -/
def addTriple (st : UpdaterSession T × NodeIdsEnv) (t : TripleNodeId) : UpdaterSession T × NodeIdsEnv :=
  let p := st.2.getIdOrCreate t.predicate
  let s := p.2.getIdOrCreate t.subject
  let o := s.2.getIdOrCreate t.object
  ({ st.1 with addedTriples := bulkInsert ops st.1.addedTriples p.1 (s.1, o.1) }, o.2)

/-- `delete_triple`: `object_id` is read from the subject. -/
def deleteTriple (st : UpdaterSession T × NodeIdsEnv) (t : TripleNodeId) : UpdaterSession T × NodeIdsEnv :=
  let predicateId := t.predicate
  if predicateId = 0 then st
  else
    let subjectId := t.subject
    if subjectId = 0 then st
    else
      let objectId := t.subject
      if objectId = 0 then st
      else
        let s := st.2.getIdOrCreate subjectId
        let p := s.2.getIdOrCreate predicateId
        let o := p.2.getIdOrCreate objectId
        ({ st.1 with removedTriples := bulkInsert ops st.1.removedTriples p.1 (s.1, o.1) }, o.2)

/-- The updates `log_updates` hands to the log. -/
def logUpdates (ss : UpdaterSession T) : List (K2TreeUpdates T) :=
  let visitedDel := ss.addedTriples.keys.filter fun p => ss.removedTriples.contains p
  (ss.addedTriples.entries.map fun kv => ⟨kv.1, some kv.2, ss.removedTriples.find? kv.1⟩) ++
    (ss.removedTriples.entries.filter fun kv => kv.1 ∉ visitedDel).map fun kv => ⟨kv.1, none, some kv.2⟩

end UpdaterSession

/-! ## CacheServerTaskProcessor and ServerTask -/

structure Server (T : Type) where
  manager : Manager T
  nodeIds : NodeIdsEnv
  updatersSessions : OrdMap ℤ (UpdaterSession T)
  currentUpdateSessionId : ℤ

namespace Server

variable {T : Type} (P : CacheParams T)

/-- `begin_update_session`, `process_request_start_update_triples`. -/
def beginUpdateSession (srv : Server T) : ℤ × Server T :=
  (srv.currentUpdateSessionId, { srv with
    updatersSessions := srv.updatersSessions.insert srv.currentUpdateSessionId .construct
    currentUpdateSessionId := srv.currentUpdateSessionId + 1 })

/-- `process_update_triples_batch`; `get_updater` of an unknown id is a null pointer. -/
def processUpdateTriplesBatch (updateId : ℤ) (triplesToAdd triplesToDelete : List TripleNodeId) :
    Act Exn (Server T) Unit := fun srv =>
  match srv.updatersSessions.find? updateId with
  | none => (.error .nullDereference, srv)
  | some updater =>
    let st := triplesToAdd.foldl (UpdaterSession.addTriple P.ops) (updater, srv.nodeIds)
    let st := triplesToDelete.foldl (UpdaterSession.deleteTriple P.ops) st
    (.ok (), { srv with updatersSessions := srv.updatersSessions.insert updateId st.1, nodeIds := st.2 })

/-- `process_done_update_triples`, `commit_updates`. -/
def processDoneUpdateTriples (updateId : ℤ) : Act Exn (Server T) Unit := fun srv =>
  match srv.updatersSessions.find? updateId with
  | none => (.error .nullDereference, srv)
  | some updater =>
    let r := LogEnv.log P.logger updater.logUpdates srv.manager
    (r.1, { srv with manager := r.2 })

/-- **A triple is served**: its ids are known, and the tree that is fetched has it. -/
def Present (srv : Server T) (t : TripleNodeId) : Prop :=
  let m := srv.nodeIds.manager
  m.getId t.subject ≠ notFoundNodeid ∧ m.getId t.predicate ≠ notFoundNodeid ∧ m.getId t.object ≠ notFoundNodeid ∧
    ∃ r s' tree, Manager.fetchK2tree P (m.getId t.predicate) srv.manager = (.ok r, s') ∧ r.result = some tree ∧
      P.ops.has tree (m.getId t.subject, m.getId t.object) = true

end Server

/-- What reaches the server: requests of the sessions, and what the cache does between them. -/
inductive ServerCmd where
  | beginUpdateSession
  | updateTriplesBatch (updateId : ℤ) (triplesToAdd triplesToDelete : List TripleNodeId)
  | doneUpdateTriples (updateId : ℤ)
  | fetchK2tree (p : UInt64)
  | retrieveKey (p : UInt64)
  | discardInMemoryPredicate (p : UInt64)
  | syncToPersistent

namespace ServerCmd

variable {T : Type} (P : CacheParams T)

/-- A call of the manager. -/
def onManager (x : Act Exn (Manager T) Unit) : Act Exn (Server T) Unit :=
  Act.focus Server.manager (fun m srv => { srv with manager := m }) x

/-- What the server does. -/
def call : ServerCmd → Act Exn (Server T) Unit
  | beginUpdateSession => Act.modify fun srv => srv.beginUpdateSession.2
  | updateTriplesBatch updateId toAdd toDelete => Server.processUpdateTriplesBatch P updateId toAdd toDelete
  | doneUpdateTriples updateId => Server.processDoneUpdateTriples P updateId
  | fetchK2tree p => onManager do
    let _ ← Manager.fetchK2tree P p
    pure ()
  | retrieveKey p => onManager (Manager.retrieveKey P p)
  | discardInMemoryPredicate p => onManager (Manager.removeKey p)
  | syncToPersistent => onManager (Manager.syncToPersistent P)

end ServerCmd

/-- The server as a machine; a call that throws ends the run. -/
def serverMachine {T : Type} (P : CacheParams T) : Machine (Server T) ServerCmd where
  step srv cmd :=
    match cmd.call P srv with
    | (.ok _, srv') => some srv'
    | (.error _, _) => none

/-- The server on a disk, before any request. -/
def Server.create {T : Type} (P : CacheParams T) (d : Disk) (uninit : ℤ) : Except Exn (Server T) :=
  match Manager.create P d uninit, NodeIdsEnv.construct d with
  | .ok s, .ok e => .ok ⟨s, e, ∅, 0⟩
  | .error x, _ => .error x
  | _, .error x => .error x

end K2Cache
