import K2Cache.Lib.LowerBound
import K2Cache.Lib.OrdMap
import K2Cache.Lib.Machine
import K2Cache.Spec.Files
import K2Cache.Spec.Tree

/-!
# Node ids

Trees hold small ids in place of the ids of the database (real ids). The first of them
are the positions in a sorted sequence of real ids; the others are in a map with its
reverse, both loaded from files; a real id that has none gets the one after the last, and
the pair is logged. The counter file says how many pairs the log has.
-/

namespace K2Cache

open Lib

/-- A triple of real ids. -/
structure TripleNodeId where
  subject : UInt64
  predicate : UInt64
  object : UInt64
deriving DecidableEq, Repr

/-- `NOT_FOUND_NODEID`. -/
def notFoundNodeid : UInt64 := -1

inductive NidsErrCode where
  | notFound
  | success
deriving DecidableEq, Repr

/-! ## NodesSequence -/

structure NodesSequence where
  values : List UInt64
deriving DecidableEq

namespace NodesSequence

/-- `get_id`. -/
def getId (s : NodesSequence) (value : UInt64) : UInt64 :=
  let it := lowerBound s.values value
  match s.values[it]? with
  | none => notFoundNodeid
  | some v => if v ≠ value then notFoundNodeid else UInt64.ofNat it

/-- `get_real_id`, with what it writes to `err_code`. -/
def getRealId (s : NodesSequence) (position : UInt64) : UInt64 × Option NidsErrCode :=
  match s.values[position.toNat]? with
  | none => (-1, some .notFound)
  | some v => (v, none)

/-- `get_last_assigned`. -/
def getLastAssigned (s : NodesSequence) : UInt64 := UInt64.ofNat s.values.length - 1

/-- `from_input_stream`. -/
def fromInputStream (is : IStream) : NodesSequence :=
  let n := is.readU64
  ⟨(IStream.readMany IStream.readU64 n.1.toNat n.2).1⟩

/-- `serialize`. -/
def serialize (s : NodesSequence) : Bytes := u64Bytes (UInt64.ofNat s.values.length) ++ s.values.flatMap u64Bytes

end NodesSequence

/-! ## NodesMapImpl -/

/-- `STD_MAP_NI_IMPL`. -/
def stdMapNiImpl : UInt32 := 0

structure NodesMap where
  imap : OrdMap UInt64 UInt64
  revMap : OrdMap UInt64 UInt64

namespace NodesMap

/-- The constructor: the reverse map is filled from the map. -/
def construct (imap : OrdMap UInt64 UInt64) : NodesMap :=
  ⟨imap, imap.entries.foldl (fun rev p => rev.insert p.2 p.1) ∅⟩

/-- `get_id`. -/
def getId (m : NodesMap) (realId : UInt64) : UInt64 := (m.imap.find? realId).getD notFoundNodeid

/-- `get_real_id`, with what it writes to `err_code`. -/
def getRealId (m : NodesMap) (id : UInt64) : UInt64 × Option NidsErrCode :=
  match m.revMap.find? id with
  | none => (-1, some .notFound)
  | some realId => (realId, none)

/-- `get_last_assigned`. -/
def getLastAssigned (m : NodesMap) : UInt64 :=
  match m.revMap.last? with
  | none => notFoundNodeid
  | some p => p.1

/-- `add`. -/
def add (m : NodesMap) (realId mappedId : UInt64) : NodesMap :=
  ⟨m.imap.insert realId mappedId, m.revMap.insert mappedId realId⟩

/-- A key and its value. -/
def readPair (is : IStream) : (UInt64 × UInt64) × IStream :=
  let k := is.readU64
  let v := k.2.readU64
  ((k.1, v.1), v.2)

/-- `restore`. -/
def restore (m : NodesMap) (logIs counterIs : IStream) : NodesMap :=
  let kvsSize := counterIs.readU64.1
  (IStream.readMany readPair kvsSize.toNat logIs).1.foldl (fun m p => m.add p.1 p.2) m

/-- `NodesMapFactory::from_input_stream`. -/
def fromInputStream (is : IStream) : Except Exn NodesMap :=
  let implId := is.readU32
  if implId.1 ≠ stdMapNiImpl then
    .error (.runtimeError ("invalid node ids map implementation id: " ++ toString implId.1.toInt32.toInt))
  else
    let mapSize := implId.2.readU64
    .ok (construct (OrdMap.ofList (IStream.readMany readPair mapSize.1.toNat mapSize.2).1))

/-- `serialize`. -/
def serialize (m : NodesMap) : Bytes :=
  u32Bytes stdMapNiImpl ++ (u64Bytes (UInt64.ofNat m.imap.size) ++
    m.imap.entries.flatMap fun p => u64Bytes p.1 ++ u64Bytes p.2)

end NodesMap

/-! ## NodeIdsManagerImpl -/

structure NodeIdsManager where
  nodesSequence : NodesSequence
  nodesMap : NodesMap
  lastAssignedId : UInt64
  logsNumber : UInt64

namespace NodeIdsManager

/-- `get_id`. -/
def getId (m : NodeIdsManager) (realId : UInt64) : UInt64 :=
  let plainId := m.nodesSequence.getId realId
  if plainId ≠ notFoundNodeid then plainId else m.nodesMap.getId realId

/-- `get_real_id`, with what it writes to `err_code`. -/
def getRealId (m : NodeIdsManager) (mappedId : UInt64) : UInt64 × Option NidsErrCode :=
  let fromSeq := m.nodesSequence.getRealId mappedId
  if fromSeq.2.getD .success = .success then (fromSeq.1, some .success) else m.nodesMap.getRealId mappedId

/-- `find_last_assigned`. -/
def findLastAssigned (nodesSequence : NodesSequence) (nodesMap : NodesMap) : UInt64 :=
  if nodesMap.getLastAssigned = notFoundNodeid then nodesSequence.getLastAssigned else nodesMap.getLastAssigned

end NodeIdsManager

/-- The pairs `restore` adds to the map. -/
def restoredPairs (logIs counterIs : IStream) : List (UInt64 × UInt64) :=
  (IStream.readMany NodesMap.readPair counterIs.readU64.1.toNat logIs).1

/-- The members after the constructor, over the readers it opens: `last_assigned_id` is
initialised in front of the body, which restores the log. -/
def NodeIdsManager.construct (nodesSequence : NodesSequence) (nodesMap : NodesMap) (logIs counterIs : IStream) : NodeIdsManager :=
  ⟨nodesSequence, nodesMap.restore logIs counterIs, findLastAssigned nodesSequence nodesMap, (counterIs.seekg 0).readU64.1⟩

/-- A manager and the disk its files are on. -/
structure NodeIdsEnv where
  disk : Disk
  manager : NodeIdsManager

namespace NodeIdsEnv

open FileRWHandler

/-- The constructor: `counter_writer` is opened before the log is restored. -/
def construct (d : Disk) : Except Exn NodeIdsEnv :=
  let nodesSequence := NodesSequence.fromInputStream (getReader d .nodeIds)
  match NodesMap.fromInputStream (getReader d .mappedNodeIds) with
  | .error e => .error e
  | .ok nodesMap =>
    let lastAssignedId := NodeIdsManager.findLastAssigned nodesSequence nodesMap
    let d := getWriter d .nodeIdsLogs .binaryApp
    let d := getWriter d .nodeIdsLogsCounter .binary
    let nodesMap := nodesMap.restore (getReader d .nodeIdsLogs) (getReader d .nodeIdsLogsCounter)
    let logsNumber := ((getReader d .nodeIdsLogsCounter).seekg 0).readU64.1
    .ok ⟨d, nodesSequence, nodesMap, lastAssignedId, logsNumber⟩

/-- `log_new_kv`. -/
def logNewKv (e : NodeIdsEnv) (realId mappedId : UInt64) : NodeIdsEnv :=
  let d := e.disk.append (file .nodeIdsLogs) (u64Bytes realId ++ u64Bytes mappedId)
  let d := d.writeAt (file .nodeIdsLogsCounter) 0 (u64Bytes (e.manager.logsNumber + 1))
  ⟨d, { e.manager with logsNumber := e.manager.logsNumber + 1 }⟩

/-- `get_id_or_create`. -/
def getIdOrCreate (e : NodeIdsEnv) (realId : UInt64) : UInt64 × NodeIdsEnv :=
  let mappedId := e.manager.getId realId
  if mappedId ≠ notFoundNodeid then (mappedId, e)
  else
    let last := e.manager.lastAssignedId + 1
    let e := { e with manager := { e.manager with lastAssignedId := last } }
    let e := e.logNewKv realId last
    (last, { e with manager := { e.manager with nodesMap := e.manager.nodesMap.add realId last } })

/-- The environment after some calls of `get_id_or_create`. -/
def createAll (e : NodeIdsEnv) (realIds : List UInt64) : NodeIdsEnv :=
  realIds.foldl (fun e realId => (e.getIdOrCreate realId).2) e

end NodeIdsEnv

/-- What is done with a manager over several processes. -/
inductive NodeIdsCmd where
  | getIdOrCreate (realId : UInt64)
  | restart
deriving DecidableEq, Repr

/-- The managers of one set of files, one after the other. -/
def nodeIdsMachine : Machine NodeIdsEnv NodeIdsCmd where
  step e
    | .getIdOrCreate realId => some (e.getIdOrCreate realId).2
    | .restart => (NodeIdsEnv.construct e.disk).toOption

/-- The pairs a run answers. -/
def nodeIdsGiven (e : NodeIdsEnv) : List NodeIdsCmd → List (UInt64 × UInt64)
  | [] => []
  | .getIdOrCreate realId :: cmds =>
    (realId, (e.getIdOrCreate realId).1) :: nodeIdsGiven (e.getIdOrCreate realId).2 cmds
  | .restart :: cmds =>
    match NodeIdsEnv.construct e.disk with
    | .error _ => []
    | .ok e => nodeIdsGiven e cmds

end K2Cache
