import K2Cache.Spec.Builder
import K2Cache.Spec.Manager

/-!
# search_paths

`find_n_paths` searches the graph of an index for paths of `n` triples. The predicates are
tried in decreasing order of their points; the search goes down from every subject, with a
set of the triples it has passed, and stops when it has found as many paths as were asked for.

`find_paths_subj_origin` is recursive in `max_path_size - 1 - curr_path_size`, which is the
number of triples to come behind the next. `std::sort` is sorting by insertion: the source
leaves the order of predicates with equally many points open.
-/

namespace K2Cache

open Lib

/-- `DirectedPath`: its edges. -/
abbrev DirectedPath := List RDFTriple

/-- The manager with what a search changes. -/
structure PathSearch (T : Type) where
  manager : Manager T
  paths : List DirectedPath
  visitedEdges : Finset RDFTriple

namespace PathSearch

variable {T : Type} (P : CacheParams T)

/-- A call of the manager. -/
def onManager {α : Type} (x : Act Exn (Manager T) α) : Act Exn (PathSearch T) α :=
  Act.focus manager (fun m s => { s with manager := m }) x

/-- The comparison of `find_n_paths`: decreasing order by the number of points. -/
def comparePredicates (lPredicate rPredicate : UInt64) : Act Exn (PathSearch T) Bool := do
  let lfetched ← onManager (Manager.fetchK2tree P lPredicate)
  if !lfetched.doesExist then
    Act.throw (.runtimeError ("left tree not found on predicate sorting: " ++ toString lPredicate.toNat))
  else if !lfetched.loaded then
    Act.throw (.runtimeError ("left tree not loaded on predicate sorting: " ++ toString lPredicate.toNat))
  else
    let rfetched ← onManager (Manager.fetchK2tree P rPredicate)
    if !rfetched.doesExist then
      Act.throw (.runtimeError ("right tree not found on predicate sorting: " ++ toString rPredicate.toNat))
    else if !rfetched.loaded then
      Act.throw (.runtimeError ("right tree not loaded on predicate sorting: " ++ toString rPredicate.toNat))
    else
      let l ← lfetched.get
      let r ← rfetched.get
      pure (treePointsCount P.ops r < treePointsCount P.ops l)

/-- `(int)paths.size() >= max_paths`. -/
def limitReached (maxPaths : Int32) (s : PathSearch T) : Bool := maxPaths.toInt ≤ wrapInt s.paths.length

/-- The loop of `find_paths_subj_origin` over the objects of a subject, with what is done for
a triple that was not visited. -/
def scanBand (maxPaths : Int32) (subject : UInt64) (tree : T) (predicate : UInt64)
    (visit : RDFTriple → Act Exn (PathSearch T) Bool) : Act Exn (PathSearch T) Unit := do
  let s ← Act.get
  if s.limitReached maxPaths then pure ()
  else
    Act.untilTrue (P.ops.bandScan tree .column subject) fun obj2 => do
      let triple : RDFTriple := ⟨subject, predicate, obj2⟩
      let s ← Act.get
      if triple ∈ s.visitedEdges then pure false else visit triple

/-- `find_paths_subj_origin`. -/
def findPathsSubjOrigin (maxPaths : Int32) (sortedPredicates : List UInt64) :
    ℕ → DirectedPath → UInt64 → T → UInt64 → ℕ → Act Exn (PathSearch T) Unit
  | 0, currentPath, subject, tree, predicate, currPathSize =>
    scanBand P maxPaths subject tree predicate fun triple => do
      Act.modify fun s => { s with paths := s.paths ++ [currentPath.set currPathSize triple] }
      let s ← Act.get
      pure (s.limitReached maxPaths)
  | left + 1, currentPath, subject, tree, predicate, currPathSize =>
    scanBand P maxPaths subject tree predicate fun triple => do
      Act.modify fun s => { s with visitedEdges := insert triple s.visitedEdges }
      Act.forEach sortedPredicates fun predValue => do
        let predFetchResult ← onManager (Manager.fetchK2tree P predValue)
        let treeSelected ← predFetchResult.get
        findPathsSubjOrigin maxPaths sortedPredicates left (currentPath.set currPathSize triple) triple.object treeSelected
          predValue (currPathSize + 1)
      Act.modify fun s => { s with visitedEdges := s.visitedEdges.erase triple }
      pure false

/-- The loop of `find_n_paths` over the points of a tree: every subject is an origin once. -/
def fromSubjects (n : ℕ+) (maxNumber : Int32) (sortedPredicates : List UInt64) (p : UInt64) (tree : T) :
    List Point → Finset UInt64 → Act Exn (PathSearch T) Unit
  | [], _ => pure ()
  | point :: points, subjects =>
    if point.1 ∈ subjects then fromSubjects n maxNumber sortedPredicates p tree points subjects
    else do
      findPathsSubjOrigin P maxNumber sortedPredicates n.natPred (List.replicate n ⟨0, 0, 0⟩) point.1 tree p 0
      let s ← Act.get
      if s.limitReached maxNumber then pure ()
      else fromSubjects n maxNumber sortedPredicates p tree points (insert point.1 subjects)

/-- The loops of `find_n_paths`. -/
def search (n : ℕ+) (maxNumber : Int32) : Act Exn (PathSearch T) Unit := do
  let s ← Act.get
  let sortedPredicateIds ← Act.sortBy (comparePredicates P) s.manager.index.metadata.predicatesIds
  Act.forEach sortedPredicateIds fun p => do
    let fetched ← onManager (Manager.fetchK2tree P p)
    let k2tree ← fetched.get
    Act.modify fun s => { s with visitedEdges := ∅ }
    fromSubjects P n maxNumber sortedPredicateIds p k2tree (P.ops.fullScan k2tree) ∅

end PathSearch

/-- `find_n_paths`, for paths of at least one triple. -/
def Manager.findNPaths {T : Type} (P : CacheParams T) (n : ℕ+) (maxNumber : Int32) :
    Act Exn (Manager T) (List DirectedPath) := fun s =>
  let r := PathSearch.search P n maxNumber ⟨s, [], ∅⟩
  match r.1 with
  | .ok () => (.ok r.2.paths, r.2.manager)
  | .error e => (.error e, r.2.manager)

end K2Cache
