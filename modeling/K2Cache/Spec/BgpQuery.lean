import K2Cache.Spec.BgpProcessor
import K2Cache.Spec.ServerTask

/-!
# A query on the manager

`execute_it` with the fetches it makes: first `do_all_predicates_have_trees` asks for the trees
of the patterns, up to the first that has none, then `build_scanners` asks for them again.
-/

namespace K2Cache

open Lib

variable {T : Type}

namespace Manager

variable (P : CacheParams T)

/-- `do_all_predicates_have_trees`, from a pattern on. -/
def doAllPredicatesHaveTrees : List BGPTriple → Act Exn (Manager T) Bool
  | [] => pure true
  | t :: ts =>
    if t.predicate.cacheNodeId = 0 then pure false
    else do
      let fetched ← fetchK2tree P t.predicate.cacheNodeId
      if fetched.doesExist then doAllPredicatesHaveTrees ts else pure false

/-- `build_scanners`. -/
def buildScanners : List BGPTriple → Act Exn (Manager T) (List (K2TreeScanner T))
  | [] => pure []
  | t :: ts => do
    let fetched ← fetchK2tree P t.predicate.cacheNodeId
    let tree ← fetched.get
    let scanners ← buildScanners ts
    pure (.create P.ops tree (scannerKind t) :: scanners)

/-- `BGPProcessor::execute_it`. -/
def executeIt (getId : UInt64 → UInt64) (vim : VarIndexManager) (c : TimeControl) (patterns : List BGPTriple) (fuel : ℕ) :
    Act Halt (Manager T) (QueryIterator T) := do
  let patterns := patterns.map (BGPTriple.resolve getId)
  let h := findHeaders vim patterns
  let all ← orHalt (doAllPredicatesHaveTrees P patterns)
  if all then
    let scanners ← orHalt (buildScanners P patterns)
    let bgpOps := buildBgpOps h.pos (scanners.zip patterns) (List.replicate h.headerVec.length 0)
    match BGPIterator.construct P.ops fuel bgpOps h.headerVec c with
    | (.ok _, it) => pure (.bgp it)
    | (.error e, _) => Act.throw e
  else pure (.empty h.headerVec)

end Manager

end K2Cache
