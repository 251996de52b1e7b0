import K2Cache.Lib.OrdMap
import K2Cache.Spec.Bgp

/-!
# BGPProcessor

From the triple patterns of a message to the operators of the iterator: variables get
numbers in the order they are met, the headers are the numbers in increasing order, and
the operator of a pattern is chosen by which of its variables earlier patterns have
bound. The trees are fetched from the cache (`fetch`), the cache ids of real ids from the
node ids manager (`getId`).
-/

namespace K2Cache

open Lib

variable {T : Type}

/-! ## Messages -/

structure BGPNode where
  isConcrete : Bool
  varName : String
  realNodeId : UInt64
  cacheNodeId : UInt64
deriving DecidableEq, Repr

structure BGPTriple where
  subject : BGPNode
  predicate : BGPNode
  object : BGPNode
deriving DecidableEq, Repr

/-! ## VarIndexManager -/

structure VarIndexManager where
  varIndexes : OrdMap String ℕ
  currentIndex : ℕ

namespace VarIndexManager

/-- The constructor. -/
def construct : VarIndexManager := ⟨∅, 1⟩

/-- `assign_index_if_not_found`. -/
def assignIndexIfNotFound (vim : VarIndexManager) (name : String) : ℕ × VarIndexManager :=
  match vim.varIndexes.find? name with
  | some i => (i, vim)
  | none => (vim.currentIndex, ⟨vim.varIndexes.insert name vim.currentIndex, vim.currentIndex + 1⟩)

/-- `var_indexes[name]`, of a name that has an index. -/
def index (vim : VarIndexManager) (name : String) : ℕ := (vim.varIndexes.find? name).getD 0

/-- `reverse`. -/
def reverse (vim : VarIndexManager) : OrdMap ℕ String :=
  OrdMap.insertAll ∅ (vim.varIndexes.entries.map Prod.swap)

end VarIndexManager

/-! ## BGPOpsFactory -/

/-- `join_incidence[pos]++`. -/
def bump (ji : List ℤ) (pos : ℕ) : List ℤ := ji.set pos (ji.getD pos 0 + 1)

/-- `BGPOpsFactory::create_bgp_op`, where `pos` is the header position of a variable. -/
def createBgpOp (scanner : K2TreeScanner T) (t : BGPTriple) (pos : String → ℕ) (ji : List ℤ) :
    BGPOp T × List ℤ :=
  let sp := pos t.subject.varName
  let op := pos t.object.varName
  match !t.subject.isConcrete, !t.object.isConcrete with
  | true, true =>
    let ji' := bump (bump ji sp) op
    if 0 < ji.getD sp 0 ∧ 0 < ji.getD op 0 then (.twoVarIntersection scanner sp op, ji')
    else if 0 < ji.getD sp 0 then (.twoVarJoinOne .subjectVar scanner sp op none 0, ji')
    else if 0 < ji.getD op 0 then (.twoVarJoinOne .objectVar scanner sp op none 0, ji')
    else (.twoVarCProduct scanner sp op, ji')
  | true, false =>
    if 0 < ji.getD sp 0 then (.oneVarIntersect .subjectVar scanner sp, bump ji sp)
    else (.oneVarCP .subjectVar scanner sp, bump ji sp)
  | false, true =>
    if 0 < ji.getD op 0 then (.oneVarIntersect .objectVar scanner op, bump ji op)
    else (.oneVarCP .objectVar scanner op, bump ji op)
  | false, false => (.tripleExistence scanner t.subject.cacheNodeId t.object.cacheNodeId, ji)

/-! ## BGPProcessor -/

/-- `get_cache_id`: the id the node carries, or that of its real id; one that is not found
is `-1` in both. -/
def getCacheId (getId : UInt64 → UInt64) (n : BGPNode) : UInt64 :=
  if n.cacheNodeId = 0 ∨ n.cacheNodeId = -1 then getId n.realNodeId else n.cacheNodeId

/-- A triple with its cache ids filled. -/
def BGPTriple.resolve (getId : UInt64 → UInt64) (t : BGPTriple) : BGPTriple :=
  ⟨{ t.subject with cacheNodeId := getCacheId getId t.subject },
    { t.predicate with cacheNodeId := getCacheId getId t.predicate },
    { t.object with cacheNodeId := getCacheId getId t.object }⟩

/-- The variables, numbered, and those in the headers. -/
structure Headers where
  vim : VarIndexManager
  headerValues : OrdMap ℕ Unit

/-- `add_variable`, after the index was assigned. -/
def Headers.addVariable (h : Headers) (n : BGPNode) : Headers :=
  let a := h.vim.assignIndexIfNotFound n.varName
  ⟨a.2, if a.1 ≠ 0 then h.headerValues.insert a.1 () else h.headerValues⟩

/-- The round of `find_headers` for a pattern. -/
def Headers.addTriple (h : Headers) (t : BGPTriple) : Headers :=
  let vim₁ := if t.subject.isConcrete then h.vim else (h.vim.assignIndexIfNotFound t.subject.varName).2
  let vim₂ := if t.object.isConcrete then vim₁ else (vim₁.assignIndexIfNotFound t.object.varName).2
  let h₁ : Headers := ⟨vim₂, h.headerValues⟩
  let h₂ := if t.subject.isConcrete then h₁ else h₁.addVariable t.subject
  if t.object.isConcrete then h₂ else h₂.addVariable t.object

/-- `find_headers`. -/
def findHeaders (vim : VarIndexManager) (patterns : List BGPTriple) : Headers :=
  patterns.foldl Headers.addTriple ⟨vim, ∅⟩

/-- `header_vec`. -/
def Headers.headerVec (h : Headers) : List ℕ := h.headerValues.keys

/-- `build_rev_map`. -/
def Headers.headerReverseMap (h : Headers) : OrdMap ℕ ℕ :=
  OrdMap.insertAll ∅ h.headerVec.zipIdx

/-- `header_rev_map[vim.var_indexes[name]]`. -/
def Headers.pos (h : Headers) (name : String) : ℕ := (h.headerReverseMap.find? (h.vim.index name)).getD 0

/-- `do_all_predicates_have_trees`. -/
def doAllPredicatesHaveTrees (fetch : UInt64 → Option T) (patterns : List BGPTriple) : Bool :=
  patterns.all fun t => t.predicate.cacheNodeId ≠ 0 && (fetch t.predicate.cacheNodeId).isSome

/-- The kind of scanner `build_scanners` makes for a pattern. -/
def scannerKind (t : BGPTriple) : ScannerKind :=
  match !t.subject.isConcrete, !t.object.isConcrete with
  | true, true => .full
  | true, false => .band t.object.cacheNodeId .row
  | false, true => .band t.subject.cacheNodeId .column
  | false, false => .empty

/-- `build_scanners`; a tree that is missing would be a null pointer. -/
def buildScanners (ops : TreeOps T) (fetch : UInt64 → Option T) : List BGPTriple → Except Exn (List (K2TreeScanner T))
  | [] => .ok []
  | t :: ts =>
    match fetch t.predicate.cacheNodeId with
    | none => .error .nullDereference
    | some tree =>
      match buildScanners ops fetch ts with
      | .error e => .error e
      | .ok l => .ok (.create ops tree (scannerKind t) :: l)

/-- `build_bgp_ops`. -/
def buildBgpOps (pos : String → ℕ) : List (K2TreeScanner T × BGPTriple) → List ℤ → List (BGPOp T)
  | [], _ => []
  | (s, t) :: l, ji =>
    let r := createBgpOp s t pos ji
    r.1 :: buildBgpOps pos l r.2

/-- What `execute_it` returns. -/
inductive QueryIterator (T : Type) where
  | empty (headers : List ℕ)
  | bgp (it : BGPIterator T)

/-- `BGPProcessor::execute_it`, of a processor constructed with these patterns. -/
def executeIt (ops : TreeOps T) (fetch : UInt64 → Option T) (getId : UInt64 → UInt64) (vim : VarIndexManager)
    (c : TimeControl) (patterns : List BGPTriple) (fuel : ℕ) : Except Halt (QueryIterator T) :=
  let patterns := patterns.map (BGPTriple.resolve getId)
  let h := findHeaders vim patterns
  if doAllPredicatesHaveTrees fetch patterns then
    match buildScanners ops fetch patterns with
    | .error e => .error (.thrown e)
    | .ok scanners =>
      let bgpOps := buildBgpOps h.pos (scanners.zip patterns) (List.replicate h.headerVec.length 0)
      match BGPIterator.construct ops fuel bgpOps h.headerVec c with
      | (.ok _, it) => .ok (.bgp it)
      | (.error e, _) => .error e
  else .ok (.empty h.headerVec)

/-- The rows of a drained iterator. -/
def QueryIterator.drain (ops : TreeOps T) (fuel : ℕ) : QueryIterator T → Except Halt (List Row)
  | .empty _ => .ok []
  | .bgp it => (BGPIterator.drain ops fuel fuel it).1

end K2Cache
