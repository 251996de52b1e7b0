import K2Cache.Lib.Patch
import K2Cache.Lib.Stream

/-!
# K2TreeMixed, as the rest of the cache sees it

The tree operations are in `lib/c-k2tree-dyn`, a submodule. The cache is modelled
over any type `T` of trees with these operations (`TreeOps`); what it relies on is
that trees behave as finite sets of points, that scanners visit each point once,
and that a serialized tree is read back (`TreeOps.Lawful`).
-/

namespace K2Cache

open Lib

/-- What a call can throw. `nullDereference` is not an exception in the source: it
marks the places where a null pointer would be used. -/
inductive Exn where
  | runtimeError (what : String)
  | noRefException (what : String)
  | outOfRange
  | nullDereference
deriving DecidableEq, Repr

/-- A point of a tree: column (subject) and row (object). -/
abbrev Point := UInt64 × UInt64

structure K2TreeConfig where
  treedepth : UInt32
  maxNodeCount : UInt32
  cutDepth : UInt32
deriving DecidableEq, Repr

/-- `K2TreeConfig::write_to_ostream`. -/
def K2TreeConfig.toBytes (c : K2TreeConfig) : Bytes :=
  u32Bytes c.treedepth ++ u32Bytes c.maxNodeCount ++ u32Bytes c.cutDepth

/-- `K2TreeConfig::read_from_istream`. -/
def K2TreeConfig.readFromIstream (s : IStream) : K2TreeConfig × IStream :=
  let a := s.readU32
  let b := a.2.readU32
  let c := b.2.readU32
  (⟨a.1, b.1, c.1⟩, c.2)

/-- `K2TreeScanner::BandType`. -/
inductive BandType where
  | column
  | row
deriving DecidableEq, Repr

/-- The operations of `K2TreeMixed`. -/
structure TreeOps (T : Type) where
  empty : K2TreeConfig → T
  insert : T → Point → T
  remove : T → Point → T
  has : T → Point → Bool
  /-- The points in the order a full scanner visits them. -/
  fullScan : T → List Point
  /-- The values in the order a band scanner reports them: rows of a column, columns of a row. -/
  bandScan : T → BandType → UInt64 → List UInt64
  /-- `measure_in_memory_size().total_bytes`. -/
  measure : T → ℕ
  writeToOstream : T → Bytes
  readFromIstream : IStream → Except Exn T × IStream
  /-- Reading into a memory segment of the given size. -/
  readIntoSegment : ℕ → IStream → Except Exn T × IStream

/-- The point a band scanner returns for a reported value. -/
def bandPoint (bt : BandType) (band v : UInt64) : Point :=
  match bt with
  | .column => (band, v)
  | .row => (v, band)

namespace TreeOps

variable {T : Type} (ops : TreeOps T)

/-- **What the cache relies on**: trees are finite sets of points, scanners visit
each point once, a serialized tree is read back, also into a segment of its size. -/
structure Lawful : Prop where
  has_empty : ∀ c x, ops.has (ops.empty c) x = false
  has_insert : ∀ t x y, ops.has (ops.insert t x) y = (decide (y = x) || ops.has t y)
  has_remove : ∀ t x y, ops.has (ops.remove t x) y = (!decide (y = x) && ops.has t y)
  mem_fullScan : ∀ t x, x ∈ ops.fullScan t ↔ ops.has t x = true
  nodup_fullScan : ∀ t, (ops.fullScan t).Nodup
  mem_bandScan : ∀ t bt b v, v ∈ ops.bandScan t bt b ↔ ops.has t (bandPoint bt b v) = true
  nodup_bandScan : ∀ t bt b, (ops.bandScan t bt b).Nodup
  read_write : ∀ t, IStream.Reads ops.readFromIstream (ops.writeToOstream t) (.ok t)
  read_segment : ∀ t n, ops.measure t ≤ n →
    IStream.Reads (ops.readIntoSegment n) (ops.writeToOstream t) (.ok t)

/-- The points of a tree. -/
def points (t : T) : Set Point := {x | ops.has t x = true}

/-- The points of a tree that may be missing. -/
def pointsOpt : Option T → Set Point
  | none => ∅
  | some t => ops.points t

/-- Inserts the points of `src` into `t`, in scan order. -/
def insertAll (t src : T) : T := (ops.fullScan src).foldl ops.insert t

/-- Removes the points of `src` from `t`, in scan order. -/
def removeAll (t src : T) : T := (ops.fullScan src).foldl ops.remove t

variable {ops} (hl : ops.Lawful)
include hl

theorem Lawful.points_empty (c : K2TreeConfig) : ops.points (ops.empty c) = ∅ := by
  ext x; simp [points, hl.has_empty]

theorem Lawful.points_insert (t : T) (x : Point) : ops.points (ops.insert t x) = ops.points t ∪ {x} := by
  ext y; simp [points, hl.has_insert]

theorem Lawful.points_remove (t : T) (x : Point) : ops.points (ops.remove t x) = ops.points t \ {x} := by
  ext y; simp [points, hl.has_remove, and_comm]

theorem Lawful.points_foldl_insert (l : List Point) (t : T) :
    ops.points (l.foldl ops.insert t) = ops.points t ∪ {x | x ∈ l} := by
  induction l generalizing t with
  | nil => simp
  | cons x l ih =>
    rw [List.foldl_cons, ih, hl.points_insert]
    ext y
    simp only [Set.mem_union, Set.mem_singleton_iff, Set.mem_ofPred_eq, List.mem_cons]
    tauto

theorem Lawful.points_foldl_remove (l : List Point) (t : T) :
    ops.points (l.foldl ops.remove t) = ops.points t \ {x | x ∈ l} := by
  induction l generalizing t with
  | nil => simp
  | cons x l ih =>
    rw [List.foldl_cons, ih, hl.points_remove]
    ext y
    simp only [Set.mem_sdiff, Set.mem_singleton_iff, Set.mem_ofPred_eq, List.mem_cons]
    tauto

theorem Lawful.points_insertAll (t src : T) : ops.points (ops.insertAll t src) = ops.points t ∪ ops.points src := by
  rw [insertAll, hl.points_foldl_insert]
  congr 1
  ext x
  exact hl.mem_fullScan src x

theorem Lawful.points_removeAll (t src : T) : ops.points (ops.removeAll t src) = ops.points t \ ops.points src := by
  rw [removeAll, hl.points_foldl_remove]
  congr 1
  ext x
  exact hl.mem_fullScan src x

end TreeOps

end K2Cache
