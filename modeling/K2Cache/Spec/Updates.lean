import K2Cache.Spec.Tree

/-!
# Updates of a predicate

`K2TreeUpdates` is what a session hands to the log: a tree of points to add, a tree
of points to remove, either may be missing. `PredicateUpdate` is what is read back
from the log; `PredicateUpdate.mergeWith` folds a later update into an earlier one.
-/

namespace K2Cache

open Lib

/-- `K2TreeUpdates::UPDATE_KIND`. -/
inductive UpdateKind where
  | insertUpdate
  | deleteUpdate
  | bothUpdate
  | noUpdate
deriving DecidableEq, Repr

/-- The value written to the log. -/
def UpdateKind.code : UpdateKind → UInt32
  | .insertUpdate => 0
  | .deleteUpdate => 1
  | .bothUpdate => 2
  | .noUpdate => 3

structure K2TreeUpdates (T : Type) where
  predicateId : UInt64
  k2treeAdd : Option T
  k2treeDel : Option T

/-- `UpdatesLoggerImpl::PredicateUpdate`. -/
structure PredicateUpdate (T : Type) where
  predicateId : UInt64
  addUpdate : Option T
  delUpdate : Option T
deriving DecidableEq

variable {T : Type}

namespace K2TreeUpdates

/-- `get_kind`. -/
def getKind (u : K2TreeUpdates T) : UpdateKind :=
  if u.k2treeDel.isSome && u.k2treeAdd.isSome then .bothUpdate
  else if u.k2treeAdd.isSome then .insertUpdate
  else if u.k2treeDel.isSome then .deleteUpdate
  else .noUpdate

/-- The update as it is read back from the log. -/
def toPredicateUpdate (u : K2TreeUpdates T) : PredicateUpdate T := ⟨u.predicateId, u.k2treeAdd, u.k2treeDel⟩

end K2TreeUpdates

namespace PredicateUpdate

variable (ops : TreeOps T)

/-- The kind of a record: which of its trees are there. -/
def getKind (u : PredicateUpdate T) : UpdateKind := K2TreeUpdates.getKind ⟨u.predicateId, u.addUpdate, u.delUpdate⟩

/-- One point of the later update's add tree: taken out of the deletes, put into
the adds, where these trees exist. -/
def mergeAddPoint (u : PredicateUpdate T) (x : Point) : PredicateUpdate T :=
  { u with
    delUpdate := u.delUpdate.map (ops.remove · x)
    addUpdate := u.addUpdate.map (ops.insert · x) }

/-- One point of the later update's delete tree. -/
def mergeDelPoint (u : PredicateUpdate T) (x : Point) : PredicateUpdate T :=
  { u with
    addUpdate := u.addUpdate.map (ops.remove · x)
    delUpdate := u.delUpdate.map (ops.insert · x) }

/-- `merge_with`. -/
def mergeWith (u update : PredicateUpdate T) : PredicateUpdate T :=
  if update.addUpdate.isNone && update.delUpdate.isNone then u
  else
    let u₁ := match update.addUpdate with
      | some a => (ops.fullScan a).foldl (mergeAddPoint ops) u
      | none => u
    match update.delUpdate with
    | some d => (ops.fullScan d).foldl (mergeDelPoint ops) u₁
    | none => u₁

/-- What a record does to a set of points: add its add tree, then remove its delete tree. -/
def patch (u : PredicateUpdate T) : Patch Point := ⟨ops.pointsOpt u.addUpdate, ops.pointsOpt u.delUpdate⟩

end PredicateUpdate

/-- What an update does to a set of points. -/
def K2TreeUpdates.patch (ops : TreeOps T) (u : K2TreeUpdates T) : Patch Point := u.toPredicateUpdate.patch ops

end K2Cache
