import K2Cache.Lib.Machine
import K2Cache.Spec.Streamers

/-!
# A cached source that is shared

`FullyIndexedPredicate` and its scanners as they run: a lookup is `map[key]`, which inserts an
empty vector for a key that is new, and a scanner holds references into the maps of a
source that other lookups write to. (The scanners of `Spec.Streamers` have a copy of it.)

The iterator over the base set is also read where it is at the end. `pastEnd` is what
such reads give, one after the other.
-/

namespace K2Cache

open Lib

variable {T : Type}

/-! ## FullyIndexedPredicate -/

/-- A reference to a vector of one of the maps. -/
inductive VectorRef where
  | objectsOf (subject : UInt64)
  | subjectsOf (object : UInt64)
  deriving DecidableEq

/-- The map after `map[key]`. -/
def afterAt (m : OrdMap UInt64 (List UInt64)) (key : UInt64) : OrdMap UInt64 (List UInt64) :=
  if m.contains key then m else m.insert key []

namespace FullyIndexedPredicate

/-- What a reference refers to. -/
def vector (p : FullyIndexedPredicate) : VectorRef → List UInt64
  | .objectsOf s => p.getObjects s
  | .subjectsOf o => p.getSubjects o

/-- The key is one of the map. -/
def hasKey (p : FullyIndexedPredicate) : VectorRef → Bool
  | .objectsOf s => p.subjectToObject.contains s
  | .subjectsOf o => p.objectToSubject.contains o

/-- The maps after a lookup. -/
def lookup (p : FullyIndexedPredicate) : VectorRef → FullyIndexedPredicate
  | .objectsOf s => { p with subjectToObject := afterAt p.subjectToObject s }
  | .subjectsOf o => { p with objectToSubject := afterAt p.objectToSubject o }

/-- `has`, and the maps after it. -/
def hasAt (p : FullyIndexedPredicate) (subjectId objectId : UInt64) : Bool × FullyIndexedPredicate :=
  let p := (p.lookup (.objectsOf subjectId)).lookup (.subjectsOf objectId)
  (p.has subjectId objectId, p)

/-- `get_subjects` and `get_objects`, and the maps after them. -/
def getAt (p : FullyIndexedPredicate) (r : VectorRef) : List UInt64 × FullyIndexedPredicate :=
  ((p.lookup r).vector r, p.lookup r)

end FullyIndexedPredicate

namespace Shared

/-- The source, and how often an iterator was read at the end of its set. -/
structure CachedSource where
  predicate : FullyIndexedPredicate
  endReads : ℕ

/-- The source of a tree. -/
def CachedSource.construct (ops : TreeOps T) (k2tree : T) : CachedSource := ⟨.construct ops k2tree, 0⟩

/-- A lookup through the source. -/
def CachedSource.lookup (c : CachedSource) (r : VectorRef) : CachedSource := { c with predicate := c.predicate.lookup r }

/-- `*it`, of an iterator with this much ahead. -/
def CachedSource.readIt (pastEnd : ℕ → UInt64) (c : CachedSource) : List UInt64 → UInt64 × CachedSource
  | element :: _ => (element, c)
  | [] => (pastEnd c.endReads, { c with endReads := c.endReads + 1 })

/-! ## The scanners -/

/-- `CachedSubjectObjectScanner`, with the base set from the iterator on. -/
structure CachedSubjectObjectScanner where
  leftRightDir : Bool
  baseSetIt : List UInt64
  activeRightElements : VectorRef
  currentBaseElement : UInt64
  currentActiveElementPosition : ℕ

namespace CachedSubjectObjectScanner

/-- What `get_active_elements` returns. -/
def activeElements (leftRightDir : Bool) (element : UInt64) : VectorRef :=
  if leftRightDir then .objectsOf element else .subjectsOf element

variable (pastEnd : ℕ → UInt64)

/-- `current_base_element = *base_set_it; active_right_elements = get_active_elements();` -/
def moveTo (it : List UInt64) (s : CachedSubjectObjectScanner) (c : CachedSource) :
    CachedSubjectObjectScanner × CachedSource :=
  let read := c.readIt pastEnd it
  let active := activeElements s.leftRightDir read.1
  (⟨s.leftRightDir, it, active, read.1, 0⟩, read.2.lookup active)

/-- The constructor. -/
def construct (c : CachedSource) : CachedSubjectObjectScanner × CachedSource :=
  let leftRightDir : Bool := c.predicate.subjects.size ≤ c.predicate.objects.size
  let baseSet := if leftRightDir then c.predicate.subjects.keys else c.predicate.objects.keys
  moveTo pastEnd baseSet ⟨leftRightDir, baseSet, .objectsOf 0, 0, 0⟩ c

/-- The loop of `has_next`, with the iterator. -/
def skip : List UInt64 → CachedSubjectObjectScanner → CachedSource → CachedSubjectObjectScanner × CachedSource
  | [], s, c => (s, c)
  | _ :: it, s, c =>
    if (c.predicate.vector s.activeRightElements).length ≤ s.currentActiveElementPosition then
      skip it (s.moveTo pastEnd it c).1 (s.moveTo pastEnd it c).2
    else (s, c)

/-- `has_next`. -/
def hasNext (s : CachedSubjectObjectScanner) (c : CachedSource) : Bool × CachedSubjectObjectScanner × CachedSource :=
  let r := skip pastEnd s.baseSetIt s c
  (!r.1.baseSetIt.isEmpty, r)

/-- `next`. -/
def next (s : CachedSubjectObjectScanner) (c : CachedSource) : Except Exn (Point × CachedSubjectObjectScanner) :=
  match (c.predicate.vector s.activeRightElements)[s.currentActiveElementPosition]? with
  | none => .error .outOfRange
  | some nextActive =>
    .ok (if s.leftRightDir then (s.currentBaseElement, nextActive) else (nextActive, s.currentBaseElement),
      { s with currentActiveElementPosition := s.currentActiveElementPosition + 1 })

end CachedSubjectObjectScanner

/-- `has_next` and `next` in turn until there is no more: the points they give, and the source
after them. -/
inductive Scans (pastEnd : ℕ → UInt64) : CachedSubjectObjectScanner → CachedSource → List Point → CachedSource → Prop
  | done {s : CachedSubjectObjectScanner} {c : CachedSource} (h : (s.hasNext pastEnd c).1 = false) :
      Scans pastEnd s c [] (s.hasNext pastEnd c).2.2
  | more {s s' : CachedSubjectObjectScanner} {c c' : CachedSource} {x : Point} {l : List Point}
      (h : (s.hasNext pastEnd c).1 = true)
      (hnext : (s.hasNext pastEnd c).2.1.next (s.hasNext pastEnd c).2.2 = .ok (x, s'))
      (hrest : Scans pastEnd s' (s.hasNext pastEnd c).2.2 l c') : Scans pastEnd s c (x :: l) c'

/-- `CachedSourceScanner`. -/
inductive CachedSourceScanner where
  | subjectObject (s : CachedSubjectObjectScanner)
  | object (objects : VectorRef) (currentPosition : ℕ) (subjectValue : UInt64)
  | subject (subjects : VectorRef) (currentPosition : ℕ) (objectValue : UInt64)

/-- Which scanner: of all points, of the objects of a subject, or of the subjects of an object. -/
inductive ScannerOf where
  | all
  | vector (r : VectorRef)

namespace CachedSourceScanner

variable (pastEnd : ℕ → UInt64)

/-- The constructors. -/
def construct (c : CachedSource) : ScannerOf → CachedSourceScanner × CachedSource
  | .all => (.subjectObject (CachedSubjectObjectScanner.construct pastEnd c).1,
      (CachedSubjectObjectScanner.construct pastEnd c).2)
  | .vector (.objectsOf s) => (.object (.objectsOf s) 0 s, c.lookup (.objectsOf s))
  | .vector (.subjectsOf o) => (.subject (.subjectsOf o) 0 o, c.lookup (.subjectsOf o))

/-- `has_next`. -/
def hasNext (c : CachedSource) : CachedSourceScanner → Bool × CachedSourceScanner × CachedSource
  | .subjectObject s =>
    ((s.hasNext pastEnd c).1, .subjectObject (s.hasNext pastEnd c).2.1, (s.hasNext pastEnd c).2.2)
  | .object objects pos v => ((pos : ℤ) < wrapInt (c.predicate.vector objects).length, .object objects pos v, c)
  | .subject subjects pos v => ((pos : ℤ) < wrapInt (c.predicate.vector subjects).length, .subject subjects pos v, c)

/-- `next`. -/
def next (c : CachedSource) : CachedSourceScanner → Except Exn (Point × CachedSourceScanner)
  | .subjectObject s => (s.next c).map fun r => (r.1, .subjectObject r.2)
  | .object objects pos v =>
    match (c.predicate.vector objects)[pos]? with
    | none => .error .outOfRange
    | some o => .ok ((v, o), .object objects (pos + 1) v)
  | .subject subjects pos v =>
    match (c.predicate.vector subjects)[pos]? with
    | none => .error .outOfRange
    | some s => .ok ((s, v), .subject subjects (pos + 1) v)

end CachedSourceScanner

/-! ## Runs -/

/-- A scanner that was made, the points it has given, and what `has_next` has said of the
next one. -/
structure OpenScanner where
  scannerOf : ScannerOf
  scanner : CachedSourceScanner
  visited : List Point
  more : Option Bool

structure State where
  source : CachedSource
  scanners : List OpenScanner

/-- A call of the source or of one of its scanners. -/
inductive Call where
  | has (subjectId objectId : UInt64)
  | get (r : VectorRef)
  | scan (k : ScannerOf)
  | hasNext (i : ℕ)
  | next (i : ℕ)

namespace State

variable (pastEnd : ℕ → UInt64) (st : State)

/-- `has_next` of a scanner. -/
def hasNext (i : ℕ) (o : OpenScanner) : State :=
  let r := o.scanner.hasNext pastEnd st.source
  ⟨r.2.2, st.scanners.set i { o with scanner := r.2.1, more := some r.1 }⟩

/-- `next` of a scanner. It is called where `has_next` has said that there is more. -/
def next (i : ℕ) (o : OpenScanner) : Option State :=
  if o.more = some true then
    match o.scanner.next st.source with
    | .error _ => none
    | .ok r => some ⟨st.source, st.scanners.set i ⟨o.scannerOf, r.2, o.visited ++ [r.1], none⟩⟩
  else none

/-- One call. -/
def call : Call → Option State
  | .has subjectId objectId =>
    some { st with source := { st.source with predicate := (st.source.predicate.hasAt subjectId objectId).2 } }
  | .get r => some { st with source := { st.source with predicate := (st.source.predicate.getAt r).2 } }
  | .scan k =>
    let r := CachedSourceScanner.construct pastEnd st.source k
    some ⟨r.2, st.scanners ++ [⟨k, r.1, [], none⟩]⟩
  | .hasNext i => (st.scanners[i]?).map (st.hasNext pastEnd i)
  | .next i => (st.scanners[i]?).bind (st.next i)

end State

/-- A cached source, with the calls made to it. -/
def machine (pastEnd : ℕ → UInt64) : Machine State Call := ⟨State.call pastEnd⟩

/-- Nothing was called yet. -/
def start (ops : TreeOps T) (k2tree : T) : State := ⟨.construct ops k2tree, []⟩

end Shared

end K2Cache
