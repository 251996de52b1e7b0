import K2Cache.Spec.Logger

/-!
# Trees as lists of points

The simplest trees with the operations of `TreeOps`: a list of points without
repetition, written as its points, each behind a byte `1`, and a final byte `0`.
Concrete runs of the cache are evaluated over them.
-/

namespace K2Cache

open Lib

/-- A finite set of points, as a list without repetition. -/
def PointTree : Type := {l : List Point // l.Nodup}

namespace PointTree

instance : DecidableEq PointTree := inferInstanceAs (DecidableEq {l : List Point // l.Nodup})

/-- The tree of some points. -/
def ofList (l : List Point) : PointTree := ⟨l.dedup, l.nodup_dedup⟩

def empty : PointTree := ⟨[], List.nodup_nil⟩

def insert (t : PointTree) (x : Point) : PointTree :=
  if h : x ∈ t.1 then t else ⟨x :: t.1, List.nodup_cons.2 ⟨h, t.2⟩⟩

def remove (t : PointTree) (x : Point) : PointTree := ⟨t.1.filter (fun y => y ≠ x), t.2.filter _⟩

/-- The values a band scanner reports. -/
def bandValues (bt : BandType) (b : UInt64) (l : List Point) : List UInt64 :=
  match bt with
  | .column => (l.filter (fun x => x.1 = b)).map Prod.snd
  | .row => (l.filter (fun x => x.2 = b)).map Prod.fst

def pointsBytes : List Point → Bytes
  | [] => [0]
  | x :: l => 1 :: (u64Bytes x.1 ++ (u64Bytes x.2 ++ pointsBytes l))

/-- Reads points up to the final byte; `fuel` bounds their number. -/
def readPoints : ℕ → IStream → Except Exn (List Point) × IStream
  | 0, s => (.error zeroBlocks, s)
  | fuel + 1, s =>
    match (s.read 1).1 with
    | [0] => (.ok [], (s.read 1).2)
    | [1] =>
      let a := (s.read 1).2.readU64
      let b := a.2.readU64
      match readPoints fuel b.2 with
      | (.ok l, s') => (.ok ((a.1, b.1) :: l), s')
      | (.error e, s') => (.error e, s')
    | _ => (.error zeroBlocks, (s.read 1).2)

def readTree (s : IStream) : Except Exn PointTree × IStream :=
  match readPoints (s.data.length + 1) s with
  | (.ok l, s') => if h : l.Nodup then (.ok ⟨l, h⟩, s') else (.error zeroBlocks, s')
  | (.error e, s') => (.error e, s')

def ops : TreeOps PointTree where
  empty _ := empty
  insert := insert
  remove := remove
  has t x := decide (x ∈ t.1)
  fullScan t := t.1
  bandScan t bt b := bandValues bt b t.1
  measure t := t.1.length
  writeToOstream t := pointsBytes t.1
  readFromIstream := readTree
  readIntoSegment n s :=
    match readTree s with
    | (.ok t, s') => if t.1.length ≤ n then (.ok t, s') else (.error (.runtimeError "out of memory"), s')
    | r => r

theorem readPoints_reads (l : List Point) (fuel : ℕ) (hf : l.length < fuel) :
    IStream.Reads (readPoints fuel) (pointsBytes l) (.ok l) := by
  induction l generalizing fuel with
  | nil =>
    intro s h
    obtain ⟨fuel, rfl⟩ : ∃ k, fuel = k + 1 := ⟨fuel - 1, by simp at hf; omega⟩
    have h1 : s.read [(0 : UInt8)].length = ([0], s.skip 1) := IStream.read_ahead h
    rw [List.length_singleton] at h1
    simp [readPoints, h1, pointsBytes]
  | cons x l ih =>
    intro s h
    obtain ⟨fuel, rfl⟩ : ∃ k, fuel = k + 1 := ⟨fuel - 1, by simp at hf; omega⟩
    have hr : IStream.Reads (readPoints fuel) (pointsBytes l) (.ok l) := ih fuel (by simpa using hf)
    have hs : s.Ahead ([1] ++ (u64Bytes x.1 ++ (u64Bytes x.2 ++ pointsBytes l))) := h
    have h1 : s.read [(1 : UInt8)].length = ([1], s.skip 1) := IStream.read_ahead hs.left
    rw [List.length_singleton] at h1
    have h2 := IStream.reads_readU64 x.1 _ hs.right.left
    have h3 := IStream.reads_readU64 x.2 _ hs.right.right.left
    have h4 := hr _ hs.right.right.right
    simp only [IStream.skip_skip, List.length_singleton, u64Bytes_length] at h2 h3 h4
    simp only [readPoints, h1, h2, h3, h4, pointsBytes, List.length_cons, List.length_append, u64Bytes_length]
    congr 2
    omega

theorem length_lt_pointsBytes (l : List Point) : l.length < (pointsBytes l).length := by
  induction l with
  | nil => simp [pointsBytes]
  | cons x l ih => simp only [pointsBytes, List.length_cons, List.length_append, u64Bytes_length]; omega

theorem readTree_reads (t : PointTree) : IStream.Reads readTree (pointsBytes t.1) (.ok t) := by
  intro s h
  have hl : t.1.length < s.data.length + 1 := by
    have h1 := length_lt_pointsBytes t.1
    have h2 := h.2.length_le
    rw [List.length_drop] at h2
    omega
  simp only [readTree, readPoints_reads t.1 _ hl s h, t.2, dite_true]
  rfl

theorem mem_bandValues (bt : BandType) (b v : UInt64) (l : List Point) :
    v ∈ bandValues bt b l ↔ bandPoint bt b v ∈ l := by
  cases bt with
  | column =>
    simp only [bandValues, bandPoint, List.mem_map, List.mem_filter, decide_eq_true_eq]
    constructor
    · rintro ⟨⟨a, c⟩, ⟨hm, rfl⟩, rfl⟩; exact hm
    · intro hm; exact ⟨(b, v), ⟨hm, rfl⟩, rfl⟩
  | row =>
    simp only [bandValues, bandPoint, List.mem_map, List.mem_filter, decide_eq_true_eq]
    constructor
    · rintro ⟨⟨a, c⟩, ⟨hm, rfl⟩, rfl⟩; exact hm
    · intro hm; exact ⟨(v, b), ⟨hm, rfl⟩, rfl⟩

theorem nodup_bandValues (bt : BandType) (b : UInt64) {l : List Point} (h : l.Nodup) :
    (bandValues bt b l).Nodup := by
  cases bt with
  | column =>
    refine (h.filter _).map_on ?_
    rintro ⟨a, c⟩ ha ⟨a', c'⟩ ha' rfl
    simp only [List.mem_filter, decide_eq_true_eq] at ha ha'
    rw [ha.2, ha'.2]
  | row =>
    refine (h.filter _).map_on ?_
    rintro ⟨a, c⟩ ha ⟨a', c'⟩ ha' rfl
    simp only [List.mem_filter, decide_eq_true_eq] at ha ha'
    rw [ha.2, ha'.2]

/-- **Lists of points are lawful trees.** -/
theorem ops_lawful : ops.Lawful where
  has_empty _ x := by simp [ops, empty]
  has_insert t x y := by
    by_cases h : x ∈ t.1
    · by_cases hy : y = x
      · subst hy; simp [ops, insert, h]
      · simp [ops, insert, h, hy]
    · by_cases hy : y = x <;> simp [ops, insert, h, hy]
  has_remove t x y := by
    by_cases hy : y = x <;> simp [ops, remove, hy]
  mem_fullScan t x := by simp [ops]
  nodup_fullScan t := t.2
  mem_bandScan t bt b v := by simp [ops, mem_bandValues]
  nodup_bandScan t bt b := nodup_bandValues bt b t.2
  read_write t := readTree_reads t
  read_segment t n hn := by
    intro s h
    have hn' : t.1.length ≤ n := hn
    simp only [ops, readTree_reads t s h, hn', if_true]

/-! ## Trees of one byte -/

/-- The same trees, all of which take up one byte of memory. -/
def byteOps : TreeOps PointTree :=
  { ops with
    measure := fun _ => 1
    readIntoSegment := fun n s => if 1 ≤ n then readTree s else (.error (.runtimeError "out of memory"), s) }

theorem byteOps_lawful : byteOps.Lawful where
  has_empty := ops_lawful.has_empty
  has_insert := ops_lawful.has_insert
  has_remove := ops_lawful.has_remove
  mem_fullScan := ops_lawful.mem_fullScan
  nodup_fullScan := ops_lawful.nodup_fullScan
  mem_bandScan := ops_lawful.mem_bandScan
  nodup_bandScan := ops_lawful.nodup_bandScan
  read_write := ops_lawful.read_write
  read_segment t n hn := by
    intro s h
    have hn' : 1 ≤ n := hn
    simp only [byteOps, hn', if_true]
    exact readTree_reads t s h

/-! ## A logger over them -/

/-- The logger over these trees, with a merger that ignores what it is given. -/
def params (mode : OpenMode) : LoggerParams PointTree Unit :=
  ⟨ops, ⟨fun _ _ => pure (), fun _ _ => pure (), fun _ => pure ()⟩, mode⟩

/-- A logger on a disk without files. -/
def freshEnv : LogEnv Unit := ⟨fun _ => none, ⟨false, none, openMetadata (fun _ => none), ∅, 0⟩, ()⟩

/-- Updates of a predicate that only add, and that only remove, some points. -/
def inserting (p : UInt64) (l : List Point) : K2TreeUpdates PointTree := ⟨p, some (ofList l), none⟩
def deleting (p : UInt64) (l : List Point) : K2TreeUpdates PointTree := ⟨p, none, some (ofList l)⟩

end PointTree

end K2Cache
