import K2Cache.Lib.Machine
import K2Cache.Spec.Index

/-!
# Memory segments

A segment is an array on the heap that hands out its bytes from the front. The manager
keeps the segments by the address of their array, the highest first, and knows the address
of each by the pointer to it. Where the heap puts a segment and its array is not for the
code to say: the addresses, which are numbers, are given. (The index only needs to tell its
segments apart: there they are numbered, see `MemoryManager` in `Spec.Index`.)
-/

namespace K2Cache.Memory

open Lib

/-! ## MemorySegment -/

structure MemorySegment where
  data : ℕ
  sizeBytes : ℕ
  bytePosition : ℕ
deriving DecidableEq, Repr

namespace MemorySegment

/-- The constructor. -/
def construct (data : ℕ) (sizeBytes : ℕ) : MemorySegment := ⟨data, sizeBytes, 0⟩

/-- What `require_bytes` throws, and what is thrown by those who call it. -/
inductive Thrown where
  | outOfMemory (neededBytes sizeBytes : ℕ)
  | exn (e : Exn)
deriving DecidableEq, Repr

/-- `require_bytes`; no bytes are at the null pointer. -/
def requireBytes (neededBytes : ℕ) : Act Thrown MemorySegment (Option ℕ) := fun s =>
  if neededBytes = 0 then (.ok none, s)
  else if s.sizeBytes < neededBytes + s.bytePosition then (.error (.outOfMemory neededBytes s.sizeBytes), s)
  else (.ok (some (s.data + s.bytePosition)), { s with bytePosition := s.bytePosition + neededBytes })

/-- `has`. -/
def has (s : MemorySegment) (ptr : ℕ) : Bool := s.data ≤ ptr && ptr < s.data + s.sizeBytes

end MemorySegment

/-! ## MemoryManager -/

/-- The maps of the manager: the first is in the order of `Comp`. -/
structure MemoryManager where
  memorySegments : OrdMap ℕᵒᵈ (ℕ × MemorySegment)
  reverseMemSegmentsMap : OrdMap ℕ ℕ

namespace MemoryManager

/-- `new_memory_segment`, of a segment the heap puts at `ptr`, with its array at `data`. -/
def newMemorySegment (ptr data : ℕ) (size : ℕ) (m : MemoryManager) : MemoryManager :=
  ⟨m.memorySegments.insert (.toDual data) (ptr, .construct data size), m.reverseMemSegmentsMap.insert ptr data⟩

/-- `find_segment`. -/
def findSegment (m : MemoryManager) (ptr : ℕ) : Option ℕ :=
  match m.memorySegments.lowerBound? (.toDual ptr) with
  | none => none
  | some it => if !it.2.2.has ptr then none else some it.2.1

/-- `free_segment`; erasing at the end of a map is undefined. -/
def freeSegment (memorySegment : ℕ) (m : MemoryManager) : Except Exn MemoryManager :=
  match m.reverseMemSegmentsMap.find? memorySegment with
  | none => .ok m
  | some address =>
    match m.memorySegments.find? (.toDual address) with
    | none => .error .nullDereference
    | some _ => .ok ⟨m.memorySegments.erase (.toDual address), m.reverseMemSegmentsMap.erase memorySegment⟩

end MemoryManager

/-! ## The free routines of the trees -/

/-- What becomes of an address: nothing, as it is in a segment, or it is deleted, as an
object or as an array. -/
inductive Freed where
  | segment (ptr : ℕ)
  | delete (a : ℕ)
  | deleteArray (a : ℕ)
deriving DecidableEq, Repr

/-- What the free routines have in common. -/
def freeAt (delete : ℕ → Freed) (m : MemoryManager) (a : ℕ) : Freed :=
  match m.findSegment a with
  | some segment => .segment segment
  | none => delete a

def k2treeFreeBlock : MemoryManager → ℕ → Freed := freeAt .delete
def k2treeFreeU32array : MemoryManager → ℕ → Freed := freeAt .deleteArray
def k2treeFreePreorders : MemoryManager → ℕ → Freed := freeAt .deleteArray
def k2treeFreeBlocksArray : MemoryManager → ℕ → Freed := freeAt .deleteArray
def k2treeFreeK2node : MemoryManager → ℕ → Freed := freeAt .delete

/-- The routines that free. -/
def k2treeFrees : List (MemoryManager → ℕ → Freed) :=
  [k2treeFreeBlock, k2treeFreeU32array, k2treeFreePreorders, k2treeFreeBlocksArray, k2treeFreeK2node]

/-! ## Runs -/

/-- What is called on the manager. -/
inductive SegmentCmd where
  | newMemorySegment (ptr data : ℕ) (size : ℕ)
  | freeSegment (memorySegment : ℕ)
deriving DecidableEq, Repr

def segmentMachine : Machine MemoryManager SegmentCmd where
  step m
    | .newMemorySegment ptr data size => some (m.newMemorySegment ptr data size)
    | .freeSegment memorySegment => (m.freeSegment memorySegment).toOption

end K2Cache.Memory
