import K2Cache.Lib.Stream

/-!
# Files and FileRWHandler

The disk holds the files named in `CacheArgs`, each with the two names its handler
derives from it (`.tmp` and `.deleting`). `FileRWHandler` opens them as
`std::ofstream`, `std::ifstream` and `std::fstream` do: a writer without
`std::ios::app` empties the file, a reader of a missing file has failed, and a
reader-writer of a missing file has failed and does not create it.
-/

namespace K2Cache

open Lib

/-- The files of `CacheArgs`, with the names derived in `UpdatesLoggerFilesManager`
and `NodeIdsManagerFactory`. -/
inductive FileId where
  | index
  | updateLog
  | updateLogOffsets
  | updateLogMeta
  | nodeIds
  | mappedNodeIds
  | nodeIdsLogs
  | nodeIdsLogsCounter
deriving DecidableEq, Repr

/-- A file's own name, and the two names `FileRWHandler` derives from it. -/
inductive Part where
  | file
  | tmp
  | deleting
deriving DecidableEq, Repr

abbrev Path := FileId × Part

/-- The contents of the files that exist. -/
abbrev Disk := Path → Option Bytes

/-- The flags the callers pass; `out` or `in` and `binary` are always set. -/
structure OpenMode where
  app : Bool
  trunc : Bool
deriving DecidableEq, Repr

namespace OpenMode

def binary : OpenMode := ⟨false, false⟩
def binaryApp : OpenMode := ⟨true, false⟩
def binaryTrunc : OpenMode := ⟨false, true⟩

end OpenMode

namespace Disk

def set (d : Disk) (p : Path) (bs : Option Bytes) : Disk := Function.update d p bs

@[simp] theorem set_self (d : Disk) (p : Path) (bs : Option Bytes) : d.set p bs p = bs := by simp [set]

@[simp] theorem set_ne (d : Disk) {p q : Path} (bs : Option Bytes) (h : q ≠ p) : d.set p bs q = d q := by
  simp [set, h]

/-- The bytes of a file; a missing one has none. -/
def bytes (d : Disk) (p : Path) : Bytes := (d p).getD []

/-- `std::ofstream(filename, std::ios::out | mode)`: the file exists afterwards, and
keeps its contents only in append mode. -/
def openOut (d : Disk) (p : Path) (mode : OpenMode) : Disk :=
  if mode.app then d.set p (some (d.bytes p)) else d.set p (some [])

/-- What a writer standing at the end of the file writes. -/
def append (d : Disk) (p : Path) (bs : Bytes) : Disk := d.set p (some (d.bytes p ++ bs))

/-- What a writer that first seeks to `off` writes. -/
def writeAt (d : Disk) (p : Path) (off : ℕ) (bs : Bytes) : Disk :=
  d.set p (some ((⟨d.bytes p, off⟩ : OStream).write bs).buf)

/-- `std::rename`; a missing source changes nothing. -/
def rename (d : Disk) (p q : Path) : Disk :=
  match d p with
  | none => d
  | some bs => (d.set q (some bs)).set p none

/-- `std::remove`. -/
def remove (d : Disk) (p : Path) : Disk := d.set p none

end Disk

/-! ## FileRWHandler -/

namespace FileRWHandler

def file (h : FileId) : Path := (h, .file)
def tmp (h : FileId) : Path := (h, .tmp)
def deleting (h : FileId) : Path := (h, .deleting)

/-- `exists`. -/
def fileExists (d : Disk) (h : FileId) : Bool := (d (file h)).isSome

/-- `get_writer`. -/
def getWriter (d : Disk) (h : FileId) (mode : OpenMode) : Disk := d.openOut (file h) mode

/-- `get_reader`. -/
def getReader (d : Disk) (h : FileId) : IStream :=
  match d (file h) with
  | some bs => .ofBytes bs
  | none => ⟨[], 0, true⟩

/-- `get_writer_temp`. -/
def getWriterTemp (d : Disk) (h : FileId) (mode : OpenMode) : Disk := d.openOut (tmp h) mode

/-- `commit_temp_writer`: the old file is moved aside, the temporary one takes its
name, the old one is deleted. -/
def commitTempWriter (d : Disk) (h : FileId) : Disk :=
  ((d.rename (file h) (deleting h)).rename (tmp h) (file h)).remove (deleting h)

/-- `clean`. -/
def clean (d : Disk) (h : FileId) : Disk := d.remove (file h)

/-- A temporary file written in one go and committed. -/
def replaceFile (d : Disk) (h : FileId) (mode : OpenMode) (bs : Bytes) : Disk :=
  commitTempWriter ((getWriterTemp d h mode).append (tmp h) bs) h

theorem file_ne_tmp (h h' : FileId) : file h ≠ tmp h' := by simp [file, tmp]
theorem file_ne_deleting (h h' : FileId) : file h ≠ deleting h' := by simp [file, deleting]
theorem tmp_ne_deleting (h h' : FileId) : tmp h ≠ deleting h' := by simp [tmp, deleting]

theorem rename_other {d : Disk} {p q r : Path} (hp : r ≠ p) (hq : r ≠ q) : d.rename p q r = d r := by
  unfold Disk.rename
  cases d p with
  | none => rfl
  | some bs =>
    simp only
    rw [Disk.set_ne _ _ hp, Disk.set_ne _ _ hq]

theorem rename_target {d : Disk} {p q : Path} {bs : Bytes} (hpq : q ≠ p) (hp : d p = some bs) :
    d.rename p q q = some bs := by
  simp [Disk.rename, hp, hpq]

theorem commitTempWriter_file {d : Disk} {h : FileId} {bs : Bytes} (ht : d (tmp h) = some bs) :
    commitTempWriter d h (file h) = some bs := by
  unfold commitTempWriter Disk.remove
  rw [Disk.set_ne _ _ (file_ne_deleting h h)]
  apply rename_target (file_ne_tmp h h)
  rw [rename_other (file_ne_tmp h h).symm (tmp_ne_deleting h h), ht]

/-- A handler touches only its own names. -/
theorem commitTempWriter_other {d : Disk} {h : FileId} {p : Path} (hp : p.1 ≠ h) :
    commitTempWriter d h p = d p := by
  have h1 : p ≠ file h := by rintro rfl; exact hp rfl
  have h2 : p ≠ tmp h := by rintro rfl; exact hp rfl
  have h3 : p ≠ deleting h := by rintro rfl; exact hp rfl
  unfold commitTempWriter Disk.remove
  rw [Disk.set_ne _ _ h3, rename_other h2 h1, rename_other h1 h3]

/-- **A committed temporary file is the file.** -/
@[simp]
theorem replaceFile_file (d : Disk) (h : FileId) (mode : OpenMode) (hm : mode.app = false) (bs : Bytes) :
    replaceFile d h mode bs (file h) = some bs := by
  apply commitTempWriter_file
  simp [getWriterTemp, Disk.openOut, Disk.append, Disk.bytes, hm]

theorem replaceFile_other {d : Disk} {h : FileId} {mode : OpenMode} {bs : Bytes} {p : Path} (hp : p.1 ≠ h) :
    replaceFile d h mode bs p = d p := by
  have h2 : p ≠ tmp h := by rintro rfl; exact hp rfl
  unfold replaceFile
  rw [commitTempWriter_other hp, Disk.append, Disk.set_ne _ _ h2, getWriterTemp, Disk.openOut]
  split <;> rw [Disk.set_ne _ _ h2]

end FileRWHandler

/-! ## File operations one by one -/

/-- An operation on the files; between two of them a process may stop. -/
inductive FileOp where
  | openOut (p : Path) (mode : OpenMode)
  | append (p : Path) (bs : Bytes)
  | writeAt (p : Path) (off : ℕ) (bs : Bytes)
  | rename (p q : Path)
  | remove (p : Path)
deriving DecidableEq

def FileOp.run : FileOp → Disk → Disk
  | openOut p mode, d => d.openOut p mode
  | append p bs, d => d.append p bs
  | writeAt p off bs, d => d.writeAt p off bs
  | rename p q, d => d.rename p q
  | remove p, d => d.remove p

/-- The disk after some operations. -/
def Disk.after (d : Disk) (l : List FileOp) : Disk := l.foldl (fun d op => op.run d) d

namespace FileRWHandler

/-- The operations of `commit_temp_writer`. -/
def commitOps (h : FileId) : List FileOp :=
  [.rename (file h) (deleting h), .rename (tmp h) (file h), .remove (deleting h)]

/-- The operations of `replaceFile`. -/
def replaceOps (h : FileId) (mode : OpenMode) (bs : Bytes) : List FileOp :=
  .openOut (tmp h) mode :: .append (tmp h) bs :: commitOps h

end FileRWHandler

end K2Cache
