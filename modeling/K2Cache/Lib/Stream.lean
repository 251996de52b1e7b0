import Mathlib

/-!
# Byte streams and big-endian integers

An input stream is a byte string with a position and a failure bit; an output
stream is a byte string with a position, and writing replaces the bytes there.
A read past the end keeps the bytes it found, sets the failure bit, and from
then on every read and seek of the stream does nothing.

* `Reads f bs a`: the reader `f`, at a good position in front of the bytes `bs`,
  returns `a` and stops right behind them. The rules `Reads.bind`, `Reads.map`
  and `Reads.many` build such facts along the structure of a reader.
* `OStream.atEnd_write`, `OStream.write_over`: writing at the end appends,
  writing inside replaces bytes one for one.
-/

namespace Lib

abbrev Bytes := List UInt8

/-! ## Big-endian integers -/

/-- The `n` low bytes of `v`, most significant first. -/
def bigEndian : ℕ → ℕ → Bytes
  | 0, _ => []
  | n + 1, v => bigEndian n (v / 256) ++ [UInt8.ofNat (v % 256)]

/-- The integer a byte string spells, most significant first. -/
def fromBigEndian (bs : Bytes) : ℕ := bs.foldl (fun acc b => acc * 256 + b.toNat) 0

@[simp]
theorem bigEndian_length (n v : ℕ) : (bigEndian n v).length = n := by
  induction n generalizing v with
  | zero => rfl
  | succ n ih => simp [bigEndian, ih]

theorem fromBigEndian_append_singleton (bs : Bytes) (b : UInt8) : fromBigEndian (bs ++ [b]) = fromBigEndian bs * 256 + b.toNat := by
  simp [fromBigEndian]

theorem fromBigEndian_bigEndian (n v : ℕ) : fromBigEndian (bigEndian n v) = v % 256 ^ n := by
  induction n generalizing v with
  | zero => simp [bigEndian, fromBigEndian, Nat.mod_one]
  | succ n ih =>
    rw [bigEndian, fromBigEndian_append_singleton, ih, pow_succ', Nat.mod_mul]
    have hb : (UInt8.ofNat (v % 256)).toNat = v % 256 := by
      simp [UInt8.toNat_ofNat']
    rw [hb]
    ring

/-- Two-, four- and eight-byte fields. -/
def u16Bytes (v : UInt16) : Bytes := bigEndian 2 v.toNat
def u32Bytes (v : UInt32) : Bytes := bigEndian 4 v.toNat
def u64Bytes (v : UInt64) : Bytes := bigEndian 8 v.toNat

@[simp] theorem u16Bytes_length (v : UInt16) : (u16Bytes v).length = 2 := bigEndian_length 2 _
@[simp] theorem u32Bytes_length (v : UInt32) : (u32Bytes v).length = 4 := bigEndian_length 4 _
@[simp] theorem u64Bytes_length (v : UInt64) : (u64Bytes v).length = 8 := bigEndian_length 8 _

/-! ## Input streams -/

/-- An input stream over fixed contents. -/
structure IStream where
  data : Bytes
  pos : ℕ
  fail : Bool
deriving DecidableEq

namespace IStream

/-- A stream opened on some contents. -/
def ofBytes (bs : Bytes) : IStream := ⟨bs, 0, false⟩

/-- Reads up to `n` bytes; too few of them set the failure bit. -/
def read (s : IStream) (n : ℕ) : Bytes × IStream :=
  if s.fail then ([], s)
  else
    let bs := (s.data.drop s.pos).take n
    (bs, { s with pos := s.pos + bs.length, fail := decide (bs.length < n) })

/-- Moves the read position, unless the stream has failed. -/
def seekg (s : IStream) (off : ℕ) : IStream := if s.fail then s else { s with pos := off }

/-- An integer of `n` bytes; bytes that are not there count as zero. -/
def readBE (n : ℕ) (s : IStream) : ℕ × IStream :=
  let r := s.read n
  (fromBigEndian (r.1 ++ List.replicate (n - r.1.length) 0), r.2)

def readU16 (s : IStream) : UInt16 × IStream := ((UInt16.ofNat (s.readBE 2).1), (s.readBE 2).2)
def readU32 (s : IStream) : UInt32 × IStream := ((UInt32.ofNat (s.readBE 4).1), (s.readBE 4).2)
def readU64 (s : IStream) : UInt64 × IStream := ((UInt64.ofNat (s.readBE 8).1), (s.readBE 8).2)

/-- Reads `n` items one after another. -/
def readMany {α : Type*} (f : IStream → α × IStream) : ℕ → IStream → List α × IStream
  | 0, s => ([], s)
  | n + 1, s =>
    let r := f s
    let rs := readMany f n r.2
    (r.1 :: rs.1, rs.2)

theorem readMany_length {α : Type*} (f : IStream → α × IStream) (n : ℕ) (s : IStream) : (readMany f n s).1.length = n := by
  induction n generalizing s with
  | zero => rfl
  | succ n ih =>
    show (readMany f n (f s).2).1.length + 1 = n + 1
    rw [ih]

/-- The stream `n` bytes further on. -/
def skip (s : IStream) (n : ℕ) : IStream := { s with pos := s.pos + n }

/-- The stream is good and stands in front of the bytes `bs`. -/
def Ahead (s : IStream) (bs : Bytes) : Prop := s.fail = false ∧ bs <+: s.data.drop s.pos

@[simp] theorem skip_zero (s : IStream) : s.skip 0 = s := rfl

@[simp] theorem skip_skip (s : IStream) (m n : ℕ) : (s.skip m).skip n = s.skip (m + n) := by
  simp [skip, Nat.add_assoc]

@[simp] theorem skip_data (s : IStream) (n : ℕ) : (s.skip n).data = s.data := rfl

@[simp] theorem skip_fail (s : IStream) (n : ℕ) : (s.skip n).fail = s.fail := rfl

theorem Ahead.left {s : IStream} {a b : Bytes} (h : s.Ahead (a ++ b)) : s.Ahead a :=
  ⟨h.1, (List.prefix_append a b).trans h.2⟩

theorem Ahead.right {s : IStream} {a b : Bytes} (h : s.Ahead (a ++ b)) : (s.skip a.length).Ahead b := by
  refine ⟨h.1, ?_⟩
  obtain ⟨r, hr⟩ := h.2
  refine ⟨r, ?_⟩
  show b ++ r = s.data.drop (s.pos + a.length)
  rw [← List.drop_drop, ← hr, List.append_assoc, List.drop_left]

theorem ahead_ofBytes (a b : Bytes) : (ofBytes (a ++ b)).Ahead a := ⟨rfl, List.prefix_append a b⟩

theorem ahead_self (bs : Bytes) : (ofBytes bs).Ahead bs := ⟨rfl, List.prefix_rfl⟩

/-- A good stream that seeks to some bytes stands in front of them. -/
theorem ahead_seekg {s : IStream} (hf : s.fail = false) {off : ℕ} {bs : Bytes} (h : bs <+: s.data.drop off) :
    (s.seekg off).Ahead bs := by
  simp only [seekg, hf, Bool.false_eq_true, if_false]
  exact ⟨rfl, h⟩

theorem read_ahead {s : IStream} {bs : Bytes} (h : s.Ahead bs) : s.read bs.length = (bs, s.skip bs.length) := by
  obtain ⟨hf, r, hr⟩ := h
  simp only [read, hf, Bool.false_eq_true, if_false, ← hr, List.take_left, lt_irrefl, decide_false, skip]

@[simp] theorem read_data (s : IStream) (n : ℕ) : (s.read n).2.data = s.data := by
  unfold read
  split <;> rfl

@[simp] theorem readU16_data (s : IStream) : s.readU16.2.data = s.data := read_data s 2

@[simp] theorem readU32_data (s : IStream) : s.readU32.2.data = s.data := read_data s 4

@[simp] theorem readU64_data (s : IStream) : s.readU64.2.data = s.data := read_data s 8

/-- **What a reader makes of some bytes**: in front of `bs` it returns `a` and
stops right behind them. -/
def Reads {α : Type*} (f : IStream → α × IStream) (bs : Bytes) (a : α) : Prop :=
  ∀ s : IStream, s.Ahead bs → f s = (a, s.skip bs.length)

theorem reads_read (bs : Bytes) : Reads (fun s => s.read bs.length) bs bs := fun _ h => read_ahead h

theorem reads_readBE {n v : ℕ} (hv : v < 256 ^ n) : Reads (readBE n) (bigEndian n v) v := by
  intro s h
  have hr := read_ahead h
  rw [bigEndian_length] at hr
  simp only [readBE, hr, bigEndian_length, Nat.sub_self, List.replicate_zero, List.append_nil, fromBigEndian_bigEndian,
    Nat.mod_eq_of_lt hv]

theorem reads_readU16 (v : UInt16) : Reads readU16 (u16Bytes v) v := by
  intro s h
  simp [readU16, reads_readBE (n := 2) (v := v.toNat) v.toNat_lt s h, u16Bytes]

theorem reads_readU32 (v : UInt32) : Reads readU32 (u32Bytes v) v := by
  intro s h
  simp [readU32, reads_readBE (n := 4) (v := v.toNat) v.toNat_lt s h, u32Bytes]

theorem reads_readU64 (v : UInt64) : Reads readU64 (u64Bytes v) v := by
  intro s h
  simp [readU64, reads_readBE (n := 8) (v := v.toNat) v.toNat_lt s h, u64Bytes]

/-- **Sequencing**: a reader that goes on with what it has read. -/
theorem Reads.bind {α β : Type*} {f : IStream → α × IStream} {g : α → IStream → β × IStream} {as bs : Bytes}
    {a : α} {b : β} (hf : Reads f as a) (hg : Reads (g a) bs b) :
    Reads (fun s => g (f s).1 (f s).2) (as ++ bs) b := by
  intro s h
  simp only [hf s h.left, hg _ h.right, skip_skip, List.length_append]

theorem Reads.map {α β : Type*} {f : IStream → α × IStream} {bs : Bytes} {a : α} (hf : Reads f bs a)
    (g : α → β) : Reads (fun s => (g (f s).1, (f s).2)) bs (g a) := by
  intro s h
  simp only [hf s h]

theorem reads_pure {α : Type*} (a : α) : Reads (fun s => (a, s)) [] a := fun s _ => by simp

/-- **Repetition**: items read one after another. -/
theorem Reads.many {α : Type*} {f : IStream → α × IStream} {enc : α → Bytes} {l : List α}
    (hf : ∀ a ∈ l, Reads f (enc a) a) : Reads (readMany f l.length) (l.flatMap enc) l := by
  induction l with
  | nil => exact reads_pure []
  | cons a l ih =>
    have h1 := hf a List.mem_cons_self
    have h2 := ih (fun b hb => hf b (List.mem_cons_of_mem _ hb))
    exact h1.bind (g := fun a s => (a :: (readMany f l.length s).1, (readMany f l.length s).2)) (h2.map _)

end IStream

/-! ## Output streams -/

/-- An output stream: what has been written, and the write position. -/
structure OStream where
  buf : Bytes
  pos : ℕ
deriving DecidableEq

namespace OStream

/-- Writes at the position, over what is there. -/
def write (s : OStream) (bs : Bytes) : OStream :=
  ⟨s.buf.take s.pos ++ bs ++ s.buf.drop (s.pos + bs.length), s.pos + bs.length⟩

def tellp (s : OStream) : ℕ := s.pos

def seekp (s : OStream) (off : ℕ) : OStream := { s with pos := off }

/-- The stream that has written exactly `bs` and stands behind it. -/
def atEnd (bs : Bytes) : OStream := ⟨bs, bs.length⟩

@[simp] theorem atEnd_buf (bs : Bytes) : (atEnd bs).buf = bs := rfl

@[simp] theorem atEnd_pos (bs : Bytes) : (atEnd bs).pos = bs.length := rfl

@[simp] theorem atEnd_tellp (bs : Bytes) : (atEnd bs).tellp = bs.length := rfl

/-- Writing at the end appends. -/
@[simp]
theorem atEnd_write (as bs : Bytes) : (atEnd as).write bs = atEnd (as ++ bs) := by
  simp [write, atEnd]

/-- **Writing inside replaces bytes one for one.** -/
theorem write_over (as bs bs' cs : Bytes) (h : bs'.length = bs.length) :
    ((⟨as ++ bs ++ cs, as.length⟩ : OStream).write bs') = ⟨as ++ bs' ++ cs, as.length + bs'.length⟩ := by
  simp only [write, List.append_assoc, List.take_left, h, ← List.length_append]
  rw [← List.append_assoc as bs cs, List.drop_left]

end OStream

end Lib
