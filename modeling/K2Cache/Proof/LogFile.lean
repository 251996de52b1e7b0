import K2Cache.Spec.Logger

/-!
# What the log file holds

`Registered ops data m recs`: the offsets map `m` over the bytes `data` of a log
file stands for the records `recs`, per predicate and in order. Every registered
offset is in front of its record, and no two records share an offset.

* `recoverSinglePredicateUpdate_reads`: a record is read back from its bytes.
* `Registered.logBatch`: a batch written at the end of the file registers its
  records and disturbs none that is there.
* `retrieveOffsetsMap_dump`: the offsets file is read back, as long as the map fits
  the widths of the file.
-/

namespace K2Cache

open Lib

variable {T : Type} {ops : TreeOps T}

/-! ## Records -/

/-- **A record is read back.** -/
theorem recoverSinglePredicateUpdate_reads (hl : ops.Lawful) (u : K2TreeUpdates T) (hk : u.getKind ≠ .noUpdate) :
    IStream.Reads (recoverSinglePredicateUpdate ops) (recordBytes ops u) (.ok u.toPredicateUpdate) := by
  obtain ⟨p, a, d⟩ := u
  intro s h
  -- the two integers in front of the trees
  have hp := IStream.reads_readU64 p s h.left.left
  have hc := IStream.reads_readU32 _ _ h.left.right
  have ht := h.right
  simp only [List.length_append, u64Bytes_length, u32Bytes_length] at hp hc ht
  cases a with
  | none =>
    cases d with
    | none => simp [K2TreeUpdates.getKind] at hk
    | some d =>
      have hd := hl.read_write d _ (IStream.Ahead.right (a := []) ht)
      simp [recoverSinglePredicateUpdate, K2TreeUpdates.getKind, UpdateKind.code, recordBytes,
        K2TreeUpdates.toPredicateUpdate] at hp hc hd ⊢
      simp [hp, hc, hd, ← Nat.add_assoc]
  | some a =>
    cases d with
    | none =>
      have ha := hl.read_write a _ (IStream.Ahead.left ht)
      simp [recoverSinglePredicateUpdate, K2TreeUpdates.getKind, UpdateKind.code, recordBytes,
        K2TreeUpdates.toPredicateUpdate] at hp hc ha ⊢
      simp [hp, hc, ha, ← Nat.add_assoc]
    | some d =>
      have ha := hl.read_write a _ (IStream.Ahead.left ht)
      have hd := hl.read_write d _ (IStream.Ahead.right ht)
      simp [recoverSinglePredicateUpdate, K2TreeUpdates.getKind, UpdateKind.code, recordBytes,
        K2TreeUpdates.toPredicateUpdate] at hp hc ha hd ⊢
      simp [hp, hc, ha, hd, ← Nat.add_assoc]

theorem recordBytes_pos (ops : TreeOps T) (u : K2TreeUpdates T) : 0 < (recordBytes ops u).length := by
  simp only [recordBytes, List.length_append, u64Bytes_length]
  omega

/-- The bytes of a batch. -/
def batchBytes (ops : TreeOps T) (us : List (K2TreeUpdates T)) : Bytes :=
  u32Bytes (UInt32.ofNat us.length) ++
    (us.filter (fun u => u.getKind ≠ .noUpdate)).flatMap (recordBytes ops)

theorem logRecords_bytes (ops : TreeOps T) (us : List (K2TreeUpdates T)) (m : OffsetsMap) (pos : ℕ) :
    (logRecords ops us m pos).2 = (us.filter (fun u => u.getKind ≠ .noUpdate)).flatMap (recordBytes ops) := by
  induction us generalizing m pos with
  | nil => rfl
  | cons u us ih =>
    by_cases hk : u.getKind = .noUpdate
    · simp [logRecords, hk, ih]
    · simp [logRecords, hk, ih]

theorem logBatch_bytes (ops : TreeOps T) (us : List (K2TreeUpdates T)) (m : OffsetsMap) (pos : ℕ) :
    (logBatch ops us m pos).2 = batchBytes ops us := by
  simp only [logBatch, batchBytes, logRecords_bytes]

/-- At the offset of the file stands this record, which is one of the predicate. -/
structure LoggedAt (ops : TreeOps T) (data : Bytes) (p : UInt64) (off : ℕ) (u : K2TreeUpdates T) : Prop where
  predicate : u.predicateId = p
  kind : u.getKind ≠ .noUpdate
  ahead : recordBytes ops u <+: data.drop off

variable {data : Bytes} {p : UInt64} {off : ℕ} {u : K2TreeUpdates T}

theorem LoggedAt.lt_length (h : LoggedAt ops data p off u) : off < data.length := by
  have h1 := h.ahead.length_le
  have h2 := recordBytes_pos ops u
  rw [List.length_drop] at h1
  omega

/-- A record stays where it is when the file grows. -/
theorem LoggedAt.append (h : LoggedAt ops data p off u) (more : Bytes) : LoggedAt ops (data ++ more) p off u := by
  refine ⟨h.predicate, h.kind, ?_⟩
  rw [List.drop_append_of_le_length h.lt_length.le]
  exact h.ahead.trans (List.prefix_append _ _)

theorem loggedAt_end (data : Bytes) (u : K2TreeUpdates T) (hk : u.getKind ≠ .noUpdate) :
    LoggedAt ops (data ++ recordBytes ops u) u.predicateId data.length u := by
  refine ⟨rfl, hk, ?_⟩
  rw [List.drop_left]

/-- **A good reader that seeks to a registered offset reads the record there.** -/
theorem LoggedAt.recover (hl : ops.Lawful) (h : LoggedAt ops data p off u) {s : IStream} (hd : s.data = data)
    (hf : s.fail = false) :
    ∃ s' : IStream, recoverSinglePredicateUpdate ops (s.seekg off) = (.ok u.toPredicateUpdate, s') ∧
      s'.data = data ∧ s'.fail = false := by
  have ha : (s.seekg off).Ahead (recordBytes ops u) := IStream.ahead_seekg hf (hd ▸ h.ahead)
  refine ⟨_, recoverSinglePredicateUpdate_reads hl u h.kind _ ha, ?_, ha.1⟩
  rw [IStream.skip_data, IStream.seekg, hf]
  exact hd

namespace LogEnv

variable {μ : Type}

/-- The reader a read of the log uses: the open one, else a new one. -/
def currentReader (e : LogEnv μ) : IStream := e.logger.reader.getD (FileRWHandler.getReader e.disk .updateLog)

/-- The same logger with another reader. -/
def setReader (e : LogEnv μ) (s : IStream) : LogEnv μ := { e with logger := { e.logger with reader := some s } }

@[simp] theorem setReader_currentReader (e : LogEnv μ) (s : IStream) : (e.setReader s).currentReader = s := rfl

@[simp] theorem setReader_setReader (e : LogEnv μ) (s s' : IStream) : (e.setReader s).setReader s' = e.setReader s' := rfl

@[simp] theorem setReader_disk (e : LogEnv μ) (s : IStream) : (e.setReader s).disk = e.disk := rfl

@[simp] theorem setReader_offsetsMap (e : LogEnv μ) (s : IStream) :
    (e.setReader s).logger.offsetsMap = e.logger.offsetsMap := rfl

theorem withReader_run {α : Type} (f : IStream → Except Exn α × IStream) (e : LogEnv μ) :
    withReader f e = ((f e.currentReader).1, e.setReader (f e.currentReader).2) := rfl

/-- **A read at a registered offset returns the record there**; only the position of
the reader changes. -/
theorem withReader_recover (hl : ops.Lawful) {e : LogEnv μ} (h : LoggedAt ops e.currentReader.data p off u)
    (hf : e.currentReader.fail = false) :
    ∃ s, withReader (fun s => recoverSinglePredicateUpdate ops (s.seekg off)) e =
        (.ok u.toPredicateUpdate, e.setReader s) ∧ s.data = e.currentReader.data ∧ s.fail = false := by
  obtain ⟨s, h1, h2, h3⟩ := h.recover hl rfl hf
  refine ⟨s, ?_, h2, h3⟩
  rw [withReader_run, h1]

end LogEnv

/-! ## The records of a log -/

/-- The records logged per predicate, the oldest first. -/
abbrev Records (T : Type) := UInt64 → List (K2TreeUpdates T)

namespace Records

/-- The records with one more. -/
def push (recs : Records T) (u : K2TreeUpdates T) : Records T :=
  Function.update recs u.predicateId (recs u.predicateId ++ [u])

/-- The records after a batch; an update without trees leaves none. -/
def pushAll (recs : Records T) : List (K2TreeUpdates T) → Records T
  | [] => recs
  | u :: us => if u.getKind = .noUpdate then pushAll recs us else pushAll (recs.push u) us

theorem pushAll_apply (us : List (K2TreeUpdates T)) (recs : Records T) (p : UInt64) :
    pushAll recs us p = recs p ++ us.filter (fun u => u.getKind ≠ .noUpdate ∧ u.predicateId = p) := by
  induction us generalizing recs with
  | nil => simp [pushAll]
  | cons u us ih =>
    by_cases hk : u.getKind = .noUpdate
    · simp [pushAll, hk, ih]
    · by_cases hp : u.predicateId = p
      · subst hp
        simp [pushAll, hk, ih, push]
      · simp [pushAll, hk, ih, push, hp, Function.update_of_ne (Ne.symm hp)]

end Records

/-- **The offsets map stands for the records.** -/
structure Registered (ops : TreeOps T) (data : Bytes) (m : OffsetsMap) (recs : Records T) : Prop where
  logged : ∀ p, List.Forall₂ (LoggedAt ops data p) ((m.find? p).getD []) (recs p)
  nonempty : ∀ p, m.find? p ≠ some []
  nodup : ∀ p l, m.find? p = some l → l.Nodup
  disjoint : ∀ p q l l', p ≠ q → m.find? p = some l → m.find? q = some l' → l.Disjoint l'

variable {m : OffsetsMap} {recs : Records T}

theorem registered_empty (ops : TreeOps T) (data : Bytes) : Registered ops data ∅ (fun _ => []) := by
  refine ⟨fun p => by simp, fun p => by simp, fun p l h => by simp at h, fun p q l l' _ h => by simp at h⟩

theorem Registered.append (h : Registered ops data m recs) (more : Bytes) : Registered ops (data ++ more) m recs :=
  ⟨fun p => (h.logged p).imp fun _ _ hu => hu.append more, h.nonempty, h.nodup, h.disjoint⟩

theorem Registered.lt_length (h : Registered ops data m recs) {l : List ℕ} (hp : m.find? p = some l) (ho : off ∈ l) :
    off < data.length := by
  have hf := h.logged p
  rw [hp] at hf
  obtain ⟨i, hi, rfl⟩ := List.getElem_of_mem ho
  exact (List.forall₂_iff_get.1 hf).2 i hi ((List.forall₂_iff_get.1 hf).1 ▸ hi) |>.lt_length

/-- A predicate has offsets exactly if it has records. -/
theorem Registered.find?_eq_none (h : Registered ops data m recs) : m.find? p = none ↔ recs p = [] := by
  have hf := h.logged p
  constructor
  · intro hn
    rw [hn] at hf
    cases hr : recs p with
    | nil => rfl
    | cons u us =>
      rw [hr] at hf
      cases hf
  · intro hr
    rw [hr] at hf
    cases hm : m.find? p with
    | none => rfl
    | some l =>
      rw [hm] at hf
      cases l with
      | nil => exact absurd hm (h.nonempty p)
      | cons o l => cases hf

theorem find?_registerUpdateOffset (m : OffsetsMap) (p q : UInt64) (off : ℕ) :
    (registerUpdateOffset m p off).find? q =
      if q = p then some ((m.find? p).getD [] ++ [off]) else m.find? q := by
  unfold registerUpdateOffset
  cases hp : m.find? p with
  | none => simp [OrdMap.find?_insert]
  | some l => simp [OrdMap.find?_insert]

/-- One record at the end of the file. -/
theorem Registered.push (h : Registered ops data m recs) (u : K2TreeUpdates T) (hk : u.getKind ≠ .noUpdate) :
    Registered ops (data ++ recordBytes ops u) (registerUpdateOffset m u.predicateId data.length) (recs.push u) := by
  -- the new offset is the old length, above every offset that is there
  have hnew : ∀ q l, m.find? q = some l → data.length ∉ l := fun q l hq hm => lt_irrefl _ (h.lt_length hq hm)
  have h' := h.append (recordBytes ops u)
  refine ⟨fun q => ?_, fun q => ?_, fun q l hq => ?_, fun q q' l l' hne hq hq' => ?_⟩
  · rw [find?_registerUpdateOffset]
    by_cases hq : q = u.predicateId
    · subst hq
      simp only [if_true, Option.getD_some, Records.push, Function.update_self]
      exact List.rel_append (h'.logged _) (List.Forall₂.cons (loggedAt_end data u hk) List.Forall₂.nil)
    · simp only [hq, if_false, Records.push, ne_eq, not_false_eq_true, Function.update_of_ne]
      exact h'.logged q
  · rw [find?_registerUpdateOffset]
    split
    · simp
    · exact h.nonempty q
  · rw [find?_registerUpdateOffset] at hq
    split at hq
    · obtain rfl := Option.some.inj hq
      cases hm : m.find? u.predicateId with
      | none => simp
      | some l₀ =>
        rw [Option.getD_some, List.nodup_append]
        refine ⟨h.nodup _ _ hm, List.nodup_singleton _, ?_⟩
        intro a ha b hb hab
        rw [List.mem_singleton] at hb
        exact hnew _ _ hm (hb ▸ hab ▸ ha)
    · exact h.nodup q l hq
  · rw [find?_registerUpdateOffset] at hq hq'
    split at hq
    · rename_i hqp
      rw [if_neg (by rintro rfl; exact hne hqp)] at hq'
      obtain rfl := Option.some.inj hq
      rw [List.disjoint_append_left]
      refine ⟨?_, by simpa using hnew _ _ hq'⟩
      cases hm : m.find? u.predicateId with
      | none => simp
      | some l₀ => exact h.disjoint _ _ _ _ (hqp ▸ hne) hm hq'
    · split at hq'
      · rename_i hqp hq'p
        obtain rfl := Option.some.inj hq'
        rw [List.disjoint_append_right]
        refine ⟨?_, by simpa using hnew _ _ hq⟩
        cases hm : m.find? u.predicateId with
        | none => simp
        | some l₀ => exact h.disjoint _ _ _ _ hqp hq hm
      · exact h.disjoint q q' l l' hne hq hq'

theorem Registered.logRecords (us : List (K2TreeUpdates T)) (h : Registered ops data m recs) :
    Registered ops (data ++ (logRecords ops us m data.length).2) (logRecords ops us m data.length).1
      (recs.pushAll us) := by
  induction us generalizing data m recs with
  | nil => simpa [K2Cache.logRecords, Records.pushAll] using h
  | cons u us ih =>
    by_cases hk : u.getKind = .noUpdate
    · simpa [K2Cache.logRecords, hk, Records.pushAll] using ih h
    · have h1 := ih (h.push u hk)
      simpa [K2Cache.logRecords, hk, Records.pushAll] using h1

/-- **A batch at the end of the file** registers its records, and every record that
was there stays registered. -/
theorem Registered.logBatch (us : List (K2TreeUpdates T)) (h : Registered ops data m recs) :
    Registered ops (data ++ (logBatch ops us m data.length).2) (logBatch ops us m data.length).1
      (recs.pushAll us) := by
  have h1 := (h.append (u32Bytes (UInt32.ofNat us.length))).logRecords us
  simpa [K2Cache.logBatch] using h1

/-! ## The offsets file -/

/-- The map fits the widths of the offsets file: counts are read as `int`, offsets
as `long`. -/
structure Persistable (m : OffsetsMap) : Prop where
  size : m.size < 2 ^ 31
  counts : ∀ p l, m.find? p = some l → l.length < 2 ^ 31
  offsets : ∀ p l, m.find? p = some l → ∀ o ∈ l, o < 2 ^ 63

theorem readOffset_reads {o : ℕ} (ho : o < 2 ^ 63) :
    IStream.Reads (fun s => ((s.readU64).1.toNat, (s.readU64).2)) (u64Bytes (UInt64.ofNat o)) o := by
  have h := (IStream.reads_readU64 (UInt64.ofNat o)).map UInt64.toNat
  rwa [UInt64.toNat_ofNat_of_lt' (by rw [UInt64.size]; omega)] at h

theorem readOffsetsEntry_reads {e : UInt64 × List ℕ} (hc : e.2.length < 2 ^ 31) (ho : ∀ o ∈ e.2, o < 2 ^ 63) :
    IStream.Reads readOffsetsEntry (offsetsEntryBytes e) (.ok e) := by
  obtain ⟨p, l⟩ := e
  intro s h
  simp only at hc ho
  have hl : (UInt32.ofNat l.length).toNat = l.length := UInt32.toNat_ofNat_of_lt' (by rw [UInt32.size]; omega)
  have h1 := IStream.reads_readU64 p s h.left
  have h2 := IStream.reads_readU32 (UInt32.ofNat l.length) _ h.right.left
  have h3 := IStream.Reads.many (fun o hm => readOffset_reads (ho o hm)) _ h.right.right
  simp only [u64Bytes_length, u32Bytes_length, IStream.skip_skip] at h1 h2 h3
  simp only [readOffsetsEntry, h1, h2, hl, not_le.2 hc, if_false, h3, offsetsEntryBytes, List.length_append,
    u64Bytes_length, u32Bytes_length, Nat.add_assoc]

theorem readOffsetsEntries_ahead (l : List (UInt64 × List ℕ)) (m : OffsetsMap)
    (hl : ∀ e ∈ l, e.2.length < 2 ^ 31 ∧ ∀ o ∈ e.2, o < 2 ^ 63) {s : IStream}
    (h : s.Ahead (l.flatMap offsetsEntryBytes)) : readOffsetsEntries l.length m s = .ok (m.insertAll l) := by
  induction l generalizing m s with
  | nil => rfl
  | cons e l ih =>
    rw [List.flatMap_cons] at h
    obtain ⟨hc, ho⟩ := hl e List.mem_cons_self
    simp only [List.length_cons, readOffsetsEntries, readOffsetsEntry_reads hc ho s h.left]
    exact ih _ (fun e' he' => hl e' (List.mem_cons_of_mem _ he')) h.right

/-- **The offsets file is read back.** -/
theorem retrieveOffsetsMap_dump {d : Disk} (hm : Persistable m)
    (hd : d (FileRWHandler.file .updateLogOffsets) = some (dumpOffsetsMap m)) : retrieveOffsetsMap d = .ok m := by
  have hsz : (UInt32.ofNat m.size).toNat = m.size :=
    UInt32.toNat_ofNat_of_lt' (by have := hm.size; rw [UInt32.size]; omega)
  simp only [retrieveOffsetsMap, FileRWHandler.fileExists, FileRWHandler.getReader, hd, Option.isSome_some, if_true]
  unfold dumpOffsetsMap
  split
  · rename_i he
    -- an empty map leaves an empty file, whose first read fails and counts as zero
    obtain ⟨l, hs⟩ := m
    obtain rfl : l = [] := he
    rfl
  · have ha := IStream.ahead_ofBytes (u32Bytes (UInt32.ofNat m.size) ++ m.entries.flatMap offsetsEntryBytes) []
    rw [List.append_nil] at ha
    have h1 := IStream.reads_readU32 _ _ ha.left
    have h2 := readOffsetsEntries_ahead m.entries ∅ (fun e he => ⟨hm.counts e.1 e.2 ((m.find?_eq_some).2 he),
      hm.offsets e.1 e.2 ((m.find?_eq_some).2 he)⟩) ha.right
    have hn : intLoopCount (UInt32.ofNat m.size) = m.entries.length := by
      rw [intLoopCount, hsz, if_pos hm.size]
      rfl
    simp only [h1, hn, h2]
    exact congrArg Except.ok m.ofList_entries

end K2Cache
