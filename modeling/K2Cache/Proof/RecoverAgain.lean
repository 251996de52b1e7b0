import K2Cache.Proof.Decode

/-!
# Recovering again

`recover_predicate` and `recover` seek to the offsets of the records; `recover_all` reads on
from where the reader stands, and every recovery leaves the reader open behind what it read.

`recoverRun_same`: in every run of these calls in which `recover_all` finds the reader at the
start of the log, each call hands over the same updates whenever it comes, and `recover_all`
those of all predicates, each in the order `recover_predicate` has them.
-/

namespace K2Cache

open Lib

variable {T μ : Type} {ops : TreeOps T} {mode : OpenMode}

/-! ## The log -/

/-- A logger on a log of these batches, that has read nothing. -/
structure LogOf (ops : TreeOps T) (bs : List (List (K2TreeUpdates T))) (e : LogEnv μ) : Prop where
  full : ∀ us ∈ bs, FullBatch us
  file : e.disk (FileRWHandler.file .updateLog) = some e.logBytes
  written : (e.logger.offsetsMap, e.logBytes) = bs.foldl (packBatch ops) (∅, [])
  total : e.logger.totalUpdates = bs.length
  reader : e.logger.reader = none

/-- Calls of `log` leave such a log, with a counter file that is there. -/
theorem LoggedFiles.logOf {P : LoggerParams T μ} {bs : List (List (K2TreeUpdates T))} {e : LogEnv μ} (h : LoggedFiles P bs e)
    (hc : CounterAt e bs.length) (hn : bs.length < 2 ^ 31) (hb : ∀ us ∈ bs, FullBatch us) (hne : bs ≠ []) : LogOf P.ops bs e := by
  obtain ⟨data, hd⟩ := Option.isSome_iff_exists.1 (h.writer hne).2
  refine ⟨hb, ?_, h.written, ?_, h.reader⟩
  · rw [LogEnv.logBytes, Disk.bytes, hd]
    rfl
  · rw [hc.total, wrapInt_of_lt hn]

/-- A new logger on the files of such a log is one, too. -/
theorem LoggedFiles.logOf_construct {P : LoggerParams T μ} {bs : List (List (K2TreeUpdates T))} {e : LogEnv μ}
    (h : LoggedFiles P bs e) (hc : CounterAt e bs.length) (hn : bs.length < 2 ^ 31) (hb : ∀ us ∈ bs, FullBatch us) (hne : bs ≠ [])
    (hp : Persistable e.logger.offsetsMap) {uninit : ℤ} {l : UpdatesLogger} (hl : UpdatesLogger.construct e.disk uninit = .ok l)
    {ν : Type} (merger : ν) : LogOf P.ops bs (⟨e.disk, l, merger⟩ : LogEnv ν) := by
  have hlog := h.logOf hc hn hb hne
  have hoffsets : l.offsetsMap = e.logger.offsetsMap :=
    Except.ok.inj ((retrieve_of_construct hl).symm.trans (h.offsetsFile hp))
  refine ⟨hb, hlog.file, ?_, (hc.construct hl).trans hlog.total, (construct_streams hl).1⟩
  show (l.offsetsMap, e.logBytes) = _
  rw [hoffsets]
  exact hlog.written

theorem packBatches_registered (bs : List (List (K2TreeUpdates T))) (acc : OffsetsMap × Bytes) {recs : Records T}
    (h : Registered ops acc.2 acc.1 recs) :
    Registered ops (bs.foldl (packBatch ops) acc).2 (bs.foldl (packBatch ops) acc).1 (recs.pushAll bs.flatten) := by
  induction bs generalizing acc recs with
  | nil => simpa [Records.pushAll] using h
  | cons us bs ih =>
    have h1 := ih (packBatch ops acc us) (h.logBatch us)
    have hpush : recs.pushAll (us :: bs).flatten = (recs.pushAll us).pushAll bs.flatten := by
      funext p
      simp only [Records.pushAll_apply, List.flatten_cons, List.filter_append, List.append_assoc]
    rw [hpush]
    exact h1

/-- The updates of a predicate, in the order they were logged. -/
def updatesOf (bs : List (List (K2TreeUpdates T))) (p : UInt64) : List (K2TreeUpdates T) :=
  bs.flatten.filter fun u => u.predicateId = p

theorem pushAll_full {bs : List (List (K2TreeUpdates T))} (h : ∀ us ∈ bs, FullBatch us) (p : UInt64) :
    Records.pushAll (fun _ => []) bs.flatten p = updatesOf bs p := by
  rw [Records.pushAll_apply, List.nil_append, updatesOf]
  refine List.filter_congr fun u hu => ?_
  obtain ⟨us, hus, hu⟩ := List.mem_flatten.1 hu
  simp [(h us hus).kinds u hu]

/-! ## The calls -/

/-- The calls that read. -/
inductive RecoverCall where
  | recoverPredicate (p : UInt64)
  | recover (ps : List UInt64)
  | recoverAll
  | hasPredicateStored (p : UInt64)

namespace RecoverCall

/-- The call. -/
def call (P : LoggerParams T μ) : RecoverCall → Act Exn (LogEnv μ) Unit
  | recoverPredicate p => LogEnv.recoverPredicate P p
  | recover ps => LogEnv.recover P ps
  | recoverAll => LogEnv.recoverAll P
  | hasPredicateStored _ => pure ()

/-- What the call should hand over: the updates it asks for, as they were logged. -/
def handsOver (bs : List (List (K2TreeUpdates T))) : RecoverCall → List (Merged T)
  | recoverPredicate p => (updatesOf bs p).flatMap K2TreeUpdates.merged
  | recover ps => (ps.flatMap (updatesOf bs)).flatMap K2TreeUpdates.merged
  | recoverAll => bs.flatten.flatMap K2TreeUpdates.merged
  | hasPredicateStored _ => []

/-- The condition on the state before a call: predicates that are asked for have updates, and
`recover_all` finds the reader at the start of the log. -/
def FromStart (e : LogEnv μ) : RecoverCall → Prop
  | recoverPredicate p => e.logger.hasPredicateStored p = true
  | recover ps => ∀ p ∈ ps, e.logger.hasPredicateStored p = true
  | recoverAll => ∀ r, e.logger.reader = some r → r.pos = 0
  | hasPredicateStored _ => True

end RecoverCall

/-- The machine of these calls. After a null pointer was used there is no logger left. -/
def recoverMachine (P : LoggerParams T μ) : Machine (LogEnv μ) RecoverCall where
  step e c :=
    match c.call P e with
    | (.error .nullDereference, _) => none
    | (_, e') => some e'

/-! ## One call -/

/-- A log that is read: its files, offsets and count are as they were, its reader is good. -/
structure Reading (ops : TreeOps T) (bs : List (List (K2TreeUpdates T))) (e : LogEnv (List (Merged T))) : Prop where
  full : ∀ us ∈ bs, FullBatch us
  file : e.disk (FileRWHandler.file .updateLog) = some (bs.flatMap (batchBytes ops))
  registered : Registered ops (bs.flatMap (batchBytes ops)) e.logger.offsetsMap (updatesOf bs)
  total : e.logger.totalUpdates = bs.length
  reader : ∀ r, e.logger.reader = some r → r.data = bs.flatMap (batchBytes ops) ∧ r.fail = false

variable {bs : List (List (K2TreeUpdates T))} {e : LogEnv (List (Merged T))}

theorem LogOf.reading (h : LogOf ops bs e) : Reading ops bs e := by
  have hbytes : e.logBytes = bs.flatMap (batchBytes ops) := by
    have := congrArg Prod.snd h.written
    rwa [packBatches_bytes, List.nil_append] at this
  refine ⟨h.full, hbytes ▸ h.file, ?_, h.total, fun r hr => ?_⟩
  · have hreg := packBatches_registered bs (∅, []) (registered_empty ops [])
    rw [← h.written] at hreg
    rw [← hbytes]
    have hrecs : Records.pushAll (fun _ => []) bs.flatten = updatesOf bs := funext (pushAll_full h.full)
    rwa [hrecs] at hreg
  · rw [h.reader] at hr
    simp at hr

theorem Reading.exists (h : Reading ops bs e) : FileRWHandler.fileExists e.disk .updateLog = true := by
  rw [FileRWHandler.fileExists, h.file]
  rfl

/-- The reader that is opened: a good one of the log. -/
theorem Reading.openReader (h : Reading ops bs e) :
    ∃ r, (LogEnv.openReader e).logger.reader = some r ∧ r.data = bs.flatMap (batchBytes ops) ∧ r.fail = false ∧
      ((∀ r', e.logger.reader = some r' → r'.pos = 0) → r.pos = 0) := by
  refine ⟨e.logger.reader.getD (FileRWHandler.getReader e.disk .updateLog), rfl, ?_⟩
  cases hr : e.logger.reader with
  | none =>
    have hget : FileRWHandler.getReader e.disk .updateLog = .ofBytes (bs.flatMap (batchBytes ops)) := by
      rw [FileRWHandler.getReader, h.file]
    rw [Option.getD_none, hget]
    exact ⟨rfl, rfl, fun _ => rfl⟩
  | some r' => exact ⟨(h.reader r' hr).1, (h.reader r' hr).2, fun h0 => h0 r' rfl⟩

/-- Streams that are opened and closed leave the log readable, with a good reader. -/
theorem Reading.streams (h : Reading ops bs e) {e' : LogEnv (List (Merged T))} (hd : e'.disk = e.disk)
    (ho : e'.logger.offsetsMap = e.logger.offsetsMap) (ht : e'.logger.totalUpdates = e.logger.totalUpdates)
    (hr : ∀ r, e'.logger.reader = some r → r.data = bs.flatMap (batchBytes ops) ∧ r.fail = false) : Reading ops bs e' :=
  ⟨h.full, hd ▸ h.file, ho ▸ h.registered, ht.trans h.total, hr⟩

/-- The records at some offsets, one after another. -/
theorem recoverOffsets_recording (mode : OpenMode) (hl : ops.Lawful) {p : UInt64} {offs : List ℕ} {us : List (K2TreeUpdates T)}
    (hlog : List.Forall₂ (LoggedAt ops (bs.flatMap (batchBytes ops)) p) offs us) (h : Reading ops bs e) {r : IStream}
    (hr : e.logger.reader = some r) :
    ∃ e', Act.forEach offs (LogEnv.recoverAt (recording ops mode)) e = (.ok (), e') ∧ Reading ops bs e' ∧
      e'.merger = e.merger ++ us.flatMap K2TreeUpdates.merged ∧ e'.logger.offsetsMap = e.logger.offsetsMap ∧
      e'.logger.reader ≠ none := by
  induction hlog generalizing e r with
  | nil => exact ⟨e, rfl, h, by simp, rfl, by simp [hr]⟩
  | @cons off u offs us hu _ ih =>
    have hcur : e.currentReader = r := by rw [LogEnv.currentReader, hr, Option.getD_some]
    have hgood := h.reader r hr
    obtain ⟨s, h1, h2, h3⟩ := LogEnv.withReader_recover (e := e) hl (by rw [hcur, hgood.1]; exact hu) (by rw [hcur, hgood.2])
    rw [hcur, hgood.1] at h2
    have hreading : Reading ops bs ((e.setReader s).handOver u.merged) := by
      refine h.streams rfl rfl rfl fun r' hr' => ?_
      obtain rfl : s = r' := Option.some.inj hr'
      exact ⟨h2, h3⟩
    obtain ⟨e', h4, h5, h6, h7, h8⟩ := ih hreading rfl
    refine ⟨e', ?_, h5, ?_, h7, h8⟩
    · have hone : LogEnv.recoverAt (recording ops mode) off e = (.ok (), (e.setReader s).handOver u.merged) :=
        (Act.bind_ok h1).trans (mergeUpdate_recording _ _)
      rw [Act.forEach_cons, Act.bind_ok hone]
      exact h4
    · rw [h6, List.flatMap_cons, ← List.append_assoc]
      rfl

/-- The records of a predicate that has some. -/
theorem Reading.recoverOffsets (mode : OpenMode) (hl : ops.Lawful) (h : Reading ops bs e) {p : UInt64} (hp : e.logger.hasPredicateStored p = true)
    {r : IStream} (hr : e.logger.reader = some r) :
    ∃ offs e', e.logger.offsetsMap.find? p = some offs ∧
      Act.forEach offs (LogEnv.recoverAt (recording ops mode)) e = (.ok (), e') ∧ Reading ops bs e' ∧
      e'.merger = e.merger ++ (updatesOf bs p).flatMap K2TreeUpdates.merged ∧
      e'.logger.offsetsMap = e.logger.offsetsMap ∧ e'.logger.reader ≠ none := by
  obtain ⟨offs, hoffs⟩ := (OrdMap.contains_iff _).1 hp
  have hlog := h.registered.logged p
  rw [hoffs, Option.getD_some] at hlog
  obtain ⟨e', h1⟩ := recoverOffsets_recording mode hl hlog h hr
  exact ⟨offs, e', hoffs, h1⟩

/-- **`recover_predicate`** hands over the updates of the predicate. -/
theorem recoverPredicate_recording (hl : ops.Lawful) (h : Reading ops bs e) {p : UInt64}
    (hp : e.logger.hasPredicateStored p = true) :
    ∃ e', LogEnv.recoverPredicate (recording ops mode) p e = (.ok (), e') ∧ Reading ops bs e' ∧
      e'.merger = e.merger ++ (updatesOf bs p).flatMap K2TreeUpdates.merged := by
  obtain ⟨r, hr, hdata, hfail, -⟩ := h.openReader
  have hopen : Reading ops bs (LogEnv.openReader e) := by
    refine h.streams rfl rfl rfl fun r' hr' => ?_
    obtain rfl : r = r' := Option.some.inj (hr.symm.trans hr')
    exact ⟨hdata, hfail⟩
  obtain ⟨offs, e', h1, h2, h3, h4, -⟩ := hopen.recoverOffsets mode hl hp hr
  have h1' : e.logger.offsetsMap.find? p = some offs := h1
  refine ⟨e', ?_, h3, h4⟩
  simp only [LogEnv.recoverPredicate, Act.get_bind, h.exists, if_true, Act.modify_bind, h1']
  exact h2

/-- **`recover`** hands over the updates of one predicate after the other. -/
theorem recover_recording (hl : ops.Lawful) (h : Reading ops bs e) {ps : List UInt64}
    (hps : ∀ p ∈ ps, e.logger.hasPredicateStored p = true) :
    ∃ e', LogEnv.recover (recording ops mode) ps e = (.ok (), e') ∧ Reading ops bs e' ∧
      e'.merger = e.merger ++ (ps.flatMap (updatesOf bs)).flatMap K2TreeUpdates.merged := by
  have hclose : Reading ops bs (LogEnv.closeWriter e) := h.streams rfl rfl rfl h.reader
  obtain ⟨r, hr, hdata, hfail, -⟩ := hclose.openReader
  have hopen : Reading ops bs (LogEnv.openReader (LogEnv.closeWriter e)) := by
    refine hclose.streams rfl rfl rfl fun r' hr' => ?_
    obtain rfl : r = r' := Option.some.inj (hr.symm.trans hr')
    exact ⟨hdata, hfail⟩
  -- the predicates so far have been handed over
  have hloop : ∃ e', Act.forEach ps (LogEnv.recoverDataOf (recording ops mode)) (LogEnv.openReader (LogEnv.closeWriter e)) = (.ok (), e') ∧
      Reading ops bs e' ∧ e'.merger = e.merger ++ (ps.flatMap (updatesOf bs)).flatMap K2TreeUpdates.merged ∧
      e'.logger.offsetsMap = e.logger.offsetsMap ∧ e'.logger.reader ≠ none := by
    refine Act.forEach_ok (fun done e' => Reading ops bs e' ∧
      e'.merger = e.merger ++ (done.flatMap (updatesOf bs)).flatMap K2TreeUpdates.merged ∧
      e'.logger.offsetsMap = e.logger.offsetsMap ∧ e'.logger.reader ≠ none) ps ?_
      ⟨hopen, (List.append_nil _).symm, rfl, by simp [hr]⟩
    rintro pre p post e₁ hsplit ⟨hread, hmerger, hoffsets, hreader⟩
    have hp : e₁.logger.hasPredicateStored p = true := by
      rw [UpdatesLogger.hasPredicateStored, hoffsets]
      exact hps p (by rw [hsplit]; simp)
    obtain ⟨r₁, hr₁⟩ := Option.ne_none_iff_exists'.1 hreader
    obtain ⟨offs, e₂, h4, h5, h6, h7, h8, h9⟩ := hread.recoverOffsets mode hl hp hr₁
    refine ⟨e₂, ?_, h6, ?_, h8.trans hoffsets, h9⟩
    · simp only [LogEnv.recoverDataOf, Act.get_bind, h4]
      exact h5
    · rw [h7, hmerger, List.append_assoc, List.flatMap_append, List.flatMap_append, List.flatMap_singleton]
  obtain ⟨e', h1, h2, h3, -⟩ := hloop
  refine ⟨e', ?_, h2, h3⟩
  have hx : FileRWHandler.fileExists (LogEnv.closeWriter e).disk .updateLog = true := h.exists
  simp only [LogEnv.recover, Act.get_bind, hx, if_true, Act.modify_bind]
  exact h1

/-- **`recover_all`**, from the start of the log, hands over all updates. -/
theorem recoverAll_recording (hl : ops.Lawful) (h : Reading ops bs e) (h0 : ∀ r, e.logger.reader = some r → r.pos = 0) :
    ∃ e', LogEnv.recoverAll (recording ops mode) e = (.ok (), e') ∧ Reading ops bs e' ∧
      e'.merger = e.merger ++ bs.flatten.flatMap K2TreeUpdates.merged := by
  have hclose : Reading ops bs (LogEnv.closeWriter e) := h.streams rfl rfl rfl h.reader
  obtain ⟨r, hr, hdata, hfail, hpos⟩ := hclose.openReader
  have hahead : r.Ahead (bs.flatMap (batchBytes ops)) := ⟨hfail, by rw [hdata, hpos h0, List.drop_zero]⟩
  have hread := recoverUpdates_ahead mode hl hr h.full hahead 0
  rw [Nat.add_zero] at hread
  refine ⟨(LogEnv.openReader (LogEnv.closeWriter e)).readOn r (bs.flatMap (batchBytes ops)) bs.flatten, ?_, ?_, rfl⟩
  · rw [recoverAll_opens h.exists, h.total, Int.toNat_natCast]
    exact hread
  · refine h.streams rfl rfl rfl fun r' hr' => ?_
    obtain rfl : r.skip (bs.flatMap (batchBytes ops)).length = r' := Option.some.inj hr'
    exact ⟨hdata, hfail⟩

/-- **One call** that meets the condition. -/
theorem recoverCall_recording (mode : OpenMode) (hl : ops.Lawful) (h : Reading ops bs e) {c : RecoverCall} (hc : c.FromStart e) :
    ∃ e', c.call (recording ops mode) e = (.ok (), e') ∧ Reading ops bs e' ∧ e'.merger = e.merger ++ c.handsOver bs := by
  cases c with
  | recoverPredicate p => exact recoverPredicate_recording hl h hc
  | recover ps => exact recover_recording hl h hc
  | recoverAll => exact recoverAll_recording hl h hc
  | hasPredicateStored p => exact ⟨e, rfl, h, (List.append_nil _).symm⟩

/-! ## Runs -/

/-- The predicate a tree is handed over for. -/
def Merged.predicateId : Merged T → UInt64
  | addTree p _ => p
  | deleteTree p _ => p

/-- `recover_all` hands over for a predicate what `recover_predicate` does. -/
theorem handsOver_predicate (bs : List (List (K2TreeUpdates T))) (p : UInt64) :
    (RecoverCall.recoverAll.handsOver bs).filter (fun m => m.predicateId = p) = (RecoverCall.recoverPredicate p).handsOver bs := by
  simp only [RecoverCall.handsOver, updatesOf]
  induction bs.flatten with
  | nil => rfl
  | cons u us ih =>
    obtain ⟨q, a, d⟩ := u
    rw [List.flatMap_cons, List.filter_append, ih]
    by_cases hq : q = p
    · have hall : (K2TreeUpdates.merged ⟨q, a, d⟩).filter (fun m => m.predicateId = p) = K2TreeUpdates.merged ⟨q, a, d⟩ := by
        cases a <;> cases d <;> simp [K2TreeUpdates.merged, Merged.predicateId, hq]
      rw [hall, List.filter_cons_of_pos (by simpa using hq), List.flatMap_cons]
    · have hnone : (K2TreeUpdates.merged ⟨q, a, d⟩).filter (fun m => m.predicateId = p) = [] := by
        cases a <;> cases d <;> simp [K2TreeUpdates.merged, Merged.predicateId, hq]
      rw [hnone, List.filter_cons_of_neg (by simpa using hq), List.nil_append]

/-- **Recovering everything equals recovering each predicate**, in every run of these calls in
which `recover_all` finds the reader at the start: whatever came before it, each call hands
over what it asks for, and `recover_all` has for each predicate what `recover_predicate` has. -/
theorem recoverRun_same (hl : ops.Lawful) (h : LogOf ops bs e) (calls : List RecoverCall)
    (hm : (recoverMachine (recording ops mode)).Meets (fun e c => c.FromStart e) calls e) :
    (∃ e', (recoverMachine (recording ops mode)).run calls e = some e' ∧
      e'.merger = e.merger ++ calls.flatMap (RecoverCall.handsOver bs)) ∧
    ∀ p, (RecoverCall.recoverAll.handsOver bs).filter (fun m => m.predicateId = p) =
      (RecoverCall.recoverPredicate p).handsOver bs := by
  refine ⟨?_, handsOver_predicate bs⟩
  have hrun : ∀ (calls : List RecoverCall) (e : LogEnv (List (Merged T))), Reading ops bs e →
      (recoverMachine (recording ops mode)).Meets (fun e c => c.FromStart e) calls e →
      ∃ e', (recoverMachine (recording ops mode)).run calls e = some e' ∧
        e'.merger = e.merger ++ calls.flatMap (RecoverCall.handsOver bs) := by
    intro calls
    induction calls with
    | nil => exact fun e _ _ => ⟨e, rfl, by simp⟩
    | cons c calls ih =>
      intro e hread hmeets
      obtain ⟨e₁, h1, h2, h3⟩ := recoverCall_recording mode hl hread hmeets.1
      have hstep : (recoverMachine (recording ops mode)).step e c = some e₁ := by
        simp only [recoverMachine, h1]
      obtain ⟨e', h4, h5⟩ := ih e₁ h2 (hmeets.2 e₁ hstep)
      refine ⟨e', ?_, ?_⟩
      · rw [Machine.run, hstep]
        exact h4
      · rw [h5, h3, List.flatMap_cons, List.append_assoc]
  exact hrun calls e h.reading hm

open PointTree in
/-- Two batches, of two predicates. -/
def twoBatches : List (List (K2TreeUpdates PointTree)) := [[inserting 7 [(1, 1)]], [deleting 8 [(2, 2)], inserting 7 [(3, 3)]]]

open PointTree in
/-- The log of these batches. -/
def twoBatchesEnv : LogEnv (List (Merged PointTree)) :=
  LogEnv.logAll (recording PointTree.ops .binary) twoBatches ⟨countedEnv.disk, countedEnv.logger, []⟩

open PointTree in
theorem twoBatchesEnv_logOf : LogOf PointTree.ops twoBatches twoBatchesEnv := by
  obtain ⟨h1, h2⟩ := logAll_logged (P := recording PointTree.ops .binary) (fun _ _ => ⟨_, rfl⟩)
    (.start [] countedEnv_construct rfl rfl) (.start [] countedEnv_construct rfl) twoBatches
  refine h1.logOf h2 (by decide) (fun us hus => ?_) (by decide)
  have hall : ∀ us ∈ twoBatches, us.length < 2 ^ 32 ∧ ∀ u ∈ us, u.getKind ≠ .noUpdate := by decide
  exact ⟨(hall us hus).1, (hall us hus).2⟩

open PointTree in
/-- `recover_all` first, then predicates. -/
theorem recoverRun_same_predicates :
    (∃ e', (recoverMachine (recording PointTree.ops .binary)).run [.recoverAll, .recoverPredicate 7, .recover [8, 7]] twoBatchesEnv =
        some e' ∧
      e'.merger = twoBatchesEnv.merger ++
        [RecoverCall.recoverAll, .recoverPredicate 7, .recover [8, 7]].flatMap (RecoverCall.handsOver twoBatches)) ∧
    ∀ p, (RecoverCall.recoverAll.handsOver twoBatches).filter (fun m => m.predicateId = p) =
      (RecoverCall.recoverPredicate p).handsOver twoBatches := by
  refine recoverRun_same ops_lawful twoBatchesEnv_logOf _ ⟨fun r hr => ?_, fun e₁ h1 => ⟨?_, fun e₂ h2 => ⟨?_, fun _ _ => trivial⟩⟩⟩
  · rw [twoBatchesEnv_logOf.reader] at hr
    simp at hr
  · have hrun : ((recoverMachine (recording PointTree.ops .binary)).run [.recoverAll] twoBatchesEnv).map
        (fun e => e.logger.hasPredicateStored 7) = some true := by decide +kernel
    rw [Machine.run, h1] at hrun
    exact Option.some.inj hrun
  · have hrun : ((recoverMachine (recording PointTree.ops .binary)).run [.recoverAll, .recoverPredicate 7] twoBatchesEnv).map
        (fun e => (e.logger.hasPredicateStored 8, e.logger.hasPredicateStored 7)) = some (true, true) := by decide +kernel
    rw [Machine.run, h1, Option.bind_some, Machine.run, h2] at hrun
    obtain ⟨h8, h7⟩ := Prod.ext_iff.1 (Option.some.inj hrun)
    intro p hp
    rcases List.mem_cons.1 hp with rfl | hp
    · exact h8
    · rw [List.mem_singleton.1 hp]
      exact h7

/-- **`recover_all` a second time** hands over nothing: the reader stands at the end. -/
theorem recoverRun_fails :
    ∃ e₁ e₂, (recoverMachine (recording PointTree.ops .binary)).run [.recoverAll] twoBatchesEnv = some e₁ ∧
      (recoverMachine (recording PointTree.ops .binary)).run [.recoverAll, .recoverAll] twoBatchesEnv = some e₂ ∧
      e₂.merger ≠ e₁.merger ++ RecoverCall.recoverAll.handsOver twoBatches := by
  have h1 : ((recoverMachine (recording PointTree.ops .binary)).run [.recoverAll] twoBatchesEnv).map
      (fun e => e.merger.length) = some 3 := by decide +kernel
  have h2 : ((recoverMachine (recording PointTree.ops .binary)).run [.recoverAll, .recoverAll] twoBatchesEnv).map
      (fun e => e.merger.length) = some 3 := by decide +kernel
  have h3 : (RecoverCall.recoverAll.handsOver twoBatches).length = 3 := by decide +kernel
  obtain ⟨e₁, hrun₁, hlen₁⟩ := Option.map_eq_some_iff.1 h1
  obtain ⟨e₂, hrun₂, hlen₂⟩ := Option.map_eq_some_iff.1 h2
  refine ⟨e₁, e₂, hrun₁, hrun₂, fun h => ?_⟩
  have hlen := congrArg List.length h
  rw [List.length_append, hlen₁, hlen₂, h3] at hlen
  omega

end K2Cache
