import K2Cache.Lib.Erase
import K2Cache.Proof.LogRun

/-!
# The logger over different mergers

The calls of the logger reach its merger through three functions. What these keep of the
merger's state the calls keep (`MergerKeeps`), two loggers whose mergers differ in a part
that one of them does not have do the same otherwise (`LoggerParams.Erases`), and a reader in
front of records hands their updates to the merger in order (`recoverRecords_reads`).
-/

namespace K2Cache

open Lib

variable {T μ μ' : Type}

/-! ## What a merger keeps -/

/-- What the merger's functions preserve. -/
structure MergerKeeps (P : LoggerParams T μ) (I : μ → Prop) : Prop where
  add : ∀ p t, Act.Keeps I (P.merger.mergeAddTree p t)
  delete : ∀ p t, Act.Keeps I (P.merger.mergeDeleteTree p t)
  update : ∀ us, Act.Keeps I (P.merger.mergeUpdate us)

namespace MergerKeeps

variable {P : LoggerParams T μ} {I : μ → Prop} (h : MergerKeeps P I)
include h

theorem mergeUpdate (u : PredicateUpdate T) : Act.Keeps (fun e : LogEnv μ => I e.merger) (LogEnv.mergeUpdate P u) :=
  (Act.Keeps.forSome (fun t e he => h.add u.predicateId t e.merger he) _).bind fun _ =>
    Act.Keeps.forSome (fun t e he => h.delete u.predicateId t e.merger he) _

theorem recoverPredicate (p : UInt64) : Act.Keeps (fun e : LogEnv μ => I e.merger) (LogEnv.recoverPredicate P p) := by
  refine Act.keeps_get.bind fun e => ?_
  split
  · refine Act.Keeps.bind (Act.keeps_modify fun e he => he) fun _ => ?_
    split
    · exact Act.keeps_throw _
    · exact Act.Keeps.forEach fun off _ => Act.Keeps.bind (fun e he => he) h.mergeUpdate
  · exact Act.keeps_pure ()

theorem recoverRecords (n : ℕ) : Act.Keeps (fun e : LogEnv μ => I e.merger) (LogEnv.recoverRecords P n) := by
  induction n with
  | zero => exact Act.keeps_pure ()
  | succ n ih => exact Act.Keeps.bind (fun e he => he) fun u => (h.mergeUpdate u).bind fun _ => ih

theorem recoverUpdates (n : ℕ) : Act.Keeps (fun e : LogEnv μ => I e.merger) (LogEnv.recoverUpdates P n) := by
  induction n with
  | zero => exact Act.keeps_pure ()
  | succ n ih => exact (Act.Keeps.bind (fun e he => he) fun c => h.recoverRecords _).bind fun _ => ih

theorem recoverAll : Act.Keeps (fun e : LogEnv μ => I e.merger) (LogEnv.recoverAll P) := by
  refine Act.Keeps.bind (Act.keeps_modify fun e he => he) fun _ => Act.keeps_get.bind fun e => ?_
  split
  · exact Act.Keeps.bind (Act.keeps_modify fun e he => he) fun _ => h.recoverUpdates _
  · exact Act.keeps_pure ()

theorem log (us : List (K2TreeUpdates T)) : Act.Keeps (fun e : LogEnv μ => I e.merger) (LogEnv.log P us) :=
  Act.Keeps.bind (Act.keeps_modify fun _ he => he) fun _ => Act.Keeps.bind (Act.keeps_modify fun _ he => he) fun _ =>
    Act.Keeps.bind (Act.keeps_modify fun _ he => he) fun _ =>
      Act.Keeps.bind (fun e he => h.update us e.merger he) fun _ => Act.keeps_modify fun _ he => he

end MergerKeeps

/-! ## Mergers with more in their state -/

/-- The state of a logger over a part of the merger's state. -/
def LogEnv.mapMerger (ρ : μ' → μ) (e : LogEnv μ') : LogEnv μ := ⟨e.disk, e.logger, ρ e.merger⟩

/-- The merger of `P'` is that of `P` with more in its state. -/
structure LoggerParams.Erases (ρ : μ' → μ) (P' : LoggerParams T μ') (P : LoggerParams T μ) : Prop where
  ops : P'.ops = P.ops
  logMode : P'.logMode = P.logMode
  add : ∀ p t, Act.Erases ρ (P'.merger.mergeAddTree p t) (P.merger.mergeAddTree p t)
  delete : ∀ p t, Act.Erases ρ (P'.merger.mergeDeleteTree p t) (P.merger.mergeDeleteTree p t)
  update : ∀ us, Act.Erases ρ (P'.merger.mergeUpdate us) (P.merger.mergeUpdate us)

namespace LoggerParams.Erases

variable {ρ : μ' → μ} {P' : LoggerParams T μ'} {P : LoggerParams T μ}

theorem onMerger {α : Type} {x : Act Exn μ' α} {y : Act Exn μ α} (h : Act.Erases ρ x y) :
    Act.Erases (LogEnv.mapMerger ρ) (LogEnv.onMerger x) (LogEnv.onMerger y) :=
  h.focus (fun _ => rfl) fun _ _ => rfl

theorem withReader {α : Type} (f : IStream → Except Exn α × IStream) :
    Act.Erases (LogEnv.mapMerger ρ) (LogEnv.withReader f) (LogEnv.withReader f) := fun _ => ⟨rfl, rfl⟩

variable (h : LoggerParams.Erases ρ P' P)
include h

theorem mergeUpdate (u : PredicateUpdate T) :
    Act.Erases (LogEnv.mapMerger ρ) (LogEnv.mergeUpdate P' u) (LogEnv.mergeUpdate P u) :=
  (Act.Erases.forSome (fun t => onMerger (h.add _ t)) _).bind fun _ => Act.Erases.forSome (fun t => onMerger (h.delete _ t)) _

theorem recoverAt (off : ℕ) : Act.Erases (LogEnv.mapMerger ρ) (LogEnv.recoverAt P' off) (LogEnv.recoverAt P off) := by
  unfold LogEnv.recoverAt
  rw [h.ops]
  exact (withReader _).bind h.mergeUpdate

theorem recoverPredicate (p : UInt64) :
    Act.Erases (LogEnv.mapMerger ρ) (LogEnv.recoverPredicate P' p) (LogEnv.recoverPredicate P p) := by
  unfold LogEnv.recoverPredicate
  refine Act.erases_get_bind fun e => Act.Erases.ite Iff.rfl ?_ (Act.erases_pure ())
  refine Act.Erases.bind (Act.erases_modify fun _ => rfl) fun _ => ?_
  rw [show (e.mapMerger ρ).logger.offsetsMap = e.logger.offsetsMap from rfl]
  cases e.logger.offsetsMap.find? p with
  | none => exact Act.erases_throw _
  | some offsets => exact Act.Erases.forEach h.recoverAt offsets

theorem recoverRecords (n : ℕ) :
    Act.Erases (LogEnv.mapMerger ρ) (LogEnv.recoverRecords P' n) (LogEnv.recoverRecords P n) := by
  induction n with
  | zero => exact Act.erases_pure ()
  | succ n ih =>
    rw [LogEnv.recoverRecords, LogEnv.recoverRecords, h.ops]
    exact (withReader _).bind fun u => (h.mergeUpdate u).bind fun _ => ih

theorem recoverUpdates (n : ℕ) :
    Act.Erases (LogEnv.mapMerger ρ) (LogEnv.recoverUpdates P' n) (LogEnv.recoverUpdates P n) := by
  induction n with
  | zero => exact Act.erases_pure ()
  | succ n ih => exact ((withReader _).bind fun c => h.recoverRecords _).bind fun _ => ih

theorem recoverAll : Act.Erases (LogEnv.mapMerger ρ) (LogEnv.recoverAll P') (LogEnv.recoverAll P) := by
  unfold LogEnv.recoverAll
  refine Act.Erases.bind (Act.erases_modify fun _ => rfl) fun _ => Act.erases_get_bind fun e => ?_
  refine Act.Erases.ite Iff.rfl ?_ (Act.erases_pure ())
  exact Act.Erases.bind (Act.erases_modify fun _ => rfl) fun _ => h.recoverUpdates _

theorem log (us : List (K2TreeUpdates T)) : Act.Erases (LogEnv.mapMerger ρ) (LogEnv.log P' us) (LogEnv.log P us) := by
  have hopen : ∀ e : LogEnv μ', LogEnv.mapMerger ρ (LogEnv.openWriter P' e) = LogEnv.openWriter P (LogEnv.mapMerger ρ e) := by
    intro e
    unfold LogEnv.openWriter
    rw [h.logMode]
    rfl
  have happend : ∀ e : LogEnv μ', LogEnv.mapMerger ρ (LogEnv.appendBatch P' us e) =
      LogEnv.appendBatch P us (LogEnv.mapMerger ρ e) := by
    intro e
    unfold LogEnv.appendBatch
    rw [h.ops]
    rfl
  refine Act.Erases.bind (Act.erases_modify hopen) fun _ => Act.Erases.bind (Act.erases_modify happend) fun _ => ?_
  refine Act.Erases.bind (Act.erases_modify fun _ => rfl) fun _ => (onMerger (h.update us)).bind fun _ => ?_
  exact Act.erases_modify fun _ => rfl

end LoggerParams.Erases

/-! ## Reading on -/

/-- What the merger is handed of a record. -/
def LoggerParams.mergeRecord (L : LoggerParams T μ) (u : PredicateUpdate T) : Act Exn μ Unit := do
  Act.forSome u.addUpdate (L.merger.mergeAddTree u.predicateId)
  Act.forSome u.delUpdate (L.merger.mergeDeleteTree u.predicateId)

/-- The state of a logger whose reader has gone on, and whose merger is at `m`. -/
def LogEnv.readTo (e : LogEnv μ) (r : IStream) (n : ℕ) (m : μ) : LogEnv μ := { e.setReader (r.skip n) with merger := m }

section Read

variable {L : LoggerParams T μ} {e : LogEnv μ} {r : IStream}

theorem LogEnv.readTo_self (hr : e.logger.reader = some r) : e.readTo r 0 e.merger = e := by
  unfold readTo setReader
  rw [IStream.skip_zero, ← hr]

theorem LogEnv.readTo_readTo (e : LogEnv μ) (r : IStream) (n n' : ℕ) (m m' : μ) :
    (e.readTo r n m).readTo (r.skip n) n' m' = e.readTo r (n + n') m' := by
  simp only [readTo, setReader, IStream.skip_skip]

theorem mergeUpdate_eq (u : PredicateUpdate T) (e : LogEnv μ) :
    LogEnv.mergeUpdate L u e = ((L.mergeRecord u e.merger).1, { e with merger := (L.mergeRecord u e.merger).2 }) := by
  obtain ⟨p, a, d⟩ := u
  unfold LogEnv.mergeUpdate LoggerParams.mergeRecord
  rw [Act.bind_run, Act.bind_run]
  -- the adds, and then the deletes
  have key : ∀ (o : Option T) (f : T → Act Exn μ Unit) (e : LogEnv μ),
      Act.forSome o (fun t => LogEnv.onMerger (f t)) e =
        ((Act.forSome o f e.merger).1, { e with merger := (Act.forSome o f e.merger).2 }) := by
    intro o f e
    cases o <;> rfl
  simp only [key]
  rcases Act.forSome a (L.merger.mergeAddTree p) e.merger with ⟨x | u, m⟩
  · rfl
  · rfl

/-- **Records are read one after another**, whatever the merger. -/
theorem recoverRecords_reads (hl : L.ops.Lawful) (hr : e.logger.reader = some r) {us : List (K2TreeUpdates T)} {m : μ}
    (hk : ∀ u ∈ us, u.getKind ≠ .noUpdate) (h : r.Ahead (us.flatMap (recordBytes L.ops)))
    (hm : Act.forEach us (fun u => L.mergeRecord u.toPredicateUpdate) e.merger = (.ok (), m)) (k : ℕ) :
    LogEnv.recoverRecords L (us.length + k) e =
      LogEnv.recoverRecords L k (e.readTo r (us.flatMap (recordBytes L.ops)).length m) := by
  induction us generalizing e r with
  | nil =>
    obtain rfl : e.merger = m := congrArg Prod.snd hm
    rw [List.flatMap_nil, List.length_nil, List.length_nil, LogEnv.readTo_self hr, Nat.zero_add]
  | cons u us ih =>
    rw [List.flatMap_cons] at h
    rw [Act.forEach_cons] at hm
    obtain ⟨_, m₁, hm₁, hm₂⟩ := Act.bind_eq_ok hm
    have hread := recoverSinglePredicateUpdate_reads hl u (hk u List.mem_cons_self) r h.left
    have hcur : e.currentReader = r := by rw [LogEnv.currentReader, hr, Option.getD_some]
    have hw : LogEnv.withReader (recoverSinglePredicateUpdate L.ops) e =
        (.ok u.toPredicateUpdate, e.setReader (r.skip (recordBytes L.ops u).length)) := by
      rw [LogEnv.withReader_run, hcur, hread]
    have hmerge : LogEnv.mergeUpdate L u.toPredicateUpdate (e.setReader (r.skip (recordBytes L.ops u).length)) =
        (.ok (), e.readTo r (recordBytes L.ops u).length m₁) := by
      have hm₁' : L.mergeRecord u.toPredicateUpdate (e.setReader (r.skip (recordBytes L.ops u).length)).merger =
          (.ok (), m₁) := hm₁
      rw [mergeUpdate_eq, hm₁']
      rfl
    have hone : LogEnv.recoverRecords L (us.length + k + 1) e =
        LogEnv.recoverRecords L (us.length + k) (e.readTo r (recordBytes L.ops u).length m₁) := by
      rw [LogEnv.recoverRecords, Act.bind_ok hw, Act.bind_ok hmerge]
    have hrest := ih (e := e.readTo r (recordBytes L.ops u).length m₁) rfl (fun v hv => hk v (List.mem_cons_of_mem _ hv))
      h.right hm₂
    rw [show (u :: us).length + k = us.length + k + 1 by rw [List.length_cons]; omega, hone, hrest, LogEnv.readTo_readTo,
      List.flatMap_cons, List.length_append]

/-- The number in front of a batch. -/
theorem recoverSingleUpdate_reads (hr : e.logger.reader = some r) {n : ℕ} (hn : n < 2 ^ 32) {rest : Bytes}
    (h : r.Ahead (u32Bytes (UInt32.ofNat n) ++ rest)) :
    LogEnv.recoverSingleUpdate L e = LogEnv.recoverRecords L n (e.readTo r 4 e.merger) := by
  have hread := IStream.reads_readU32 _ r h.left
  have hcur : e.currentReader = r := by rw [LogEnv.currentReader, hr, Option.getD_some]
  have hw : LogEnv.withReader (fun s => (.ok s.readU32.1, s.readU32.2)) e = (.ok (UInt32.ofNat n), e.readTo r 4 e.merger) := by
    rw [LogEnv.withReader_run, hcur, hread, u32Bytes_length]
    rfl
  rw [LogEnv.recoverSingleUpdate, Act.bind_ok hw, UInt32.toNat_ofNat_of_lt' (by rw [UInt32.size]; omega)]

end Read

end K2Cache
