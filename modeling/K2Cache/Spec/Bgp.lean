import K2Cache.Lib.Act
import K2Cache.Spec.Tree

/-!
# BGPIterator and its operators

A `BGPIterator` has one operator per triple pattern and one row it fills. It runs the
operator of the level it is at (`s_i`); a value moves it one level down, an operator
that is through moves it back up, reset. The loops are given fuel.

The clock is a parameter of `TimeControl`: what each look at it finds.
-/

namespace K2Cache

open Lib

variable {T : Type}

/-! ## TimeControl -/

structure TimeControl where
  ticksUntilCheck : ℤ
  currentTicks : ℤ
  timeHasPassed : Bool
  /-- Whether the time is over at each look at the clock. -/
  clock : ℕ → Bool
  looks : ℕ

/-- `TimeControl::tick`. -/
def TimeControl.tick (c : TimeControl) : Bool × TimeControl :=
  let c := { c with currentTicks := c.currentTicks + 1 }
  if c.timeHasPassed then (false, c)
  else if c.currentTicks < c.ticksUntilCheck then (true, c)
  else
    let d := { c with currentTicks := 0, looks := c.looks + 1 }
    if c.clock c.looks then (false, { d with timeHasPassed := true }) else (true, d)

/-! ## Scanners -/

/-- `FullScanner`, `BandScanner`, `EmptyScanner`. -/
inductive ScannerKind where
  | full
  | band (value : UInt64) (bandType : BandType)
  | empty
deriving DecidableEq, Repr

/-- A scanner, with the points it has not visited yet. -/
structure K2TreeScanner (T : Type) where
  kind : ScannerKind
  tree : T
  ahead : List Point

namespace K2TreeScanner

variable (ops : TreeOps T)

/-- All the points a scanner visits. -/
def scan (t : T) : ScannerKind → List Point
  | .full => ops.fullScan t
  | .band v bt => (ops.bandScan t bt v).map (bandPoint bt v)
  | .empty => []

/-- `create_full_scanner`, `create_band_scanner`, `create_empty_scanner`. -/
def create (t : T) (k : ScannerKind) : K2TreeScanner T := ⟨k, t, scan ops t k⟩

def hasNext (s : K2TreeScanner T) : Bool := !s.ahead.isEmpty

/-- `next`, of a scanner that has one. -/
def next (s : K2TreeScanner T) : Point × K2TreeScanner T :=
  (s.ahead.headD (0, 0), { s with ahead := s.ahead.tail })

def resetScan (s : K2TreeScanner T) : K2TreeScanner T := { s with ahead := scan ops s.tree s.kind }

def getBandValue (s : K2TreeScanner T) : Except Exn UInt64 :=
  match s.kind with
  | .band v _ => .ok v
  | .full => .error (.runtimeError "Not band")
  | .empty => .error (.runtimeError "empty scanner")

end K2TreeScanner

/-! ## Operators -/

/-- `BGPOp::VARS`. -/
inductive Vars where
  | subjectVar
  | objectVar
deriving DecidableEq, Repr

structure RunResult where
  scanDone : Bool
  validValue : Bool
deriving DecidableEq, Repr

/-- `RunResult result{}`. -/
def RunResult.zero : RunResult := ⟨false, false⟩

/-- A row, by header position. -/
abbrev Row := List UInt64

/-- The value at a position. -/
def Row.val (r : Row) (pos : ℕ) : UInt64 := r.getD pos 0

/-- The operators `create_bgp_op` makes. -/
inductive BGPOp (T : Type) where
  | twoVarIntersection (scanner : K2TreeScanner T) (subjectPos objectPos : ℕ)
  | twoVarJoinOne (wv : Vars) (scanner : K2TreeScanner T) (subjectPos objectPos : ℕ)
      (currentBandScanner : Option (K2TreeScanner T)) (currentBand : UInt64)
  | twoVarCProduct (scanner : K2TreeScanner T) (subjectPos objectPos : ℕ)
  | oneVarIntersect (wv : Vars) (scanner : K2TreeScanner T) (varPos : ℕ)
  | oneVarCP (wv : Vars) (scanner : K2TreeScanner T) (varPos : ℕ)
  | tripleExistence (scanner : K2TreeScanner T) (subjectId objectId : UInt64)

/-- The component of a point that a variable names. -/
def Vars.pick (wv : Vars) (x : Point) : UInt64 :=
  match wv with
  | .subjectVar => x.1
  | .objectVar => x.2

/-- What `run` leaves: its result, the clock, the row and the operator. -/
structure Ran (T : Type) where
  result : RunResult
  timeControl : TimeControl
  row : Row
  op : BGPOp T

namespace BGPOp

variable (ops : TreeOps T)

/-- `TwoVarJoinOneBGPOp::run`: the position that is joined, and the one that is set. -/
def joinPos (wv : Vars) (subjectPos objectPos : ℕ) : ℕ :=
  match wv with
  | .subjectVar => subjectPos
  | .objectVar => objectPos

def setPos (wv : Vars) (subjectPos objectPos : ℕ) : ℕ :=
  match wv with
  | .subjectVar => objectPos
  | .objectVar => subjectPos

def joinBandType : Vars → BandType
  | .subjectVar => .column
  | .objectVar => .row

/-- The component `TwoVarJoinOneBGPOp` sets. -/
def setValue (wv : Vars) (x : Point) : UInt64 :=
  match wv with
  | .subjectVar => x.2
  | .objectVar => x.1

/-- `TwoVarJoinOneBGPOp::run`, from the scanner of the band on. -/
def runBand (wv : Vars) (scanner : K2TreeScanner T) (sp op : ℕ) (band : K2TreeScanner T) (value : UInt64)
    (c : TimeControl) (row : Row) : Ran T :=
  if !band.hasNext then ⟨⟨true, false⟩, c, row, .twoVarJoinOne wv scanner sp op (some band) value⟩
  else
    let x := band.next
    let t := c.tick
    let next := BGPOp.twoVarJoinOne wv scanner sp op (some x.2) value
    if !t.1 then ⟨.zero, t.2, row, next⟩
    else ⟨⟨!x.2.hasNext, true⟩, t.2, row.set (setPos wv sp op) (setValue wv x.1), next⟩

/-- `BGPOp::run`. -/
def run (c : TimeControl) (row : Row) (o : BGPOp T) : Except Exn (Ran T) :=
  let t := c.tick
  if !t.1 then .ok ⟨.zero, t.2, row, o⟩
  else match o with
  | .twoVarIntersection scanner sp op =>
    if ops.has scanner.tree (row.val sp, row.val op) then .ok ⟨⟨true, true⟩, t.2, row, o⟩
    else .ok ⟨⟨true, false⟩, t.2, row, o⟩
  | .twoVarJoinOne wv scanner sp op currentBandScanner currentBand =>
    let joinValue := row.val (joinPos wv sp op)
    let fresh := K2TreeScanner.create ops scanner.tree (.band joinValue (joinBandType wv))
    match currentBandScanner with
    | none => .ok (runBand wv scanner sp op fresh joinValue t.2 row)
    | some band =>
      if joinValue ≠ currentBand then .ok (runBand wv scanner sp op fresh joinValue t.2 row)
      else .ok (runBand wv scanner sp op band currentBand t.2 row)
  | .twoVarCProduct scanner sp op =>
    if !scanner.hasNext then .ok ⟨⟨true, false⟩, t.2, row, o⟩
    else
      let x := scanner.next
      let u := t.2.tick
      if !u.1 then .ok ⟨.zero, u.2, row, .twoVarCProduct x.2 sp op⟩
      else .ok ⟨⟨!x.2.hasNext, true⟩, u.2, (row.set sp x.1.1).set op x.1.2, .twoVarCProduct x.2 sp op⟩
  | .oneVarIntersect wv scanner pos =>
    match scanner.getBandValue with
    | .error e => .error e
    | .ok band =>
      let x := match wv with
        | .subjectVar => (row.val pos, band)
        | .objectVar => (band, row.val pos)
      .ok ⟨⟨true, ops.has scanner.tree x⟩, t.2, row, o⟩
  | .oneVarCP wv scanner pos =>
    if !scanner.hasNext then .ok ⟨⟨true, false⟩, t.2, row, o⟩
    else
      let x := scanner.next
      let u := t.2.tick
      -- unlike the others, this one is through when the time is over
      if !u.1 then .ok ⟨⟨true, false⟩, u.2, row, .oneVarCP wv x.2 pos⟩
      else .ok ⟨⟨!x.2.hasNext, true⟩, u.2, row.set pos (wv.pick x.1), .oneVarCP wv x.2 pos⟩
  | .tripleExistence scanner s o' => .ok ⟨⟨true, ops.has scanner.tree (s, o')⟩, t.2, row, o⟩

/-- `BGPOp::reset_op`. -/
def resetOp : BGPOp T → BGPOp T
  | .twoVarJoinOne wv scanner sp op _ _ => .twoVarJoinOne wv scanner sp op none 0
  | .twoVarCProduct scanner sp op => .twoVarCProduct (scanner.resetScan ops) sp op
  | .oneVarCP wv scanner pos => .oneVarCP wv (scanner.resetScan ops) pos
  | o => o

end BGPOp

/-! ## The iterator -/

/-- Why a call does not return: it throws, or it needs more fuel. -/
inductive Halt where
  | thrown (e : Exn)
  | outOfFuel
deriving DecidableEq, Repr

structure BGPIterator (T : Type) where
  timeControl : TimeControl
  bgpOps : List (BGPOp T)
  headers : List ℕ
  nextAvailable : Bool
  nextValue : Row
  tmpHolder : Row
  si : ℤ
  finishedOps : List Bool

namespace BGPIterator

variable (ops : TreeOps T)

/-- `time_control.tick()`. -/
def tick : Act Halt (BGPIterator T) Bool := fun it =>
  (.ok it.timeControl.tick.1, { it with timeControl := it.timeControl.tick.2 })

/-- `finished_ops[s_i]`. -/
def finished (it : BGPIterator T) : Bool := it.finishedOps.getD it.si.toNat false

/-- `bgp_ops[s_i]->run(tmp_holder)`. -/
def runOp : Act Halt (BGPIterator T) RunResult := fun it =>
  match it.bgpOps[it.si.toNat]? with
  | none => (.error (.thrown .nullDereference), it)
  | some op =>
    match op.run ops it.timeControl it.tmpHolder with
    | .error e => (.error (.thrown e), it)
    | .ok ran => (.ok ran.result,
        { it with timeControl := ran.timeControl, tmpHolder := ran.row, bgpOps := it.bgpOps.set it.si.toNat ran.op })

/-- A finished operator is reset, and its level left. -/
def retreat (it : BGPIterator T) : BGPIterator T :=
  { it with
    bgpOps := it.bgpOps.modify it.si.toNat (BGPOp.resetOp ops)
    finishedOps := it.finishedOps.set it.si.toNat false
    si := it.si - 1 }

/-- `if (run_result.scan_done) finished_ops[s_i] = true`. -/
def markDone (r : RunResult) (it : BGPIterator T) : BGPIterator T :=
  if r.scanDone then { it with finishedOps := it.finishedOps.set it.si.toNat true } else it

/-- `if (run_result.valid_value) s_i++`. -/
def advance (r : RunResult) (it : BGPIterator T) : BGPIterator T :=
  if r.validValue then { it with si := it.si + 1 } else it

/-- The loops of `ops_until_last`. The inner one ends by a `break` where it changes the
level and stays at it otherwise, with the same run result at its head: one loop. -/
def opsLoop : ℕ → Act Halt (BGPIterator T) Unit
  | 0 => Act.throw .outOfFuel
  | fuel + 1 => do
    let it ← Act.get
    if it.si < (it.bgpOps.length : ℤ) - 1 ∧ 0 ≤ it.si then
      if it.finished then do
        Act.modify (retreat ops)
        opsLoop fuel
      else do
        let r ← runOp ops
        let go ← tick
        if go then do
          Act.modify fun it => advance r (markDone r it)
          opsLoop fuel
        else pure ()
    else pure ()

/-- `ops_until_last`. -/
def opsUntilLast (fuel : ℕ) : Act Halt (BGPIterator T) Unit := do
  let go ← tick
  if go then opsLoop ops fuel else pure ()

/-- The loop of `next_concrete`. -/
def nextLoop : ℕ → Act Halt (BGPIterator T) Unit
  | 0 => Act.throw .outOfFuel
  | fuel + 1 => do
    opsUntilLast ops (fuel + 1)
    let it ← Act.get
    if it.si < 0 then Act.modify fun it => { it with nextAvailable := false }
    else if it.finished then do
      Act.modify (retreat ops)
      nextLoop fuel
    else do
      let r ← runOp ops
      let go ← tick
      if go then do
        Act.modify (markDone r)
        if r.validValue then Act.modify fun it => { it with nextValue := it.tmpHolder, nextAvailable := true }
        else nextLoop fuel
      else pure ()

/-- `next_concrete`. -/
def nextConcrete (fuel : ℕ) : Act Halt (BGPIterator T) Row := do
  let go ← tick
  let it ← Act.get
  let result := it.nextValue
  if go then do
    Act.modify fun it => { it with nextAvailable := false }
    nextLoop ops fuel
    pure result
  else pure result

/-- `has_next`. -/
def hasNext (it : BGPIterator T) : Bool := it.nextAvailable

/-- `next`. -/
def next (fuel : ℕ) : Act Halt (BGPIterator T) Row := nextConcrete ops fuel

/-- The fields the constructor sets, before it calls `next_concrete`. -/
def init (bgpOps : List (BGPOp T)) (headers : List ℕ) (c : TimeControl) : BGPIterator T :=
  ⟨c, bgpOps, headers, false, [], List.replicate headers.length 0, 0, List.replicate bgpOps.length false⟩

/-- The constructor. -/
def construct (fuel : ℕ) (bgpOps : List (BGPOp T)) (headers : List ℕ) (c : TimeControl) :
    Except Halt Row × BGPIterator T := nextConcrete ops fuel (init bgpOps headers c)

/-- `while (it.has_next()) rows.push_back(it.next())`. -/
def drain (fuel : ℕ) : ℕ → Act Halt (BGPIterator T) (List Row)
  | 0 => Act.throw .outOfFuel
  | n + 1 => do
    let it ← Act.get
    if it.hasNext then do
      let row ← next ops fuel
      let rows ← drain fuel n
      pure (row :: rows)
    else pure []

/-- `k` calls of `next`. -/
def nexts (fuel : ℕ) : ℕ → Act Halt (BGPIterator T) Unit
  | 0 => pure ()
  | k + 1 => do
    let _ ← next ops fuel
    nexts fuel k

/-- `reset_iterator`. -/
def resetIterator (fuel : ℕ) : Act Halt (BGPIterator T) Unit := do
  Act.modify fun it => { it with bgpOps := it.bgpOps.map (BGPOp.resetOp ops) }
  let _ ← nextConcrete ops fuel
  pure ()

end BGPIterator

end K2Cache
