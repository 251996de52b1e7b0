import K2Cache.Lib.Search
import K2Cache.Spec.Bgp

/-!
# Operators as levels of a search

The points the scanner of an operator visits are the choices of its level. An operator
reads positions of the row that earlier ones wrote and writes positions none of them did
(`OpPlan`), so it is a level between the rows that agree on the former and those that
also agree on the latter (`OpPlan.between`).

`BGPOp.run_spec`: while the time is not over, `run` takes the next choice or finds that
none is left.
-/

namespace K2Cache

open Lib

variable {T : Type} {ops : TreeOps T}

/-! ## A clock that does not run out -/

/-- The time is not over at any look at the clock. -/
structure TimeControl.NeverExpires (c : TimeControl) : Prop where
  passed : c.timeHasPassed = false
  clock : ∀ n, c.clock n = false

theorem TimeControl.NeverExpires.tick {c : TimeControl} (h : c.NeverExpires) :
    c.tick.1 = true ∧ c.tick.2.NeverExpires := by
  unfold TimeControl.tick
  simp only [h.passed, h.clock, Bool.false_eq_true, if_false]
  split
  · exact ⟨rfl, rfl, h.clock⟩
  · exact ⟨rfl, rfl, h.clock⟩

/-! ## Operators as levels -/

namespace BGPOp

/-- The point a variable at `wv` and the value of the band make. -/
def place (wv : Vars) (band v : UInt64) : Point :=
  match wv with
  | .subjectVar => (v, band)
  | .objectVar => (band, v)

/-- The row is as the pattern of the operator wants it. -/
def check (ops : TreeOps T) (o : BGPOp T) (row : Row) : Bool :=
  match o with
  | .twoVarIntersection s sp op => ops.has s.tree (row.val sp, row.val op)
  | .twoVarJoinOne _ s sp op _ _ => ops.has s.tree (row.val sp, row.val op)
  -- with one position for both, the subject is overwritten
  | .twoVarCProduct s sp op =>
    if sp = op then (ops.fullScan s.tree).any fun x => x.2 = row.val op else ops.has s.tree (row.val sp, row.val op)
  | .oneVarIntersect wv s pos =>
    match s.getBandValue with
    | .ok b => ops.has s.tree (place wv b (row.val pos))
    | .error _ => false
  | .oneVarCP wv s pos =>
    match s.getBandValue with
    | .ok b => ops.has s.tree (place wv b (row.val pos))
    | .error _ => false
  | .tripleExistence s a b => ops.has s.tree (a, b)

/-- One choice if the row passes, none if not. -/
def guardChoice (b : Bool) : List Point := if b then [(0, 0)] else []

/-- The choices of an operator that has been reset. -/
def choices (ops : TreeOps T) (o : BGPOp T) (row : Row) : List Point :=
  match o with
  | .twoVarJoinOne wv s sp op _ _ =>
    K2TreeScanner.scan ops s.tree (.band (row.val (joinPos wv sp op)) (joinBandType wv))
  | .twoVarCProduct s _ _ => K2TreeScanner.scan ops s.tree s.kind
  | .oneVarCP _ s _ => K2TreeScanner.scan ops s.tree s.kind
  | o => guardChoice (o.check ops row)

/-- The choices an operator has left. -/
def left (ops : TreeOps T) (o : BGPOp T) (row : Row) : List Point :=
  match o with
  | .twoVarJoinOne _ _ _ _ (some band) _ => band.ahead
  | .twoVarCProduct s _ _ => s.ahead
  | .oneVarCP _ s _ => s.ahead
  | o => o.choices ops row

/-- What a choice writes. -/
def put (o : BGPOp T) (row : Row) (x : Point) : Row :=
  match o with
  | .twoVarJoinOne wv _ sp op _ _ => row.set (setPos wv sp op) (setValue wv x)
  | .twoVarCProduct _ sp op => (row.set sp x.1).set op x.2
  | .oneVarCP wv _ pos => row.set pos (wv.pick x)
  | _ => row

/-- The level of the search an operator is. -/
def level (ops : TreeOps T) (o : BGPOp T) : Search.Level Row Point :=
  ⟨o.choices ops, o.put, fun row => o.check ops row = true⟩

/-- The scanner of a band is of the band the row asks for. -/
def BandOk (o : BGPOp T) (row : Row) : Prop :=
  match o with
  | .twoVarJoinOne wv _ sp op (some _) band => band = row.val (joinPos wv sp op)
  | _ => True

/-- An operator with the scanner `build_scanners` gives it; a join is of two positions. -/
def Shape (o : BGPOp T) : Prop :=
  match o with
  | .twoVarIntersection _ _ _ => True
  | .twoVarJoinOne _ _ sp op _ _ => sp ≠ op
  | .twoVarCProduct s _ _ => s.kind = .full
  | .oneVarIntersect _ s _ => ∃ b bt, s.kind = .band b bt
  | .oneVarCP wv s _ => ∃ b, s.kind = .band b (match wv with | .subjectVar => .row | .objectVar => .column)
  | .tripleExistence _ _ _ => True

/-- An operator that writes each component of its points. -/
def KeepsBoth (o : BGPOp T) : Prop :=
  match o with
  | .twoVarCProduct _ sp op => sp ≠ op
  | _ => True

/-- The positions an operator reads, and those it writes. -/
def reads (o : BGPOp T) : List ℕ :=
  match o with
  | .twoVarIntersection _ sp op => [sp, op]
  | .twoVarJoinOne wv _ sp op _ _ => [joinPos wv sp op]
  | .oneVarIntersect _ _ pos => [pos]
  | _ => []

def writes (o : BGPOp T) : List ℕ :=
  match o with
  | .twoVarJoinOne wv _ sp op _ _ => [setPos wv sp op]
  | .twoVarCProduct _ sp op => [op, sp]
  | .oneVarCP _ _ pos => [pos]
  | _ => []

/-! An operator is known by what it is when reset. -/

@[simp] theorem level_resetOp (o : BGPOp T) : (o.resetOp ops).level ops = o.level ops := by
  cases o <;> rfl

@[simp] theorem reads_resetOp (ops : TreeOps T) (o : BGPOp T) : (o.resetOp ops).reads = o.reads := by
  cases o <;> rfl

@[simp] theorem writes_resetOp (ops : TreeOps T) (o : BGPOp T) : (o.resetOp ops).writes = o.writes := by
  cases o <;> rfl

@[simp] theorem shape_resetOp (ops : TreeOps T) (o : BGPOp T) : (o.resetOp ops).Shape ↔ o.Shape := by
  cases o <;> exact Iff.rfl

theorem left_resetOp (o : BGPOp T) : (o.resetOp ops).left ops = (o.level ops).choices := by
  cases o <;> rfl

theorem bandOk_resetOp (o : BGPOp T) (row : Row) : (o.resetOp ops).BandOk row := by
  cases o <;> trivial

end BGPOp

/-! ## Rows -/

/-- Rows of `n` values that agree at some positions. -/
structure Agree (n : ℕ) (B : List ℕ) (r r' : Row) : Prop where
  length : r.length = n
  length' : r'.length = n
  val : ∀ j ∈ B, r.val j = r'.val j

variable {n : ℕ} {B : List ℕ} {r r' : Row}

theorem Agree.refl (h : r.length = n) : Agree n B r r := ⟨h, h, fun _ _ => rfl⟩

theorem Row.val_set (r : Row) (i j : ℕ) (v : UInt64) (hi : i < r.length) :
    Row.val (r.set i v) j = if j = i then v else r.val j := by
  unfold Row.val
  rw [List.getD_eq_getElem?_getD, List.getD_eq_getElem?_getD, List.getElem?_set]
  by_cases hij : i = j
  · subst hij
    simp [hi]
  · simp [hij, Ne.symm hij]

theorem Row.val_set_ne (r : Row) {i j : ℕ} (v : UInt64) (h : j ≠ i) : Row.val (r.set i v) j = r.val j := by
  unfold Row.val
  rw [List.getD_eq_getElem?_getD, List.getD_eq_getElem?_getD, List.getElem?_set_ne (Ne.symm h)]

/-- Rows that agree everywhere are equal. -/
theorem Agree.eq (hB : ∀ j < n, j ∈ B) (h : Agree n B r r') : r = r' := by
  apply List.ext_getElem (h.length.trans h.length'.symm)
  intro j hj hj'
  have := h.val j (hB j (h.length ▸ hj))
  unfold Row.val at this
  rwa [List.getD_eq_getElem _ _ hj, List.getD_eq_getElem _ _ hj'] at this

/-- **The place of an operator**: it reads what is written, and writes what is not. -/
structure OpPlan (n : ℕ) (B : List ℕ) (o : BGPOp T) : Prop where
  shape : o.Shape
  reads : ∀ j ∈ o.reads, j ∈ B
  fresh : ∀ j ∈ o.writes, j ∉ B
  lt : ∀ j ∈ o.writes, j < n

theorem OpPlan.resetOp {o : BGPOp T} (h : OpPlan n B o) : OpPlan n B (o.resetOp ops) :=
  ⟨by simpa using h.shape, by simpa using h.reads, by simpa using h.fresh, by simpa using h.lt⟩

theorem OpPlan.of_resetOp {o o' : BGPOp T} (h : OpPlan n B o) (he : o'.resetOp ops = o.resetOp ops) : OpPlan n B o' := by
  refine ⟨?_, ?_, ?_, ?_⟩
  · rw [← BGPOp.shape_resetOp ops, he, BGPOp.shape_resetOp]
    exact h.shape
  · rw [← BGPOp.reads_resetOp ops, he, BGPOp.reads_resetOp]
    exact h.reads
  · rw [← BGPOp.writes_resetOp ops, he, BGPOp.writes_resetOp]
    exact h.fresh
  · rw [← BGPOp.writes_resetOp ops, he, BGPOp.writes_resetOp]
    exact h.lt

/-- Agreeing with a row where a position was set. -/
theorem agree_set {pos : ℕ} {v : UInt64} {x : Row} (hr : r.length = n) (hlt : pos < n) (hB : pos ∉ B) :
    Agree n (pos :: B) (r.set pos v) x ↔ Agree n B r x ∧ x.val pos = v := by
  have hval : ∀ j, Row.val (r.set pos v) j = if j = pos then v else r.val j :=
    fun j => Row.val_set r pos j v (by omega)
  constructor
  · intro h
    refine ⟨⟨hr, h.length', fun j hj => ?_⟩, ?_⟩
    · have := h.val j (List.mem_cons_of_mem _ hj)
      rwa [hval, if_neg (by rintro rfl; exact hB hj)] at this
    · have := h.val pos List.mem_cons_self
      rw [hval, if_pos rfl] at this
      exact this.symm
  · rintro ⟨h, hx⟩
    refine ⟨by simpa using hr, h.length', fun j hj => ?_⟩
    rw [hval]
    split
    · rename_i hjp
      rw [hjp, hx]
    · rename_i hjp
      exact h.val j ((List.mem_cons.1 hj).resolve_left hjp)

/-- A position that is set twice has the last value. -/
theorem agree_set_twice {pos : ℕ} {v w : UInt64} {x : Row} (hr : r.length = n) (hlt : pos < n) (hB : pos ∉ B) :
    Agree n (pos :: pos :: B) ((r.set pos v).set pos w) x ↔ Agree n B r x ∧ x.val pos = w := by
  rw [List.set_set, ← agree_set hr hlt hB]
  constructor
  · exact fun h => ⟨h.length, h.length', fun j hj => h.val j (List.mem_cons_of_mem _ hj)⟩
  · exact fun h => ⟨h.length, h.length', fun j hj => h.val j (by simpa using hj)⟩

/-- The points a band scanner visits, by the value they vary in. -/
theorem mem_scan_band (hl : ops.Lawful) (t : T) (b : UInt64) (bt : BandType) (x : Point) :
    x ∈ K2TreeScanner.scan ops t (.band b bt) ↔ ∃ v, x = bandPoint bt b v ∧ ops.has t (bandPoint bt b v) = true := by
  simp only [K2TreeScanner.scan, List.mem_map, hl.mem_bandScan]
  constructor
  · rintro ⟨v, hv, rfl⟩
    exact ⟨v, rfl, hv⟩
  · rintro ⟨v, rfl, hv⟩
    exact ⟨v, hv, rfl⟩

namespace OpPlan

variable {o : BGPOp T} (h : OpPlan n B o)
include h

/-- What was written does not change. -/
theorem put_keeps (k : Point) (hr : r.length = n) : Agree n B r (o.put r k) := by
  have hset : ∀ (pos : ℕ) (v : UInt64) (r : Row), pos < n → pos ∉ B → r.length = n → Agree n B r (r.set pos v) := by
    intro pos v r hlt hB hr
    exact ((agree_set hr hlt hB).1 (Agree.refl (by simpa using hr))).1
  cases o with
  | twoVarIntersection s sp op => exact Agree.refl hr
  | twoVarJoinOne wv s sp op b v =>
    exact hset _ _ _ (h.lt _ List.mem_cons_self) (h.fresh _ List.mem_cons_self) hr
  | twoVarCProduct s sp op =>
    have h1 := hset sp k.1 r (h.lt _ (by simp [BGPOp.writes])) (h.fresh _ (by simp [BGPOp.writes])) hr
    have h2 := hset op k.2 (r.set sp k.1) (h.lt _ (by simp [BGPOp.writes])) (h.fresh _ (by simp [BGPOp.writes]))
      h1.length'
    exact ⟨hr, h2.length', fun j hj => (h1.val j hj).trans (h2.val j hj)⟩
  | oneVarIntersect wv s pos => exact Agree.refl hr
  | oneVarCP wv s pos => exact hset _ _ _ (h.lt _ List.mem_cons_self) (h.fresh _ List.mem_cons_self) hr
  | tripleExistence s a b => exact Agree.refl hr

/-- The choices depend on what was written. -/
theorem choices_congr (hr : Agree n B r r') : o.choices ops r = o.choices ops r' := by
  have hval : ∀ j ∈ o.reads, r.val j = r'.val j := fun j hj => hr.val j (h.reads j hj)
  cases o with
  | twoVarIntersection s sp op =>
    simp only [BGPOp.choices, BGPOp.check, hval sp (by simp [BGPOp.reads]), hval op (by simp [BGPOp.reads])]
  | twoVarJoinOne wv s sp op b v => simp only [BGPOp.choices, hval _ List.mem_cons_self]
  | twoVarCProduct s sp op => rfl
  | oneVarIntersect wv s pos => simp only [BGPOp.choices, BGPOp.check, hval pos (by simp [BGPOp.reads])]
  | oneVarCP wv s pos => rfl
  | tripleExistence s a b => rfl

/-- So do those that are left. -/
theorem left_congr (hr : Agree n B r r') : o.left ops r = o.left ops r' := by
  have hc : o.choices ops r = o.choices ops r' := h.choices_congr hr
  cases o with
  | twoVarJoinOne wv s sp op b v =>
    cases b with
    | none => exact hc
    | some band => rfl
  | twoVarCProduct s sp op => rfl
  | oneVarCP wv s pos => rfl
  | twoVarIntersection s sp op => exact hc
  | oneVarIntersect wv s pos => exact hc
  | tripleExistence s a b => exact hc

theorem bandOk_congr (hr : Agree n B r r') (hb : o.BandOk r) : o.BandOk r' := by
  cases o with
  | twoVarJoinOne wv s sp op b v =>
    cases b with
    | none => trivial
    | some band => exact Eq.trans hb (hr.val _ (h.reads _ List.mem_cons_self))
  | _ => trivial

/-- **The rows a choice leads to** are those that agree with the row and that the pattern
wants. -/
theorem mem_choices (hl : ops.Lawful) (hr : r.length = n) (x : Row) :
    (∃ k ∈ o.choices ops r, Agree n (o.writes ++ B) (o.put r k) x) ↔ Agree n B r x ∧ o.check ops x = true := by
  -- an operator that only tests the row
  have htest : o.writes = [] → (∀ k, o.put r k = r) → o.choices ops r = BGPOp.guardChoice (o.check ops r) →
      (∀ x, Agree n B r x → o.check ops r = o.check ops x) →
      ((∃ k ∈ o.choices ops r, Agree n (o.writes ++ B) (o.put r k) x) ↔ Agree n B r x ∧ o.check ops x = true) := by
    intro hw hp hc hcheck
    rw [hw, hc, List.nil_append]
    simp only [hp]
    constructor
    · rintro ⟨k, hk, hx⟩
      rw [← hcheck x hx]
      refine ⟨hx, ?_⟩
      by_contra hn
      simp [BGPOp.guardChoice, hn] at hk
    · rintro ⟨hx, hc⟩
      rw [← hcheck x hx] at hc
      exact ⟨(0, 0), by simp [BGPOp.guardChoice, hc], hx⟩
  have hval : ∀ x, Agree n B r x → ∀ j ∈ o.reads, r.val j = x.val j := fun x hx j hj => hx.val j (h.reads j hj)
  cases o with
  | twoVarIntersection s sp op =>
    refine htest rfl (fun _ => rfl) rfl fun x hx => ?_
    simp only [BGPOp.check, hval x hx sp (by simp [BGPOp.reads]), hval x hx op (by simp [BGPOp.reads])]
  | twoVarJoinOne wv s sp op b v =>
    have hpos := h.lt (BGPOp.setPos wv sp op) List.mem_cons_self
    have hfresh := h.fresh (BGPOp.setPos wv sp op) List.mem_cons_self
    simp only [BGPOp.writes, List.singleton_append, BGPOp.put, agree_set hr hpos hfresh, BGPOp.choices,
      mem_scan_band hl, BGPOp.check]
    constructor
    · rintro ⟨k, ⟨u, rfl, hu⟩, hx, hset⟩
      refine ⟨hx, ?_⟩
      rw [hval x hx _ List.mem_cons_self] at hu hset
      cases wv with
      | subjectVar =>
        simp only [BGPOp.setPos, BGPOp.setValue, BGPOp.joinPos, BGPOp.joinBandType, bandPoint] at hu hset
        rw [hset]
        exact hu
      | objectVar =>
        simp only [BGPOp.setPos, BGPOp.setValue, BGPOp.joinPos, BGPOp.joinBandType, bandPoint] at hu hset
        rw [hset]
        exact hu
    · rintro ⟨hx, hc⟩
      rw [hval x hx _ List.mem_cons_self]
      cases wv with
      | subjectVar => exact ⟨(x.val sp, x.val op), ⟨x.val op, rfl, hc⟩, hx, rfl⟩
      | objectVar => exact ⟨(x.val sp, x.val op), ⟨x.val sp, rfl, hc⟩, hx, rfl⟩
  | twoVarCProduct s sp op =>
    have hkind : s.kind = .full := h.shape
    have h1 := h.lt sp (by simp [BGPOp.writes])
    have h2 := h.lt op (by simp [BGPOp.writes])
    have h3 := h.fresh sp (by simp [BGPOp.writes])
    by_cases hne : sp = op
    · subst hne
      simp only [BGPOp.writes, List.cons_append, List.nil_append, BGPOp.put, agree_set_twice hr h1 h3, BGPOp.choices, hkind,
        K2TreeScanner.scan, BGPOp.check, if_true, List.any_eq_true, decide_eq_true_eq]
      constructor
      · rintro ⟨k, hk, hx, hobj⟩
        exact ⟨hx, k, hk, hobj.symm⟩
      · rintro ⟨hx, k, hk, hobj⟩
        exact ⟨k, hk, hx, hobj.symm⟩
    have h4 : op ∉ sp :: B := by
      rw [List.mem_cons, not_or]
      exact ⟨Ne.symm hne, h.fresh op (by simp [BGPOp.writes])⟩
    have hset : ∀ k : Point, Agree n (op :: sp :: B) ((r.set sp k.1).set op k.2) x ↔
        (Agree n B r x ∧ x.val sp = k.1) ∧ x.val op = k.2 := fun k => by
      rw [agree_set (by simpa using hr) h2 h4, agree_set hr h1 h3]
    simp only [BGPOp.writes, List.cons_append, List.nil_append, BGPOp.put, hset, BGPOp.choices, hkind,
      K2TreeScanner.scan, hl.mem_fullScan, BGPOp.check, hne, if_false]
    constructor
    · rintro ⟨k, hk, ⟨hx, hsub⟩, hobj⟩
      rw [hsub, hobj]
      exact ⟨hx, hk⟩
    · rintro ⟨hx, hc⟩
      exact ⟨(x.val sp, x.val op), hc, ⟨hx, rfl⟩, rfl⟩
  | oneVarIntersect wv s pos =>
    refine htest rfl (fun _ => rfl) rfl fun x hx => ?_
    simp only [BGPOp.check, hval x hx pos (by simp [BGPOp.reads])]
  | oneVarCP wv s pos =>
    obtain ⟨b, hkind⟩ := h.shape
    have hpos := h.lt pos List.mem_cons_self
    have hfresh := h.fresh pos List.mem_cons_self
    simp only [BGPOp.writes, List.singleton_append, BGPOp.put, agree_set hr hpos hfresh, BGPOp.choices, hkind,
      mem_scan_band hl, BGPOp.check, K2TreeScanner.getBandValue]
    constructor
    · rintro ⟨k, ⟨u, rfl, hu⟩, hx, hset⟩
      refine ⟨hx, ?_⟩
      rw [hset]
      cases wv with
      | subjectVar => exact hu
      | objectVar => exact hu
    · rintro ⟨hx, hc⟩
      cases wv with
      | subjectVar => exact ⟨(x.val pos, b), ⟨x.val pos, rfl, hc⟩, hx, rfl⟩
      | objectVar => exact ⟨(b, x.val pos), ⟨x.val pos, rfl, hc⟩, hx, rfl⟩
  | tripleExistence s a b => exact htest rfl (fun _ => rfl) rfl fun x hx => rfl

theorem put_congr (k : Point) (hr : Agree n B r r') : Agree n (o.writes ++ B) (o.put r k) (o.put r' k) := by
  have hset : ∀ (B : List ℕ) (r r' : Row) (pos : ℕ) (v : UInt64), Agree n B r r' → pos < n → pos ∉ B →
      Agree n (pos :: B) (r.set pos v) (r'.set pos v) := by
    intro B r r' pos v hr hlt hB
    have hself : Agree n (pos :: B) (r'.set pos v) (r'.set pos v) := Agree.refl (by simpa using hr.length')
    have hx := (agree_set hr.length' hlt hB).1 hself
    refine (agree_set hr.length hlt hB).2 ⟨⟨hr.length, hx.1.length', fun j hj => ?_⟩, hx.2⟩
    exact (hr.val j hj).trans (hx.1.val j hj)
  cases o with
  | twoVarJoinOne wv s sp op b v =>
    exact hset _ _ _ _ _ hr (h.lt _ List.mem_cons_self) (h.fresh _ List.mem_cons_self)
  | twoVarCProduct s sp op =>
    have hlt := h.lt sp (by simp [BGPOp.writes])
    have hB := h.fresh sp (by simp [BGPOp.writes])
    have h1 := hset _ _ _ sp k.1 hr hlt hB
    by_cases hne : sp = op
    · subst hne
      have hself : Agree n (sp :: sp :: B) ((r'.set sp k.1).set sp k.2) ((r'.set sp k.1).set sp k.2) :=
        Agree.refl (by simpa using hr.length')
      have hx := (agree_set_twice hr.length' hlt hB).1 hself
      refine (agree_set_twice hr.length hlt hB).2 ⟨⟨hr.length, hx.1.length', fun j hj => ?_⟩, hx.2⟩
      exact (hr.val j hj).trans (hx.1.val j hj)
    have h2 : op ∉ sp :: B := by
      rw [List.mem_cons, not_or]
      exact ⟨Ne.symm hne, h.fresh _ (by simp [BGPOp.writes])⟩
    exact hset _ _ _ op k.2 h1 (h.lt _ (by simp [BGPOp.writes])) h2
  | oneVarCP wv s pos => exact hset _ _ _ _ _ hr (h.lt _ List.mem_cons_self) (h.fresh _ List.mem_cons_self)
  | twoVarIntersection s sp op => exact hr
  | oneVarIntersect wv s pos => exact hr
  | tripleExistence s a b => exact hr

/-- Different choices lead to different rows, if both components are kept. -/
theorem choices_apart (hl : ops.Lawful) (hboth : o.KeepsBoth) (hr : r.length = n) : (o.choices ops r).Pairwise fun k k' =>
    ∀ x, Agree n (o.writes ++ B) (o.put r k) x → ¬ Agree n (o.writes ++ B) (o.put r k') x := by
  have hguard : ∀ (b : Bool) (R : Point → Point → Prop), (BGPOp.guardChoice b).Pairwise R := by
    intro b R
    cases b <;> simp [BGPOp.guardChoice]
  -- an operator that sets one position to a value that varies along the band
  have hband : ∀ (t : T) (b : UInt64) (bt : BandType) (pos : ℕ) (f : Point → UInt64), pos < n → pos ∉ B →
      (∀ u, f (bandPoint bt b u) = u) → (K2TreeScanner.scan ops t (.band b bt)).Pairwise fun k k' =>
        ∀ x, Agree n (pos :: B) (r.set pos (f k)) x → ¬ Agree n (pos :: B) (r.set pos (f k')) x := by
    intro t b bt pos f hlt hB hf
    rw [K2TreeScanner.scan, List.pairwise_map]
    refine (hl.nodup_bandScan t bt b).imp fun {u u'} hne x hx hx' => hne ?_
    have h1 := ((agree_set hr hlt hB).1 hx).2
    have h2 := ((agree_set hr hlt hB).1 hx').2
    rw [hf] at h1 h2
    exact h1.symm.trans h2
  cases o with
  | twoVarJoinOne wv s sp op b v =>
    refine hband _ _ _ _ _ (h.lt _ List.mem_cons_self) (h.fresh _ List.mem_cons_self) fun u => ?_
    cases wv <;> rfl
  | twoVarCProduct s sp op =>
    have hkind : s.kind = .full := h.shape
    have h3 := h.fresh sp (by simp [BGPOp.writes])
    have h4 : op ∉ sp :: B := by
      rw [List.mem_cons, not_or]
      exact ⟨Ne.symm hboth, h.fresh op (by simp [BGPOp.writes])⟩
    have hset : ∀ (k : Point) (x : Row), Agree n (op :: sp :: B) ((r.set sp k.1).set op k.2) x →
        x.val sp = k.1 ∧ x.val op = k.2 := by
      intro k x hx
      rw [agree_set (by simpa using hr) (h.lt op (by simp [BGPOp.writes])) h4,
        agree_set hr (h.lt sp (by simp [BGPOp.writes])) h3] at hx
      exact ⟨hx.1.2, hx.2⟩
    simp only [BGPOp.choices, hkind, K2TreeScanner.scan]
    refine (hl.nodup_fullScan s.tree).imp fun {k k'} hkk x hx hx' => hkk ?_
    exact Prod.ext ((hset k x hx).1.symm.trans (hset k' x hx').1) ((hset k x hx).2.symm.trans (hset k' x hx').2)
  | oneVarCP wv s pos =>
    obtain ⟨b, hkind⟩ := h.shape
    simp only [BGPOp.choices, hkind]
    refine hband _ _ _ _ _ (h.lt _ List.mem_cons_self) (h.fresh _ List.mem_cons_self) fun u => ?_
    cases wv <;> rfl
  | twoVarIntersection s sp op => exact hguard _ _
  | oneVarIntersect wv s pos => exact hguard _ _
  | tripleExistence s a b => exact hguard _ _

/-- **An operator is a level** between what is written before it and after it. -/
theorem between (hl : ops.Lawful) : (o.level ops).Between (Agree n B) (Agree n (o.writes ++ B)) where
  weaken hr := ⟨hr.length, hr.length', fun j hj => hr.val j (List.mem_append_right _ hj)⟩
  choices_congr hr := h.choices_congr hr
  put_congr k hr := h.put_congr k hr
  put_keeps k hr := h.put_keeps k hr.length
  mem x hr := h.mem_choices hl hr.length x

theorem apart (hl : ops.Lawful) (hboth : o.KeepsBoth) : (o.level ops).Apart (Agree n B) (Agree n (o.writes ++ B)) :=
  fun hr => h.choices_apart hl hboth hr.length

end OpPlan

/-! ## One run of an operator -/

namespace K2TreeScanner

variable {s : K2TreeScanner T} {x : Point} {xs : List Point}

theorem hasNext_nil (h : s.ahead = []) : s.hasNext = false := by simp [hasNext, h]

theorem hasNext_cons (h : s.ahead = x :: xs) : s.hasNext = true := by simp [hasNext, h]

theorem next_cons (h : s.ahead = x :: xs) : s.next = (x, { s with ahead := xs }) := by simp [next, h]

/-- A scanner that is done has nothing ahead. -/
theorem ahead_of_done (s : K2TreeScanner T) : (if !s.hasNext then [] else s.ahead) = s.ahead := by
  cases h : s.ahead with
  | nil => simp
  | cons x xs => simp [hasNext_cons h]

end K2TreeScanner

namespace BGPOp

/-- What a run of an operator may do. -/
structure RunsTo (ops : TreeOps T) (o : BGPOp T) (row : Row) (ran : Ran T) : Prop where
  clock : ran.timeControl.NeverExpires
  same : ran.op.resetOp ops = o.resetOp ops
  bandOk : ran.op.BandOk ran.row
  /-- Nothing is left, or the next choice is taken. -/
  choice : (o.left ops row = [] ∧ ran.result = ⟨true, false⟩ ∧ ran.row = row) ∨
    ∃ k ks, o.left ops row = k :: ks ∧ ran.result.validValue = true ∧ ran.row = o.put row k ∧
      (if ran.result.scanDone then [] else ran.op.left ops ran.row) = ks

/-- An operator that tests the row. -/
theorem runsTo_test {o : BGPOp T} {c : TimeControl} {row : Row} (hc : c.NeverExpires)
    (hleft : o.left ops row = guardChoice (o.check ops row)) (hput : ∀ k, o.put row k = row) (hb : o.BandOk row) :
    RunsTo ops o row ⟨⟨true, o.check ops row⟩, c, row, o⟩ := by
  refine ⟨hc, rfl, hb, ?_⟩
  cases h : o.check ops row with
  | false => exact .inl ⟨by rw [hleft, h]; rfl, rfl, rfl⟩
  | true => exact .inr ⟨(0, 0), [], by rw [hleft, h]; rfl, rfl, (hput _).symm, rfl⟩

/-- The scanner of a band, in front of the values that are left. -/
theorem runBand_spec (band : K2TreeScanner T) {wv : Vars} {s : K2TreeScanner T} {sp op : ℕ} {v : UInt64} {c : TimeControl} {row : Row}
    {o : BGPOp T} (hc : c.NeverExpires) (hne : sp ≠ op) (hv : v = row.val (joinPos wv sp op))
    (hreset : o.resetOp ops = .twoVarJoinOne wv s sp op none 0) (hleft : o.left ops row = band.ahead)
    (hput : ∀ k, o.put row k = row.set (setPos wv sp op) (setValue wv k)) :
    RunsTo ops o row (runBand wv s sp op band v c row) := by
  obtain ⟨ht, hc'⟩ := hc.tick
  cases hb : band.ahead with
  | nil =>
    rw [runBand, K2TreeScanner.hasNext_nil hb]
    exact ⟨hc, hreset.symm, hv, .inl ⟨hleft.trans hb, rfl, rfl⟩⟩
  | cons x xs =>
    have hrun : runBand wv s sp op band v c row = ⟨⟨!({ band with ahead := xs } : K2TreeScanner T).hasNext, true⟩,
        c.tick.2, row.set (setPos wv sp op) (setValue wv x),
        .twoVarJoinOne wv s sp op (some { band with ahead := xs }) v⟩ := by
      simp [runBand, K2TreeScanner.hasNext_cons hb, K2TreeScanner.next_cons hb, ht]
    rw [hrun]
    refine ⟨hc', hreset.symm, ?_, .inr ⟨x, xs, hleft.trans hb, rfl, (hput x).symm, ?_⟩⟩
    · -- the position that is joined is not the one that is set
      have hj : joinPos wv sp op ≠ setPos wv sp op := by
        cases wv
        · exact hne
        · exact hne.symm
      exact hv.trans (Row.val_set_ne row _ hj).symm
    · exact K2TreeScanner.ahead_of_done { band with ahead := xs }

/-- **`run`**. -/
theorem run_spec (ops : TreeOps T) {o : BGPOp T} {c : TimeControl} {row : Row} (hc : c.NeverExpires) (hs : o.Shape)
    (hb : o.BandOk row) : ∃ ran, o.run ops c row = .ok ran ∧ RunsTo ops o row ran := by
  obtain ⟨ht, hc₁⟩ := hc.tick
  obtain ⟨ht₂, hc₂⟩ := hc₁.tick
  cases o with
  | twoVarIntersection s sp op =>
    refine ⟨_, ?_, runsTo_test hc₁ rfl (fun _ => rfl) hb⟩
    rw [run, ht]
    cases hh : ops.has s.tree (row.val sp, row.val op) <;> simp [hh, check]
  | twoVarJoinOne wv s sp op band v =>
    cases band with
    | none =>
      refine ⟨_, ?_, runBand_spec (.create ops s.tree (.band (row.val (joinPos wv sp op)) (joinBandType wv)))
        hc₁ hs rfl rfl rfl (fun _ => rfl)⟩
      rw [run, ht]
      rfl
    | some band =>
      refine ⟨_, ?_, runBand_spec band hc₁ hs hb rfl rfl (fun _ => rfl)⟩
      have hband : v = row.val (joinPos wv sp op) := hb
      rw [run, ht]
      simp [hband]
  | twoVarCProduct s sp op =>
    cases ha : s.ahead with
    | nil =>
      refine ⟨⟨⟨true, false⟩, c.tick.2, row, .twoVarCProduct s sp op⟩, ?_, hc₁, rfl, trivial, .inl ⟨ha, rfl, rfl⟩⟩
      rw [run, ht]
      simp [K2TreeScanner.hasNext_nil ha]
    | cons x xs =>
      refine ⟨⟨⟨!({ s with ahead := xs } : K2TreeScanner T).hasNext, true⟩, c.tick.2.tick.2,
        (row.set sp x.1).set op x.2, .twoVarCProduct { s with ahead := xs } sp op⟩, ?_, hc₂, rfl, trivial,
        .inr ⟨x, xs, ha, rfl, rfl, K2TreeScanner.ahead_of_done { s with ahead := xs }⟩⟩
      rw [run, ht]
      simp [K2TreeScanner.hasNext_cons ha, K2TreeScanner.next_cons ha, ht₂]
  | oneVarIntersect wv s pos =>
    obtain ⟨b, bt, hkind⟩ := hs
    refine ⟨_, ?_, runsTo_test hc₁ rfl (fun _ => rfl) hb⟩
    rw [run, ht]
    cases wv <;> simp [check, K2TreeScanner.getBandValue, hkind, place]
  | oneVarCP wv s pos =>
    cases ha : s.ahead with
    | nil =>
      refine ⟨⟨⟨true, false⟩, c.tick.2, row, .oneVarCP wv s pos⟩, ?_, hc₁, rfl, trivial, .inl ⟨ha, rfl, rfl⟩⟩
      rw [run, ht]
      simp [K2TreeScanner.hasNext_nil ha]
    | cons x xs =>
      refine ⟨⟨⟨!({ s with ahead := xs } : K2TreeScanner T).hasNext, true⟩, c.tick.2.tick.2,
        row.set pos (wv.pick x), .oneVarCP wv { s with ahead := xs } pos⟩, ?_, hc₂, rfl, trivial,
        .inr ⟨x, xs, ha, rfl, rfl, K2TreeScanner.ahead_of_done { s with ahead := xs }⟩⟩
      rw [run, ht]
      simp [K2TreeScanner.hasNext_cons ha, K2TreeScanner.next_cons ha, ht₂]
  | tripleExistence s a b =>
    refine ⟨_, ?_, runsTo_test hc₁ rfl (fun _ => rfl) hb⟩
    rw [run, ht]
    rfl

end BGPOp

end K2Cache
