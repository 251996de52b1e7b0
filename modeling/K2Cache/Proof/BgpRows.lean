import K2Cache.Proof.BgpRun
import K2Cache.Spec.BgpProcessor
import K2Cache.Spec.PointTree

/-!
# The rows of a basic graph pattern

The processor gives every variable of the patterns a position of the row, and picks for
each pattern the operator that reads the positions bound before and writes the others
(`createBgpOp_spec`). So the search of the iterator finds the assignments that satisfy
every pattern, each once (`executeIt_rows`).
-/

namespace K2Cache

open Lib

variable {T : Type} {ops : TreeOps T}

/-! ## Numbering the variables -/

/-- Every variable has a number of its own, which is not zero. -/
structure VarIndexManager.Valid (vim : VarIndexManager) : Prop where
  pos : ∀ x i, vim.varIndexes.find? x = some i → 0 < i
  lt : ∀ x i, vim.varIndexes.find? x = some i → i < vim.currentIndex
  inj : ∀ x y i, vim.varIndexes.find? x = some i → vim.varIndexes.find? y = some i → x = y
  current : 0 < vim.currentIndex

theorem VarIndexManager.construct_valid : VarIndexManager.construct.Valid := by
  refine ⟨fun x i h => ?_, fun x i h => ?_, fun x y i h => ?_, Nat.one_pos⟩
  · simp [construct] at h
  · simp [construct] at h
  · simp [construct] at h

/-- What `assign_index_if_not_found` leaves. -/
theorem VarIndexManager.assign_spec {vim : VarIndexManager} (h : vim.Valid) (x : String) :
    (vim.assignIndexIfNotFound x).2.Valid ∧
    (vim.assignIndexIfNotFound x).2.varIndexes.find? x = some (vim.assignIndexIfNotFound x).1 ∧
    ∀ y i, vim.varIndexes.find? y = some i → (vim.assignIndexIfNotFound x).2.varIndexes.find? y = some i := by
  unfold assignIndexIfNotFound
  cases hx : vim.varIndexes.find? x with
  | some i => exact ⟨h, hx, fun y i hy => hy⟩
  | none =>
    have hfind : ∀ y i, (vim.varIndexes.insert x vim.currentIndex).find? y = some i →
        (y = x ∧ i = vim.currentIndex) ∨ (y ≠ x ∧ vim.varIndexes.find? y = some i) := by
      intro y i hy
      rw [OrdMap.find?_insert] at hy
      split at hy
      · rename_i hyx
        exact .inl ⟨hyx, (Option.some.inj hy).symm⟩
      · rename_i hyx
        exact .inr ⟨hyx, hy⟩
    refine ⟨⟨fun y i hy => ?_, fun y i hy => ?_, fun y z i hy hz => ?_, Nat.succ_pos _⟩, by simp, fun y i hy => ?_⟩
    · rcases hfind y i hy with ⟨-, rfl⟩ | ⟨-, hy⟩
      · exact h.current
      · exact h.pos y i hy
    · show i < vim.currentIndex + 1
      rcases hfind y i hy with ⟨-, rfl⟩ | ⟨-, hy⟩
      · exact Nat.lt_succ_self _
      · exact (h.lt y i hy).trans (Nat.lt_succ_self _)
    · rcases hfind y i hy with ⟨hyx, hi⟩ | ⟨-, hy'⟩ <;> rcases hfind z i hz with ⟨hzx, hi'⟩ | ⟨-, hz'⟩
      · exact hyx.trans hzx.symm
      · exact absurd (h.lt z i hz') (by omega)
      · exact absurd (h.lt y i hy') (by omega)
      · exact h.inj y z i hy' hz'
    · show (vim.varIndexes.insert x vim.currentIndex).find? y = some i
      rw [OrdMap.find?_insert_ne _ _ (by rintro rfl; rw [hx] at hy; simp at hy)]
      exact hy

/-- A number leads back to its variable. -/
theorem VarIndexManager.Valid.reverse {vim : VarIndexManager} (h : vim.Valid) {x : String} {i : ℕ}
    (hx : vim.varIndexes.find? x = some i) : vim.reverse.find? i = some x := by
  have hmem : ∀ y, (i, y) ∈ vim.varIndexes.entries.map Prod.swap ↔ vim.varIndexes.find? y = some i := by
    intro y
    rw [OrdMap.find?_eq_some, List.mem_map]
    constructor
    · rintro ⟨⟨y', i'⟩, hm, heq⟩
      obtain ⟨rfl, rfl⟩ := Prod.mk.inj heq
      exact hm
    · intro hm
      exact ⟨(y, i), hm, rfl⟩
  exact OrdMap.find?_insertAll_of_unique _ ((hmem x).2 hx) fun y hy => h.inj y x i ((hmem y).1 hy) hx

/-! ## Headers -/

/-- The variables of a pattern. -/
def BGPTriple.vars (t : BGPTriple) : Set String :=
  {x | (t.subject.isConcrete = false ∧ t.subject.varName = x) ∨ (t.object.isConcrete = false ∧ t.object.varName = x)}

/-- The variables of some patterns. -/
def patternVars (patterns : List BGPTriple) : Set String := {x | ∃ t ∈ patterns, x ∈ t.vars}

/-- The headers are the numbers of these variables. -/
structure Headers.Of (h : Headers) (V : Set String) : Prop where
  valid : h.vim.Valid
  known : ∀ x ∈ V, ∃ i, h.vim.varIndexes.find? x = some i ∧ i ∈ h.headerVec
  headers : ∀ i ∈ h.headerVec, ∃ x ∈ V, h.vim.varIndexes.find? x = some i

theorem Headers.mem_headerVec (h : Headers) (i : ℕ) : i ∈ h.headerVec ↔ h.headerValues.contains i = true := by
  rw [headerVec, OrdMap.mem_keys, OrdMap.contains_iff]

/-- Numbering one more variable changes no header. -/
theorem Headers.Of.assign {h : Headers} {V : Set String} (hv : h.Of V) (x : String) :
    Headers.Of ⟨(h.vim.assignIndexIfNotFound x).2, h.headerValues⟩ V := by
  obtain ⟨h1, -, h3⟩ := VarIndexManager.assign_spec hv.valid x
  refine ⟨h1, fun y hy => ?_, fun i hi => ?_⟩
  · obtain ⟨i, hi, hm⟩ := hv.known y hy
    exact ⟨i, h3 y i hi, hm⟩
  · obtain ⟨y, hy, hi'⟩ := hv.headers i hi
    exact ⟨y, hy, h3 y i hi'⟩

theorem Headers.Of.addVariable {h : Headers} {V : Set String} (hv : h.Of V) (n : BGPNode) :
    (h.addVariable n).Of (insert n.varName V) := by
  obtain ⟨h1, h2, h3⟩ := VarIndexManager.assign_spec hv.valid n.varName
  have hne : (h.vim.assignIndexIfNotFound n.varName).1 ≠ 0 := (h1.pos _ _ h2).ne'
  have hmem : ∀ i, i ∈ (h.addVariable n).headerVec ↔
      i = (h.vim.assignIndexIfNotFound n.varName).1 ∨ i ∈ h.headerVec := by
    intro i
    rw [mem_headerVec, mem_headerVec]
    simp only [Headers.addVariable, if_pos hne, OrdMap.contains, OrdMap.find?_insert]
    by_cases hi : i = (h.vim.assignIndexIfNotFound n.varName).1
    · simp [hi]
    · simp [hi]
  refine ⟨h1, fun y hy => ?_, fun i hi => ?_⟩
  · rcases Set.mem_insert_iff.1 hy with rfl | hy
    · exact ⟨_, h2, (hmem _).2 (.inl rfl)⟩
    · obtain ⟨i, hi, hm⟩ := hv.known y hy
      exact ⟨i, h3 y i hi, (hmem i).2 (.inr hm)⟩
  · rcases (hmem i).1 hi with rfl | hi
    · exact ⟨n.varName, Set.mem_insert _ _, h2⟩
    · obtain ⟨y, hy, hi'⟩ := hv.headers i hi
      exact ⟨y, Set.mem_insert_of_mem _ hy, h3 y i hi'⟩

theorem Headers.Of.congr {h : Headers} {V W : Set String} (hv : h.Of V) (hVW : ∀ x, x ∈ V ↔ x ∈ W) : h.Of W := by
  obtain rfl : V = W := Set.ext hVW
  exact hv

theorem Headers.Of.addTriple {h : Headers} {V : Set String} (hv : h.Of V) (t : BGPTriple) :
    (h.addTriple t).Of (V ∪ t.vars) := by
  unfold Headers.addTriple
  cases hs : t.subject.isConcrete <;> cases ho : t.object.isConcrete <;>
    simp only [Bool.false_eq_true, if_false, if_true]
  · refine (((hv.assign t.subject.varName).assign t.object.varName).addVariable t.subject
      |>.addVariable t.object).congr fun x => ?_
    simp only [BGPTriple.vars, hs, ho, Set.mem_union, Set.mem_insert_iff, Set.mem_ofPred_eq, true_and]
    tauto
  · refine ((hv.assign t.subject.varName).addVariable t.subject).congr fun x => ?_
    simp only [BGPTriple.vars, hs, ho, Set.mem_union, Set.mem_insert_iff, Set.mem_ofPred_eq]
    tauto
  · refine ((hv.assign t.object.varName).addVariable t.object).congr fun x => ?_
    simp only [BGPTriple.vars, hs, ho, Set.mem_union, Set.mem_insert_iff, Set.mem_ofPred_eq]
    tauto
  · refine hv.congr fun x => ?_
    simp [BGPTriple.vars, hs, ho]

/-- **`find_headers`**. -/
theorem findHeaders_of {vim : VarIndexManager} (hv : vim.Valid) (patterns : List BGPTriple) :
    (findHeaders vim patterns).Of (patternVars patterns) := by
  have key : ∀ (ts : List BGPTriple) (h : Headers) (V : Set String), h.Of V →
      (ts.foldl Headers.addTriple h).Of (V ∪ patternVars ts) := by
    intro ts
    induction ts with
    | nil =>
      intro h V hV
      refine hV.congr fun x => ?_
      simp [patternVars]
    | cons t ts ih =>
      intro h V hV
      refine (ih _ _ (hV.addTriple t)).congr fun x => ?_
      simp only [patternVars, Set.mem_union, Set.mem_ofPred_eq, List.exists_mem_cons_iff]
      tauto
  have h0 : Headers.Of ⟨vim, ∅⟩ (∅ : Set String) :=
    ⟨hv, fun x hx => absurd hx (by simp), fun i hi => absurd hi (by rw [Headers.mem_headerVec]; simp [OrdMap.contains])⟩
  have := key patterns _ _ h0
  rwa [Set.empty_union] at this

/-! ## Positions -/

variable {h : Headers} {V : Set String}

/-- The position of a header. -/
theorem Headers.reverseMap_find (h : Headers) {i j : ℕ} (hj : h.headerVec[j]? = some i) :
    h.headerReverseMap.find? i = some j := by
  refine OrdMap.find?_insertAll_of_unique _ (List.mem_zipIdx_iff_getElem?.2 hj) fun j' hj' => ?_
  have hj'' : h.headerVec[j']? = some i := List.mem_zipIdx_iff_getElem?.1 hj'
  obtain ⟨hlt, -⟩ := List.getElem?_eq_some_iff.1 hj
  exact ((List.getElem?_inj hlt h.headerValues.keys_nodup).1 (hj.trans hj''.symm)).symm

/-- The position of a variable holds its number. -/
theorem Headers.Of.pos_spec (hv : h.Of V) {x : String} (hx : x ∈ V) :
    ∃ i, h.vim.varIndexes.find? x = some i ∧ h.headerVec[h.pos x]? = some i := by
  obtain ⟨i, hi, hm⟩ := hv.known x hx
  obtain ⟨j, hj⟩ := List.mem_iff_getElem?.1 hm
  refine ⟨i, hi, ?_⟩
  have hindex : h.vim.index x = i := by rw [VarIndexManager.index, hi, Option.getD_some]
  rw [Headers.pos, hindex, h.reverseMap_find hj, Option.getD_some]
  exact hj

theorem Headers.Of.pos_lt (hv : h.Of V) {x : String} (hx : x ∈ V) : h.pos x < h.headerVec.length := by
  obtain ⟨i, -, hi⟩ := hv.pos_spec hx
  exact (List.getElem?_eq_some_iff.1 hi).1

theorem Headers.Of.pos_inj (hv : h.Of V) {x y : String} (hx : x ∈ V) (hy : y ∈ V) (he : h.pos x = h.pos y) : x = y := by
  obtain ⟨i, hi, hi'⟩ := hv.pos_spec hx
  obtain ⟨j, hj, hj'⟩ := hv.pos_spec hy
  rw [he] at hi'
  obtain rfl : i = j := Option.some.inj (hi'.symm.trans hj')
  exact hv.valid.inj x y i hi hj

theorem Headers.Of.pos_surj (hv : h.Of V) {j : ℕ} (hj : j < h.headerVec.length) : ∃ x ∈ V, h.pos x = j := by
  obtain ⟨x, hx, hi⟩ := hv.headers _ (List.getElem_mem hj)
  refine ⟨x, hx, ?_⟩
  have hindex : h.vim.index x = h.headerVec[j] := by rw [VarIndexManager.index, hi, Option.getD_some]
  rw [Headers.pos, hindex, h.reverseMap_find (List.getElem?_eq_getElem hj), Option.getD_some]

/-- A name without an index has the first position. -/
theorem Headers.pos_lt_of_pos (h : Headers) (hpos : 0 < h.headerVec.length) (x : String) : h.pos x < h.headerVec.length := by
  rw [pos]
  cases hj : h.headerReverseMap.find? (h.vim.index x) with
  | none => exact hpos
  | some j =>
    rcases OrdMap.find?_insertAll_eq_some _ hj with hj' | hj'
    · rw [OrdMap.find?_empty] at hj'
      simp at hj'
    · exact (List.getElem?_eq_some_iff.1 (List.mem_zipIdx_iff_getElem?.1 hj')).1

/-- **The row of an assignment**: each header has the value of its variable. -/
def Headers.layout (h : Headers) (a : String → UInt64) : Row :=
  h.headerVec.map fun i => a ((h.vim.reverse.find? i).getD "")

theorem Headers.Of.val_layout (hv : h.Of V) (a : String → UInt64) {x : String} (hx : x ∈ V) :
    (h.layout a).val (h.pos x) = a x := by
  obtain ⟨i, hi, hi'⟩ := hv.pos_spec hx
  rw [Row.val, layout, List.getD_eq_getElem?_getD, List.getElem?_map, hi', Option.map_some, Option.getD_some,
    hv.valid.reverse hi, Option.getD_some]

theorem Row.val_eq_getElem {row : Row} {j : ℕ} (hj : j < row.length) : row.val j = row[j] :=
  List.getD_eq_getElem _ _ hj

/-- Every row of the right length is that of an assignment. -/
theorem Headers.Of.exists_layout (hv : h.Of V) {row : Row} (hr : row.length = h.headerVec.length) :
    ∃ a, h.layout a = row := by
  refine ⟨fun x => row.val (h.pos x), ?_⟩
  apply List.ext_getElem (by simp [layout, hr])
  intro j hj hj'
  obtain ⟨x, hx, rfl⟩ := hv.pos_surj (hr ▸ hj')
  have hval := hv.val_layout (fun x => row.val (h.pos x)) hx
  rwa [Row.val_eq_getElem hj, Row.val_eq_getElem hj'] at hval

/-- Rows are equal exactly if the assignments agree on the variables. -/
theorem Headers.Of.layout_inj (hv : h.Of V) (a b : String → UInt64) :
    h.layout a = h.layout b ↔ ∀ x ∈ V, a x = b x := by
  constructor
  · intro he x hx
    rw [← hv.val_layout a hx, he, hv.val_layout b hx]
  · intro hab
    unfold layout
    refine List.map_congr_left fun i hi => ?_
    obtain ⟨x, hx, hxi⟩ := hv.headers i hi
    rw [hv.valid.reverse hxi, Option.getD_some]
    exact hab x hx

/-! ## What the operators find -/

/-- The value of a node under an assignment of the variables. -/
def BGPNode.eval (a : String → UInt64) (n : BGPNode) : UInt64 := if n.isConcrete then n.cacheNodeId else a n.varName

/-- The pattern has one variable twice. -/
def BGPTriple.Repeats (t : BGPTriple) : Prop :=
  t.subject.isConcrete = false ∧ t.object.isConcrete = false ∧ t.subject.varName = t.object.varName

/-- **What is found for a pattern**, behind patterns with the variables `V`: subject and
object are a point of the tree, or, for a variable that is new and repeated, its value is an
object of any subject. -/
def Found (ops : TreeOps T) (tree : T) (V : Set String) (a : String → UInt64) (t : BGPTriple) : Prop :=
  (t.subject.eval a, t.object.eval a) ∈ ops.points tree ∨
    t.Repeats ∧ t.object.varName ∉ V ∧ ∃ s, (s, t.object.eval a) ∈ ops.points tree

/-- What is found for some patterns, one behind the other. -/
def AllFound (ops : TreeOps T) (fetch : UInt64 → Option T) (a : String → UInt64) : Set String → List BGPTriple → Prop
  | _, [] => True
  | V, t :: ts => (∃ tree, fetch t.predicate.cacheNodeId = some tree ∧ Found ops tree V a t) ∧
      AllFound ops fetch a (V ∪ t.vars) ts

/-! ## Operators of the patterns -/

/-- The counts of a position are positive once it is bound. -/
structure Counts (n : ℕ) (B : List ℕ) (ji : List ℤ) : Prop where
  length : ji.length = n
  pos : ∀ j < n, 0 < ji.getD j 0 ↔ j ∈ B
  nonneg : ∀ j < n, 0 ≤ ji.getD j 0

theorem bump_getD (ji : List ℤ) {pos : ℕ} (h : pos < ji.length) (j : ℕ) :
    (bump ji pos).getD j 0 = if j = pos then ji.getD pos 0 + 1 else ji.getD j 0 := by
  unfold bump
  rw [List.getD_eq_getElem?_getD, List.getElem?_set]
  by_cases hj : pos = j
  · subst hj
    simp [h]
  · rw [if_neg hj, if_neg (Ne.symm hj), List.getD_eq_getElem?_getD]

theorem Counts.bump {n : ℕ} {B B' : List ℕ} {ji : List ℤ} (h : Counts n B ji) {p : ℕ} (hp : p < n)
    (hB : ∀ j, j ∈ B' ↔ j = p ∨ j ∈ B) : Counts n B' (bump ji p) := by
  have hlen : p < ji.length := h.length ▸ hp
  refine ⟨by simpa [K2Cache.bump] using h.length, fun j hj => ?_, fun j hj => ?_⟩
  · rw [bump_getD ji hlen, hB]
    have h0 := h.nonneg p hp
    split
    · rename_i hjp
      simp only [hjp, true_or, iff_true]
      omega
    · rename_i hjp
      rw [h.pos j hj]
      simp [hjp]
  · rw [bump_getD ji hlen]
    have h0 := h.nonneg p hp
    have h1 := h.nonneg j hj
    split <;> omega

/-- The assignment of a row. -/
def rowValue (pos : String → ℕ) (row : Row) (x : String) : UInt64 := row.val (pos x)

/-- An operator for a pattern, behind the positions bound so far, and the counts after it. -/
structure OpFits (ops : TreeOps T) (n : ℕ) (B : List ℕ) (pos : String → ℕ) (t : BGPTriple) (tree : T)
    (r : BGPOp T × List ℤ) : Prop where
  plan : OpPlan n B r.1
  counts : Counts n (r.1.writes ++ B) r.2
  fresh : r.1.resetOp ops = r.1
  check : ∀ row, r.1.check ops row = true ↔ (t.subject.eval (rowValue pos row), t.object.eval (rowValue pos row)) ∈ ops.points tree ∨
    (t.subject.isConcrete = false ∧ t.object.isConcrete = false ∧ pos t.subject.varName = pos t.object.varName) ∧
      pos t.object.varName ∉ B ∧ ∃ s, (s, t.object.eval (rowValue pos row)) ∈ ops.points tree
  bound : ∀ j, j ∈ r.1.writes ++ B ↔ j ∈ B ∨ ∃ x ∈ t.vars, pos x = j
  both : (t.subject.isConcrete = false → t.object.isConcrete = false → pos t.subject.varName ≠ pos t.object.varName) →
    r.1.KeepsBoth

section CreateOp

variable {n : ℕ} {B : List ℕ} {ji : List ℤ} {t : BGPTriple} {pos : String → ℕ} (hl : ops.Lawful) (hj : Counts n B ji)
  (hlt : ∀ x ∈ t.vars, pos x < n) (tree : T)
include hl hj hlt

theorem createBgpOp_two (hsc : t.subject.isConcrete = false) (hoc : t.object.isConcrete = false) :
    OpFits ops n B pos t tree (createBgpOp (.create ops tree (scannerKind t)) t pos ji) := by
  have hkind : scannerKind t = .full := by simp [scannerKind, hsc, hoc]
  set sp := pos t.subject.varName with hsp
  set op := pos t.object.varName with hop
  have hsp_lt : sp < n := hlt _ (.inl ⟨hsc, rfl⟩)
  have hop_lt : op < n := hlt _ (.inr ⟨hoc, rfl⟩)
  have hcount : ∀ W : List ℕ, (∀ j, j ∈ W ++ B ↔ j = op ∨ j = sp ∨ j ∈ B) → Counts n (W ++ B) (bump (bump ji sp) op) := by
    intro W hW
    refine (hj.bump hsp_lt fun j => (List.mem_cons : j ∈ sp :: B ↔ _)).bump hop_lt fun j => ?_
    rw [hW, List.mem_cons]
  have hbound : ∀ W : List ℕ, (∀ j, j ∈ W ++ B ↔ j = op ∨ j = sp ∨ j ∈ B) →
      ∀ j, j ∈ W ++ B ↔ j ∈ B ∨ ∃ x ∈ t.vars, pos x = j := by
    intro W hW j
    rw [hW]
    constructor
    · rintro (rfl | rfl | h)
      · exact .inr ⟨_, .inr ⟨hoc, rfl⟩, rfl⟩
      · exact .inr ⟨_, .inl ⟨hsc, rfl⟩, rfl⟩
      · exact .inl h
    · rintro (h | ⟨x, ⟨-, rfl⟩ | ⟨-, rfl⟩, rfl⟩)
      · exact .inr (.inr h)
      · exact .inr (.inl rfl)
      · exact .inl rfl
  have heval : ∀ row : Row, t.subject.eval (rowValue pos row) = row.val sp ∧ t.object.eval (rowValue pos row) = row.val op := by
    intro row
    simp [BGPNode.eval, rowValue, hsc, hoc, ← hsp, ← hop]
  -- two positions that are read make a point
  have hcheck : sp ∈ B ∨ op ∈ B → ∀ row : Row, ops.has tree (row.val sp, row.val op) = true ↔
      (t.subject.eval (rowValue pos row), t.object.eval (rowValue pos row)) ∈ ops.points tree ∨
        (t.subject.isConcrete = false ∧ t.object.isConcrete = false ∧ sp = op) ∧
          op ∉ B ∧ ∃ s, (s, t.object.eval (rowValue pos row)) ∈ ops.points tree := by
    intro h row
    rw [(heval row).1, (heval row).2]
    refine ⟨.inl, ?_⟩
    rintro (h' | ⟨⟨-, -, heq⟩, hnot, -⟩)
    · exact h'
    · rw [heq] at h
      exact absurd (h.elim id id) hnot
  unfold createBgpOp
  simp only [hsc, hoc, Bool.not_false, ← hsp, ← hop, hj.pos sp hsp_lt, hj.pos op hop_lt]
  -- which of the two positions is bound decides the operator
  by_cases h1 : sp ∈ B <;> by_cases h2 : op ∈ B
  · have hW : ∀ j, j ∈ [] ++ B ↔ j = op ∨ j = sp ∨ j ∈ B := by
      intro j
      rw [List.nil_append]
      constructor
      · exact fun h => .inr (.inr h)
      · rintro (rfl | rfl | h) <;> assumption
    simp only [h1, h2, and_self, if_true]
    refine ⟨⟨trivial, ?_, by simp [BGPOp.writes], by simp [BGPOp.writes]⟩, hcount [] hW, rfl, hcheck (.inl h1),
      hbound [] hW, fun _ => trivial⟩
    simp [BGPOp.reads, h1, h2]
  · have hne : sp ≠ op := fun he => h2 (he ▸ h1)
    have hW : ∀ j, j ∈ [op] ++ B ↔ j = op ∨ j = sp ∨ j ∈ B := by
      intro j
      simp only [List.singleton_append, List.mem_cons]
      constructor
      · rintro (h | h)
        · exact .inl h
        · exact .inr (.inr h)
      · rintro (h | rfl | h)
        · exact .inl h
        · exact .inr h1
        · exact .inr h
    simp only [h1, h2, and_false, if_true, if_false]
    refine ⟨⟨hne, ?_, ?_, ?_⟩, hcount [op] hW, rfl, hcheck (.inl h1), hbound [op] hW, fun _ => trivial⟩
    · simp [BGPOp.reads, BGPOp.joinPos, h1]
    · simp [BGPOp.writes, BGPOp.setPos, h2]
    · simp [BGPOp.writes, BGPOp.setPos, hop_lt]
  · have hne : sp ≠ op := fun he => h1 (he ▸ h2)
    have hW : ∀ j, j ∈ [sp] ++ B ↔ j = op ∨ j = sp ∨ j ∈ B := by
      intro j
      simp only [List.singleton_append, List.mem_cons]
      constructor
      · rintro (h | h)
        · exact .inr (.inl h)
        · exact .inr (.inr h)
      · rintro (rfl | h | h)
        · exact .inr h2
        · exact .inl h
        · exact .inr h
    simp only [h1, h2, false_and, if_true, if_false]
    refine ⟨⟨hne, ?_, ?_, ?_⟩, hcount [sp] hW, rfl, hcheck (.inr h2), hbound [sp] hW, fun _ => trivial⟩
    · simp [BGPOp.reads, BGPOp.joinPos, h2]
    · simp [BGPOp.writes, BGPOp.setPos, h1]
    · simp [BGPOp.writes, BGPOp.setPos, hsp_lt]
  · have hW : ∀ j, j ∈ [op, sp] ++ B ↔ j = op ∨ j = sp ∨ j ∈ B := by
      intro j
      simp
    simp only [h1, h2, false_and, if_false]
    refine ⟨⟨hkind, ?_, ?_, ?_⟩, hcount [op, sp] hW, rfl, fun row => ?_, hbound [op, sp] hW, fun h => h hsc hoc⟩
    · simp [BGPOp.reads]
    · simp [BGPOp.writes, h1, h2]
    · simp [BGPOp.writes, hsp_lt, hop_lt]
    · rw [(heval row).1, (heval row).2]
      by_cases hne : sp = op
      · -- one position for both
        simp only [BGPOp.check, hne, if_true, List.any_eq_true, decide_eq_true_eq, K2TreeScanner.create, hl.mem_fullScan]
        constructor
        · rintro ⟨k, hk, hobj⟩
          rw [← hobj]
          exact .inr ⟨⟨hsc, hoc, hne⟩, h2, k.1, hk⟩
        · rintro (h | ⟨-, -, s, hs⟩)
          · exact ⟨_, h, rfl⟩
          · exact ⟨_, hs, rfl⟩
      · simp only [BGPOp.check, hne, if_false]
        refine ⟨.inl, ?_⟩
        rintro (h | ⟨⟨-, -, he⟩, -⟩)
        · exact h
        · exact absurd he hne

omit hl hlt in
/-- A pattern with one variable, at `wv`, and a band for the other component. -/
theorem oneVar_fits {wv : Vars} {b : UInt64} {p : ℕ} (hp : p < n)
    (hkind : scannerKind t = .band b (match wv with | .subjectVar => .row | .objectVar => .column))
    (hone : t.subject.isConcrete = true ∨ t.object.isConcrete = true) (hvars : ∀ j, (∃ x ∈ t.vars, pos x = j) ↔ j = p)
    (hcheck : ∀ row : Row, BGPOp.place wv b (row.val p) =
      (t.subject.eval (rowValue pos row), t.object.eval (rowValue pos row))) :
    OpFits ops n B pos t tree (if 0 < ji.getD p 0 then
        (.oneVarIntersect wv (.create ops tree (scannerKind t)) p, bump ji p)
      else (.oneVarCP wv (.create ops tree (scannerKind t)) p, bump ji p)) := by
  have hband : (K2TreeScanner.create ops tree (scannerKind t)).getBandValue = .ok b := by
    rw [K2TreeScanner.getBandValue, K2TreeScanner.create, hkind]
  have hfound : ∀ row : Row, ops.has tree (BGPOp.place wv b (row.val p)) = true ↔
      (t.subject.eval (rowValue pos row), t.object.eval (rowValue pos row)) ∈ ops.points tree ∨
        (t.subject.isConcrete = false ∧ t.object.isConcrete = false ∧ pos t.subject.varName = pos t.object.varName) ∧
          pos t.object.varName ∉ B ∧ ∃ s, (s, t.object.eval (rowValue pos row)) ∈ ops.points tree := by
    intro row
    rw [hcheck row]
    refine ⟨.inl, ?_⟩
    rintro (h | ⟨⟨hs, ho, -⟩, -⟩)
    · exact h
    · rw [hs, ho] at hone
      simp at hone
  by_cases h1 : p ∈ B
  · rw [if_pos ((hj.pos p hp).2 h1)]
    refine ⟨⟨⟨b, _, hkind⟩, by simp [BGPOp.reads, h1], by simp [BGPOp.writes], by simp [BGPOp.writes]⟩, ?_, rfl, ?_, ?_,
      fun _ => trivial⟩
    · refine hj.bump hp fun j => ?_
      simp only [BGPOp.writes, List.nil_append]
      constructor
      · exact .inr
      · rintro (rfl | h) <;> assumption
    · intro row
      simp only [BGPOp.check, hband]
      exact hfound row
    · intro j
      rw [hvars]
      simp only [BGPOp.writes, List.nil_append]
      constructor
      · exact .inl
      · rintro (h | rfl) <;> assumption
  · rw [if_neg fun h => h1 ((hj.pos p hp).1 h)]
    refine ⟨⟨⟨b, hkind⟩, by simp [BGPOp.reads], by simp [BGPOp.writes, h1], by simp [BGPOp.writes, hp]⟩, ?_, rfl, ?_, ?_,
      fun _ => trivial⟩
    · exact hj.bump hp fun j => by simp [BGPOp.writes]
    · intro row
      simp only [BGPOp.check, hband]
      exact hfound row
    · intro j
      rw [hvars]
      simp only [BGPOp.writes, List.singleton_append, List.mem_cons]
      exact or_comm

/-- **The operator of a pattern** fits behind the positions bound so far, and tests the
pattern. -/
theorem createBgpOp_spec : OpFits ops n B pos t tree (createBgpOp (.create ops tree (scannerKind t)) t pos ji) := by
  cases hsc : t.subject.isConcrete <;> cases hoc : t.object.isConcrete
  · exact createBgpOp_two hl hj hlt tree hsc hoc
  · have hkind : scannerKind t = .band t.object.cacheNodeId .row := by simp [scannerKind, hsc, hoc]
    have hvars : ∀ j, (∃ x ∈ t.vars, pos x = j) ↔ j = pos t.subject.varName := by
      intro j
      constructor
      · rintro ⟨x, ⟨-, rfl⟩ | ⟨hx, -⟩, rfl⟩
        · rfl
        · simp [hoc] at hx
      · rintro rfl
        exact ⟨_, .inl ⟨hsc, rfl⟩, rfl⟩
    have hcheck : ∀ row : Row, BGPOp.place .subjectVar t.object.cacheNodeId (row.val (pos t.subject.varName)) =
        (t.subject.eval (rowValue pos row), t.object.eval (rowValue pos row)) := by
      intro row
      simp [BGPOp.place, BGPNode.eval, rowValue, hsc, hoc]
    unfold createBgpOp
    simp only [hsc, hoc, Bool.not_false, Bool.not_true]
    exact oneVar_fits hj tree (hlt _ (.inl ⟨hsc, rfl⟩)) hkind (.inr hoc) hvars hcheck
  · have hkind : scannerKind t = .band t.subject.cacheNodeId .column := by simp [scannerKind, hsc, hoc]
    have hvars : ∀ j, (∃ x ∈ t.vars, pos x = j) ↔ j = pos t.object.varName := by
      intro j
      constructor
      · rintro ⟨x, ⟨hx, -⟩ | ⟨-, rfl⟩, rfl⟩
        · simp [hsc] at hx
        · rfl
      · rintro rfl
        exact ⟨_, .inr ⟨hoc, rfl⟩, rfl⟩
    have hcheck : ∀ row : Row, BGPOp.place .objectVar t.subject.cacheNodeId (row.val (pos t.object.varName)) =
        (t.subject.eval (rowValue pos row), t.object.eval (rowValue pos row)) := by
      intro row
      simp [BGPOp.place, BGPNode.eval, rowValue, hsc, hoc]
    unfold createBgpOp
    simp only [hsc, hoc, Bool.not_false, Bool.not_true]
    exact oneVar_fits hj tree (hlt _ (.inr ⟨hoc, rfl⟩)) hkind (.inl hsc) hvars hcheck
  · unfold createBgpOp
    simp only [hsc, hoc, Bool.not_true]
    refine ⟨⟨trivial, by simp [BGPOp.reads], by simp [BGPOp.writes], by simp [BGPOp.writes]⟩, hj, rfl, ?_, ?_, fun _ => trivial⟩
    · intro row
      simp [BGPOp.check, BGPNode.eval, hsc, hoc, K2TreeScanner.create, TreeOps.points]
    · intro j
      simp [BGPOp.writes, BGPTriple.vars, hsc, hoc]

end CreateOp

/-! ## The whole list -/

/-- A tree for each pattern, as `build_scanners` finds them. -/
def TreesOf (fetch : UInt64 → Option T) (patterns : List BGPTriple) (trees : List T) : Prop :=
  List.Forall₂ (fun t tree => fetch t.predicate.cacheNodeId = some tree) patterns trees

theorem buildScanners_eq (ops : TreeOps T) {fetch : UInt64 → Option T} {patterns : List BGPTriple} {trees : List T}
    (h : TreesOf fetch patterns trees) : buildScanners ops fetch patterns =
      .ok (List.zipWith (fun tree t => .create ops tree (scannerKind t)) trees patterns) := by
  unfold TreesOf at h
  induction h with
  | nil => rfl
  | cons ht _ ih => simp only [buildScanners, ht, ih, List.zipWith_cons_cons]

theorem exists_treesOf {fetch : UInt64 → Option T} {patterns : List BGPTriple}
    (h : ∀ t ∈ patterns, (fetch t.predicate.cacheNodeId).isSome = true) : ∃ trees, TreesOf fetch patterns trees := by
  induction patterns with
  | nil => exact ⟨[], .nil⟩
  | cons t ts ih =>
    obtain ⟨tree, ht⟩ := Option.isSome_iff_exists.1 (h t List.mem_cons_self)
    obtain ⟨trees, hts⟩ := ih fun t ht => h t (List.mem_cons_of_mem _ ht)
    exact ⟨tree :: trees, .cons ht hts⟩

/-- **`build_bgp_ops`**: the operators are in their places, have not run, and find what
there is for the patterns. -/
theorem buildBgpOps_spec (hl : ops.Lawful) (pos : String → ℕ) {n : ℕ} {patterns : List BGPTriple} {trees : List T}
    {fetch : UInt64 → Option T} (htrees : TreesOf fetch patterns trees)
    (hlt : ∀ t ∈ patterns, ∀ x ∈ t.vars, pos x < n) {W : Set String} (hW : ∀ t ∈ patterns, ∀ x ∈ t.vars, x ∈ W)
    (hinj : ∀ x ∈ W, ∀ y ∈ W, pos x = pos y → x = y) {B : List ℕ} {V : Set String} (hV : ∀ x ∈ W, pos x ∈ B ↔ x ∈ V)
    {ji : List ℤ} (hj : Counts n B ji) (hcover : ∀ j < n, j ∈ B ∨ ∃ t ∈ patterns, ∃ x ∈ t.vars, pos x = j) :
    let bgpOps := buildBgpOps pos
      ((List.zipWith (fun tree t => .create ops tree (scannerKind t)) trees patterns).zip patterns) ji
    ToEnter n B bgpOps ∧ (∀ o ∈ bgpOps, o.resetOp ops = o) ∧ bgpOps.length = patterns.length ∧
      ((∀ t ∈ patterns, ¬ t.Repeats) → ∀ o ∈ bgpOps, o.KeepsBoth) ∧
      ∀ row, (∀ o ∈ bgpOps, o.check ops row = true) ↔ AllFound ops fetch (rowValue pos row) V patterns := by
  unfold TreesOf at htrees
  induction htrees generalizing B V ji with
  | nil =>
    refine ⟨.nil fun j hj' => ?_, by simp [buildBgpOps], rfl, by simp [buildBgpOps], by simp [buildBgpOps, AllFound]⟩
    exact (hcover j hj').resolve_right (by simp)
  | @cons t tree ts trees ht hts ih =>
    have hfit : OpFits ops n B pos t tree (createBgpOp (.create ops tree (scannerKind t)) t pos ji) :=
      createBgpOp_spec hl hj (hlt t List.mem_cons_self) tree
    set r := createBgpOp (.create ops tree (scannerKind t)) t pos ji with hr
    have htW : ∀ x ∈ t.vars, x ∈ W := hW t List.mem_cons_self
    have hcover' : ∀ j < n, j ∈ r.1.writes ++ B ∨ ∃ t ∈ ts, ∃ x ∈ t.vars, pos x = j := by
      intro j hj'
      rcases hcover j hj' with h | ⟨t', ht', x, hx, rfl⟩
      · exact .inl (List.mem_append_right _ h)
      · rcases List.mem_cons.1 ht' with rfl | ht'
        · exact .inl ((hfit.bound _).2 (.inr ⟨x, hx, rfl⟩))
        · exact .inr ⟨t', ht', x, hx, rfl⟩
    -- the variables that are bound behind the operator
    have hV' : ∀ x ∈ W, pos x ∈ r.1.writes ++ B ↔ x ∈ V ∪ t.vars := by
      intro x hx
      rw [hfit.bound, hV x hx, Set.mem_union]
      constructor
      · rintro (h | ⟨y, hy, he⟩)
        · exact .inl h
        · exact .inr (hinj y (htW y hy) x hx he ▸ hy)
      · rintro (h | h)
        · exact .inl h
        · exact .inr ⟨x, h, rfl⟩
    obtain ⟨h1, h2, h3, h4, h5⟩ := ih (fun t ht => hlt t (List.mem_cons_of_mem _ ht))
      (fun t ht => hW t (List.mem_cons_of_mem _ ht)) hV' hfit.counts hcover'
    have hcheck : ∀ row, r.1.check ops row = true ↔ Found ops tree V (rowValue pos row) t := by
      intro row
      rw [hfit.check row]
      refine or_congr_right ⟨?_, ?_⟩
      · rintro ⟨⟨hs, ho, he⟩, hB, hex⟩
        have hname := hinj _ (htW _ (.inl ⟨hs, rfl⟩)) _ (htW _ (.inr ⟨ho, rfl⟩)) he
        exact ⟨⟨hs, ho, hname⟩, fun h => hB ((hV _ (htW _ (.inr ⟨ho, rfl⟩))).2 h), hex⟩
      · rintro ⟨⟨hs, ho, hname⟩, hVx, hex⟩
        exact ⟨⟨hs, ho, congrArg pos hname⟩, fun h => hVx ((hV _ (htW _ (.inr ⟨ho, rfl⟩))).1 h), hex⟩
    refine ⟨.cons hfit.plan h1, ?_, ?_, fun hrep => ?_, fun row => ?_⟩
    · exact List.forall_mem_cons.2 ⟨hfit.fresh, h2⟩
    · simp only [List.zipWith_cons_cons, List.zip_cons_cons, buildBgpOps, List.length_cons, ← hr, h3]
    · refine List.forall_mem_cons.2 ⟨hfit.both fun hs ho he => ?_, h4 fun t ht => hrep t (List.mem_cons_of_mem _ ht)⟩
      exact hrep t List.mem_cons_self ⟨hs, ho, hinj _ (htW _ (.inl ⟨hs, rfl⟩)) _ (htW _ (.inr ⟨ho, rfl⟩)) he⟩
    · simp only [List.zipWith_cons_cons, List.zip_cons_cons, buildBgpOps, List.forall_mem_cons, ← hr, h5 row, hcheck row,
        AllFound]
      constructor
      · rintro ⟨hfound, hrest⟩
        exact ⟨⟨tree, ht, hfound⟩, hrest⟩
      · rintro ⟨⟨tree', ht', hfound⟩, hrest⟩
        obtain rfl : tree = tree' := Option.some.inj (ht.symm.trans ht')
        exact ⟨hfound, hrest⟩

/-! ## The rows -/

/-- **An assignment satisfies the patterns**: every pattern's subject and object are a
point of its predicate's tree. -/
def Satisfies (ops : TreeOps T) (fetch : UInt64 → Option T) (patterns : List BGPTriple) (a : String → UInt64) : Prop :=
  ∀ t ∈ patterns, ∃ tree, fetch t.predicate.cacheNodeId = some tree ∧ (t.subject.eval a, t.object.eval a) ∈ ops.points tree

section Found

variable {fetch : UInt64 → Option T} {patterns : List BGPTriple} {a b : String → UInt64}

/-- What satisfies the patterns is found. -/
theorem Satisfies.allFound (h : Satisfies ops fetch patterns a) (V : Set String) : AllFound ops fetch a V patterns := by
  induction patterns generalizing V with
  | nil => trivial
  | cons t ts ih =>
    obtain ⟨tree, ht, hx⟩ := h t List.mem_cons_self
    exact ⟨⟨tree, ht, .inl hx⟩, ih (fun t ht => h t (List.mem_cons_of_mem _ ht)) _⟩

/-- Without repeated variables there is nothing else. -/
theorem AllFound.satisfies {V : Set String} (h : AllFound ops fetch a V patterns) (hrep : ∀ t ∈ patterns, ¬ t.Repeats) :
    Satisfies ops fetch patterns a := by
  induction patterns generalizing V with
  | nil => simp [Satisfies]
  | cons t ts ih =>
    obtain ⟨⟨tree, ht, hfound⟩, hts⟩ := h
    refine List.forall_mem_cons.2 ⟨⟨tree, ht, ?_⟩, ih hts fun t ht => hrep t (List.mem_cons_of_mem _ ht)⟩
    exact hfound.resolve_right fun h => hrep t List.mem_cons_self h.1

/-- It depends on the variables of the patterns. -/
theorem allFound_congr (hab : ∀ x ∈ patternVars patterns, a x = b x) (V : Set String) :
    AllFound ops fetch a V patterns ↔ AllFound ops fetch b V patterns := by
  induction patterns generalizing V with
  | nil => exact Iff.rfl
  | cons t ts ih =>
    have hsub : t.subject.eval a = t.subject.eval b := by
      unfold BGPNode.eval
      cases hs : t.subject.isConcrete with
      | true => rfl
      | false => exact hab _ ⟨t, List.mem_cons_self, .inl ⟨hs, rfl⟩⟩
    have hobj : t.object.eval a = t.object.eval b := by
      unfold BGPNode.eval
      cases ho : t.object.isConcrete with
      | true => rfl
      | false => exact hab _ ⟨t, List.mem_cons_self, .inr ⟨ho, rfl⟩⟩
    rw [AllFound, AllFound, ih fun x ⟨t', ht', hx⟩ => hab x ⟨t', List.mem_cons_of_mem _ ht', hx⟩]
    simp only [Found, hsub, hobj]

end Found

theorem executeIt_run {fetch : UInt64 → Option T} {getId : UInt64 → UInt64} {vim : VarIndexManager} {c : TimeControl}
    {patterns : List BGPTriple} {fuel : ℕ} {scanners : List (K2TreeScanner T)} {row : Row} {it : BGPIterator T}
    (hall : doAllPredicatesHaveTrees fetch (patterns.map (BGPTriple.resolve getId)) = true)
    (hscan : buildScanners ops fetch (patterns.map (BGPTriple.resolve getId)) = .ok scanners)
    (hcon : BGPIterator.construct ops fuel
      (buildBgpOps (findHeaders vim (patterns.map (BGPTriple.resolve getId))).pos
        (scanners.zip (patterns.map (BGPTriple.resolve getId)))
        (List.replicate (findHeaders vim (patterns.map (BGPTriple.resolve getId))).headerVec.length 0))
      (findHeaders vim (patterns.map (BGPTriple.resolve getId))).headerVec c = (.ok row, it)) :
    executeIt ops fetch getId vim c patterns fuel = .ok (.bgp it) := by
  simp only [executeIt, hall, if_true, hscan, hcon]

section Rows

variable (hl : ops.Lawful) (fetch : UInt64 → Option T) (getId : UInt64 → UInt64) {vim : VarIndexManager}
  (hvim : vim.Valid) {c : TimeControl} (hc : c.NeverExpires) {patterns : List BGPTriple}

/-- The variables do not depend on the ids. -/
theorem patternVars_resolve (getId : UInt64 → UInt64) (patterns : List BGPTriple) :
    patternVars (patterns.map (BGPTriple.resolve getId)) = patternVars patterns := by
  ext x
  simp [patternVars, BGPTriple.vars, BGPTriple.resolve]

include hl hvim hc

/-- **The rows the iterator is searched for**: those in which something is found for every
pattern. -/
theorem executeIt_search (hne : patterns ≠ [])
    (htrees : ∀ t ∈ patterns, getCacheId getId t.predicate ≠ 0 ∧ (fetch (getCacheId getId t.predicate)).isSome = true) :
    let resolved := patterns.map (BGPTriple.resolve getId)
    let h := findHeaders vim resolved
    ∃ rows : List Row, (∃ N, ∀ fuel, N ≤ fuel → ∃ it, executeIt ops fetch getId vim c patterns fuel = .ok it ∧
        it.drain ops fuel = .ok rows) ∧
      ((∀ t ∈ resolved, ¬ t.Repeats) → rows.Nodup) ∧
      ∀ row, row ∈ rows ↔ row.length = h.headerVec.length ∧ AllFound ops fetch (rowValue h.pos row) ∅ resolved := by
  intro resolved h
  have hof : h.Of (patternVars resolved) := findHeaders_of hvim resolved
  have hmem : ∀ t ∈ resolved, t.predicate.cacheNodeId ≠ 0 ∧ (fetch t.predicate.cacheNodeId).isSome = true := by
    intro t ht
    obtain ⟨t₀, ht₀, rfl⟩ := List.mem_map.1 ht
    exact htrees t₀ ht₀
  have hin : ∀ t ∈ resolved, ∀ x ∈ t.vars, x ∈ patternVars resolved := fun t ht x hx => ⟨t, ht, hx⟩
  obtain ⟨trees, hts⟩ := exists_treesOf fun t ht => (hmem t ht).2
  set n := h.headerVec.length with hn
  have hcounts : Counts n [] (List.replicate n 0) := by
    refine ⟨by simp, fun j hj => ?_, fun j hj => ?_⟩
    · simp [hj]
    · simp [hj]
  obtain ⟨h1, h2, h3, h4, h5⟩ := buildBgpOps_spec hl h.pos hts (fun t ht x hx => hof.pos_lt (hin t ht x hx)) hin
    (fun x hx y hy he => hof.pos_inj hx hy he) (show ∀ x ∈ patternVars resolved, h.pos x ∈ [] ↔ x ∈ (∅ : Set String) by simp)
    hcounts
    (fun j hj => .inr (by
      obtain ⟨x, ⟨t, ht, hx⟩, hpos⟩ := hof.pos_surj hj
      exact ⟨t, ht, x, hx, hpos⟩))
  set bgpOps := buildBgpOps h.pos
    ((List.zipWith (fun tree t => K2TreeScanner.create ops tree (scannerKind t)) trees resolved).zip resolved)
    (List.replicate n 0) with hops
  have hopsne : bgpOps ≠ [] := by
    rw [← List.length_pos_iff, h3, List.length_map, List.length_pos_iff]
    exact hne
  obtain ⟨N, hN⟩ := drain_enum hl h1 h2 hopsne hc
  set row₀ : Row := List.replicate n 0 with hrow₀
  have hagree : Agree n [] row₀ row₀ := Agree.refl (by simp [hrow₀])
  refine ⟨Search.enum (bgpOps.map (BGPOp.level ops)) row₀, ⟨N, fun fuel hfuel => ?_⟩,
    fun hrep => Search.nodup_enum (h1.separated hl (h4 hrep)) hagree, fun row => ?_⟩
  · obtain ⟨row, it, it', hcon, hdrain⟩ := hN fuel hfuel
    refine ⟨.bgp it, ?_, by rw [QueryIterator.drain, hdrain]⟩
    have hall : doAllPredicatesHaveTrees fetch resolved = true := by
      rw [doAllPredicatesHaveTrees, List.all_eq_true]
      intro t ht
      simp [(hmem t ht).1, (hmem t ht).2]
    exact executeIt_run hall (buildScanners_eq ops hts) hcon
  · -- the results of the search are the rows every operator accepts
    have hgood : (∀ l ∈ bgpOps.map (BGPOp.level ops), l.Good row) ↔ ∀ o ∈ bgpOps, o.check ops row = true :=
      List.forall_mem_map
    rw [Search.mem_enum (h1.plan hl) hagree, hgood, h5 row]
    constructor
    · rintro ⟨hrow, hall⟩
      exact ⟨hrow.length', hall⟩
    · rintro ⟨hlen, hall⟩
      exact ⟨⟨hagree.length, hlen, by simp⟩, hall⟩

/-- **The rows of a basic graph pattern.** While the time control does not expire, the
iterator of `execute_it` can be drained, and its rows are, each once, the rows of the
assignments that satisfy the patterns. -/
theorem executeIt_rows (hne : patterns ≠ [])
    (htrees : ∀ t ∈ patterns, getCacheId getId t.predicate ≠ 0 ∧ (fetch (getCacheId getId t.predicate)).isSome = true)
    (hdistinct : ∀ t ∈ patterns, t.subject.isConcrete = false → t.object.isConcrete = false →
      t.subject.varName ≠ t.object.varName) :
    let resolved := patterns.map (BGPTriple.resolve getId)
    let h := findHeaders vim resolved
    ∃ rows : List Row, (∃ N, ∀ fuel, N ≤ fuel → ∃ it, executeIt ops fetch getId vim c patterns fuel = .ok it ∧
        it.drain ops fuel = .ok rows) ∧
      rows.Nodup ∧ (∀ row, row ∈ rows ↔ ∃ a, Satisfies ops fetch resolved a ∧ h.layout a = row) ∧
      ∀ a b, h.layout a = h.layout b ↔ ∀ x ∈ patternVars patterns, a x = b x := by
  intro resolved h
  have hof : h.Of (patternVars resolved) := findHeaders_of hvim resolved
  have hrep : ∀ t ∈ resolved, ¬ t.Repeats := by
    intro t ht
    obtain ⟨t₀, ht₀, rfl⟩ := List.mem_map.1 ht
    rintro ⟨hs, ho, he⟩
    exact hdistinct t₀ ht₀ hs ho he
  obtain ⟨rows, hdrain, hnodup, hrows⟩ := executeIt_search hl fetch getId hvim hc hne htrees
  refine ⟨rows, hdrain, hnodup hrep, fun row => ?_, ?_⟩
  · rw [hrows]
    have hvalue : ∀ a, ∀ x ∈ patternVars resolved, rowValue h.pos (h.layout a) x = a x := fun a x hx => hof.val_layout a hx
    constructor
    · rintro ⟨hlen, hall⟩
      obtain ⟨a, rfl⟩ := hof.exists_layout hlen
      exact ⟨a, ((allFound_congr (hvalue a) ∅).1 hall).satisfies hrep, rfl⟩
    · rintro ⟨a, hsat, rfl⟩
      exact ⟨show (h.layout a).length = h.headerVec.length by simp [Headers.layout],
        (allFound_congr (hvalue a) ∅).2 (hsat.allFound ∅)⟩
  · rw [← patternVars_resolve getId]
    exact hof.layout_inj

end Rows

namespace PointTree

/-- A graph with the trees of predicates 5 and 6. -/
def chainFetch (p : UInt64) : Option PointTree :=
  if p = 5 then some (ofList [(1, 2), (1, 3), (4, 2)]) else if p = 6 then some (ofList [(2, 7), (2, 8), (3, 9)]) else none

/-- The patterns `?x 5 ?y` and `?y 6 ?z`. -/
def chainPatterns : List BGPTriple :=
  [⟨⟨false, "x", 0, 0⟩, ⟨true, "", 0, 5⟩, ⟨false, "y", 0, 0⟩⟩, ⟨⟨false, "y", 0, 0⟩, ⟨true, "", 0, 6⟩, ⟨false, "z", 0, 0⟩⟩]

end PointTree

open PointTree in
/-- In the chain, `x = 1, y = 2, z = 7` is a row, found once. -/
theorem executeIt_rows_chain :
    ∃ rows : List Row, (∃ N, ∀ fuel, N ≤ fuel → ∃ it,
        executeIt PointTree.ops chainFetch id .construct ⟨1000, 0, false, fun _ => false, 0⟩ chainPatterns fuel = .ok it ∧
        it.drain PointTree.ops fuel = .ok rows) ∧ rows.count [1, 2, 7] = 1 := by
  obtain ⟨rows, hdrain, hnodup, hrows, -⟩ := executeIt_rows ops_lawful chainFetch id VarIndexManager.construct_valid
    (c := ⟨1000, 0, false, fun _ => false, 0⟩) ⟨rfl, fun _ => rfl⟩ (show chainPatterns ≠ [] by decide) (by decide)
    (by decide)
  refine ⟨rows, hdrain, List.count_eq_one_of_mem hnodup ((hrows _).2 ?_)⟩
  refine ⟨fun x => if x = "x" then 1 else if x = "y" then 2 else 7, fun t ht => ?_, by decide⟩
  have ht' : t ∈ chainPatterns := by
    have hres : chainPatterns.map (BGPTriple.resolve id) = chainPatterns := by decide
    rwa [hres] at ht
  rcases List.mem_pair.1 ht' with rfl | rfl
  · exact ⟨_, rfl, show PointTree.ops.has _ _ = true by decide⟩
  · exact ⟨_, rfl, show PointTree.ops.has _ _ = true by decide⟩

end K2Cache
