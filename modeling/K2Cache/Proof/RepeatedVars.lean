import K2Cache.Proof.BgpRows

/-!
# A variable repeated inside one pattern

`?x p ?x` is tested as an equality if an earlier pattern binds `?x`. If none does, the
operator that lists the points of the tree writes the subject and then the object to the one
position of `?x`: every object is found (`Found`).

`repeatIsEquality_iff`: so the rows are right if and only if no such object, compatible with
the other patterns, lacks the point with itself.
-/

namespace K2Cache

open Lib

variable {T : Type} {ops : TreeOps T}

/-- **A repeated variable is an equality**: every row has, for each pattern `?x p ?x`, a value
whose point with itself is in the tree of `p`, and no assignment that satisfies the patterns
is missing. -/
def RepeatIsEquality (ops : TreeOps T) (fetch : UInt64 → Option T) (getId : UInt64 → UInt64) (vim : VarIndexManager)
    (c : TimeControl) (patterns : List BGPTriple) : Prop :=
  let resolved := patterns.map (BGPTriple.resolve getId)
  let h := findHeaders vim resolved
  ∃ rows : List Row, (∃ N, ∀ fuel, N ≤ fuel → ∃ it, executeIt ops fetch getId vim c patterns fuel = .ok it ∧
      it.drain ops fuel = .ok rows) ∧
    (∀ row ∈ rows, ∀ t ∈ resolved, t.Repeats → ∃ tree, fetch t.predicate.cacheNodeId = some tree ∧
      (row.val (h.pos t.object.varName), row.val (h.pos t.object.varName)) ∈ ops.points tree) ∧
    ∀ a, Satisfies ops fetch resolved a → h.layout a ∈ rows

/-- Whatever is found for the patterns has the repeated values' points in the trees. -/
def RepeatsStored (ops : TreeOps T) (fetch : UInt64 → Option T) (patterns : List BGPTriple) : Prop :=
  ∀ a, AllFound ops fetch a ∅ patterns → ∀ t ∈ patterns, t.Repeats →
    ∃ tree, fetch t.predicate.cacheNodeId = some tree ∧ (a t.object.varName, a t.object.varName) ∈ ops.points tree

section

variable (hl : ops.Lawful) {fetch : UInt64 → Option T} {getId : UInt64 → UInt64} {vim : VarIndexManager}
  (hvim : vim.Valid) {c : TimeControl} (hc : c.NeverExpires) {patterns : List BGPTriple} (hne : patterns ≠ [])
  (htrees : ∀ t ∈ patterns, getCacheId getId t.predicate ≠ 0 ∧ (fetch (getCacheId getId t.predicate)).isSome = true)
include hl hvim hc hne htrees

/-- What is found is a row. -/
theorem RepeatIsEquality.stored (h : RepeatIsEquality ops fetch getId vim c patterns) :
    RepeatsStored ops fetch (patterns.map (BGPTriple.resolve getId)) := by
  obtain ⟨rows, ⟨N, hN⟩, hrows, -⟩ := h
  obtain ⟨rows', ⟨N', hN'⟩, -, hmem⟩ := executeIt_search hl fetch getId hvim hc hne htrees
  -- the rows are those of the search
  obtain rfl : rows' = rows := by
    obtain ⟨it, h1, h2⟩ := hN (N + N') (by omega)
    obtain ⟨it', h3, h4⟩ := hN' (N + N') (by omega)
    obtain rfl : it = it' := Except.ok.inj (h1.symm.trans h3)
    exact Except.ok.inj (h4.symm.trans h2)
  intro a ha t ht hrep
  set resolved := patterns.map (BGPTriple.resolve getId) with hresolved
  have hof : (findHeaders vim resolved).Of (patternVars resolved) := findHeaders_of hvim resolved
  have hvalue : ∀ x ∈ patternVars resolved,
      rowValue (findHeaders vim resolved).pos ((findHeaders vim resolved).layout a) x = a x := fun x hx => hof.val_layout a hx
  have hrow := (hmem ((findHeaders vim resolved).layout a)).2
    ⟨by simp [Headers.layout], (allFound_congr hvalue ∅).2 ha⟩
  obtain ⟨tree, htree, hpoint⟩ := hrows _ hrow t ht hrep
  refine ⟨tree, htree, ?_⟩
  have hx := hvalue t.object.varName ⟨t, ht, .inr ⟨hrep.2.1, rfl⟩⟩
  rw [rowValue] at hx
  rwa [hx] at hpoint

/-- **A variable repeated inside one pattern** is an equality if and only if all that is found
for the patterns has the points of its repeated values in the trees. -/
theorem repeatIsEquality_iff : RepeatIsEquality ops fetch getId vim c patterns ↔
    RepeatsStored ops fetch (patterns.map (BGPTriple.resolve getId)) := by
  constructor
  · exact RepeatIsEquality.stored hl hvim hc hne htrees
  · intro hstored
    set resolved := patterns.map (BGPTriple.resolve getId) with hresolved
    have hof : (findHeaders vim resolved).Of (patternVars resolved) := findHeaders_of hvim resolved
    obtain ⟨rows, hdrain, -, hmem⟩ := executeIt_search hl fetch getId hvim hc hne htrees
    refine ⟨rows, hdrain, fun row hrow t ht hrep => ?_, fun a ha => ?_⟩
    · exact hstored _ ((hmem row).1 hrow).2 t ht hrep
    · have hvalue : ∀ x ∈ patternVars resolved,
          rowValue (findHeaders vim resolved).pos ((findHeaders vim resolved).layout a) x = a x := fun x hx => hof.val_layout a hx
      exact (hmem _).2 ⟨by simp [Headers.layout], (allFound_congr hvalue ∅).2 (ha.allFound ∅)⟩

end

namespace PointTree

/-- The tree of predicate 6 has `(1, 2)`, `(2, 2)` and `(3, 1)`, that of predicate 5 has `(4, 2)`. -/
def loopFetch (p : UInt64) : Option PointTree :=
  if p = 5 then some (ofList [(4, 2)]) else if p = 6 then some (ofList [(1, 2), (2, 2), (3, 1)]) else none

/-- The pattern `?x 6 ?x`. -/
def loopPattern : BGPTriple := ⟨⟨false, "x", 0, 0⟩, ⟨true, "", 0, 6⟩, ⟨false, "x", 0, 0⟩⟩

/-- The patterns `?y 5 ?x` and `?x 6 ?x`. -/
def boundLoop : List BGPTriple := [⟨⟨false, "y", 0, 0⟩, ⟨true, "", 0, 5⟩, ⟨false, "x", 0, 0⟩⟩, loopPattern]

end PointTree

open PointTree

/-- `?x` is bound by the first pattern. -/
theorem repeatIsEquality_iff_bound :
    RepeatIsEquality PointTree.ops loopFetch id .construct ⟨1000, 0, false, fun _ => false, 0⟩ boundLoop := by
  refine (repeatIsEquality_iff ops_lawful VarIndexManager.construct_valid ⟨rfl, fun _ => rfl⟩
    (show boundLoop ≠ [] by decide) (by decide)).2 fun a ha t ht hrep => ?_
  have hres : boundLoop.map (BGPTriple.resolve id) = boundLoop := by decide
  rw [hres] at ha ht
  obtain ⟨-, ⟨tree, htree, hfound⟩, -⟩ := ha
  rcases List.mem_pair.1 ht with rfl | rfl
  · exact absurd hrep.2.2 (by decide)
  · refine ⟨tree, htree, hfound.resolve_right fun h => h.2.1 ?_⟩
    exact .inr (.inr ⟨rfl, rfl⟩)

/-- `?x` is bound by no other pattern: the object 1 of 3 is a row. -/
theorem repeatIsEquality_fails :
    ¬ RepeatIsEquality PointTree.ops loopFetch id .construct ⟨1000, 0, false, fun _ => false, 0⟩ [loopPattern] := by
  intro h
  have hstored := h.stored ops_lawful VarIndexManager.construct_valid ⟨rfl, fun _ => rfl⟩
    (show [loopPattern] ≠ [] by decide) (by decide)
  have hres : [loopPattern].map (BGPTriple.resolve id) = [loopPattern] := by decide
  rw [hres] at hstored
  obtain ⟨tree, htree, hpoint⟩ := hstored (fun _ => 1)
    ⟨⟨_, rfl, .inr ⟨⟨rfl, rfl, rfl⟩, by simp, 3, show PointTree.ops.has _ _ = true by decide⟩⟩, trivial⟩ loopPattern
    List.mem_cons_self ⟨rfl, rfl, rfl⟩
  obtain rfl := Option.some.inj htree
  exact absurd hpoint (show ¬ PointTree.ops.has _ _ = true by decide)

end K2Cache
