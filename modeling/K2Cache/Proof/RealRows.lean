import K2Cache.Proof.BgpQuery
import K2Cache.Proof.OnePattern

/-!
# Queries in real ids

A query names real ids, and its rows are mapped back to real ids. What is stored has the ids that
a node ids manager gave them.

A store stands for a graph of real ids if its points are the triples of the graph in ids, and no
id of a node of the graph belongs to a second real id (`Store.StandsFor`). Then the assignments
that satisfy the patterns in the store are, in real ids, those that match them in the graph
(`StandsFor.satisfies_real`, `StandsFor.satisfies_of_real`).
-/

namespace K2Cache

open Lib

/-! ## Graphs and patterns -/

/-- The nodes of a triple. -/
def TripleNodeId.nodes (t : TripleNodeId) : List UInt64 := [t.subject, t.predicate, t.object]

/-- **A store of ids stands for a graph of real ids.** -/
structure Store.StandsFor (store : Store) (getId realOf : UInt64 → UInt64) (G : Set TripleNodeId) : Prop where
  points : ∀ p x y, (∃ S, store p = some S ∧ (x, y) ∈ S) ↔
    ∃ t ∈ G, getId t.subject = x ∧ getId t.predicate = p ∧ getId t.object = y
  real : ∀ t ∈ G, ∀ r ∈ t.nodes, realOf (getId r) = r
  inj : ∀ t ∈ G, ∀ r ∈ t.nodes, ∀ r', getId r = getId r' → r = r'

/-- The real id of a node. -/
def NodePattern.real (a : String → UInt64) : NodePattern → UInt64
  | .variableName x => a x
  | .concreteNodeId id => id

/-- The id of a node, in an assignment of ids. -/
def NodePattern.idIn (getId : UInt64 → UInt64) (a : String → UInt64) : NodePattern → UInt64
  | .variableName x => a x
  | .concreteNodeId id => getId id

/-- A pattern of a query: a subject, a real id, an object. -/
structure RealPattern where
  subject : NodePattern
  predicate : UInt64
  object : NodePattern

/-- The patterns of the message. -/
def messagePatterns (ms : List RealPattern) : List BGPTriple := ms.map fun m => patternOf m.subject m.predicate m.object

/-- **An assignment of real ids matches the patterns** in a graph; a predicate with the id 0 matches
nothing. -/
def MatchesGraph (G : Set TripleNodeId) (getId : UInt64 → UInt64) (ms : List RealPattern) (a : String → UInt64) : Prop :=
  ∀ m ∈ ms, (⟨m.subject.real a, m.predicate, m.object.real a⟩ : TripleNodeId) ∈ G ∧ getId m.predicate ≠ 0

/-- A node of a resolved pattern. -/
theorem eval_messagePattern (getId : UInt64 → UInt64) (n : NodePattern) (a : String → UInt64) :
    BGPNode.eval a { protoToBgpNode n with cacheNodeId := getCacheId getId (protoToBgpNode n) } = n.idIn getId a := by
  cases n <;> simp [protoToBgpNode, BGPNode.eval, getCacheId, NodePattern.idIn]

namespace Store.StandsFor

variable {store : Store} {getId realOf : UInt64 → UInt64} {G : Set TripleNodeId} (h : store.StandsFor getId realOf G)
  (ms : List RealPattern)
include h

/-- The patterns, in ids. -/
theorem satisfies_ids (a : String → UInt64) :
    store.Satisfies ((messagePatterns ms).map (BGPTriple.resolve getId)) a ↔ ∀ m ∈ ms, getId m.predicate ≠ 0 ∧
      ∃ t ∈ G, getId t.subject = m.subject.idIn getId a ∧ getId t.predicate = getId m.predicate ∧
        getId t.object = m.object.idIn getId a := by
  have hone : ∀ m : RealPattern, (((patternOf m.subject m.predicate m.object).resolve getId).predicate.cacheNodeId ≠ 0 ∧
      ∃ S, store ((patternOf m.subject m.predicate m.object).resolve getId).predicate.cacheNodeId = some S ∧
        (((patternOf m.subject m.predicate m.object).resolve getId).subject.eval a,
          ((patternOf m.subject m.predicate m.object).resolve getId).object.eval a) ∈ S) ↔
      getId m.predicate ≠ 0 ∧ ∃ t ∈ G, getId t.subject = m.subject.idIn getId a ∧ getId t.predicate = getId m.predicate ∧
        getId t.object = m.object.idIn getId a := by
    intro m
    have hp : ((patternOf m.subject m.predicate m.object).resolve getId).predicate.cacheNodeId = getId m.predicate := by
      simp [patternOf, BGPTriple.resolve, protoToBgpNode, getCacheId]
    have hs : ((patternOf m.subject m.predicate m.object).resolve getId).subject.eval a = m.subject.idIn getId a :=
      eval_messagePattern getId m.subject a
    have ho : ((patternOf m.subject m.predicate m.object).resolve getId).object.eval a = m.object.idIn getId a :=
      eval_messagePattern getId m.object a
    rw [hp, hs, ho, h.points]
  unfold Store.Satisfies messagePatterns
  simp only [List.map_map, List.mem_map, Function.comp_apply, forall_exists_index, and_imp, forall_apply_eq_imp_iff₂, hone]

/-- A node with the id of a node of the graph is that node. -/
theorem real_of_idIn {t : TripleNodeId} (ht : t ∈ G) {r : UInt64} (hr : r ∈ t.nodes) {n : NodePattern} {a : String → UInt64}
    (hn : getId r = n.idIn getId a) : n.real (realOf ∘ a) = r := by
  cases n with
  | variableName x =>
    have hx : getId r = a x := hn
    show realOf (a x) = r
    rw [← hx]
    exact h.real t ht r hr
  | concreteNodeId id => exact (h.inj t ht r hr id hn).symm

/-- **What satisfies the patterns matches them in real ids.** -/
theorem satisfies_real {a : String → UInt64} (ha : store.Satisfies ((messagePatterns ms).map (BGPTriple.resolve getId)) a) :
    MatchesGraph G getId ms (realOf ∘ a) := by
  rw [h.satisfies_ids] at ha
  intro m hm
  obtain ⟨h0, t, ht, h1, h2, h3⟩ := ha m hm
  have hs := h.real_of_idIn ht (by simp [TripleNodeId.nodes]) h1
  have hp := h.inj t ht t.predicate (by simp [TripleNodeId.nodes]) _ h2
  have ho := h.real_of_idIn ht (by simp [TripleNodeId.nodes]) h3
  rw [hs, ← hp, ho]
  refine ⟨ht, ?_⟩
  rw [h2]
  exact h0

/-- **What matches the patterns in real ids satisfies them.** -/
theorem satisfies_of_real {a : String → UInt64} (ha : MatchesGraph G getId ms a) :
    store.Satisfies ((messagePatterns ms).map (BGPTriple.resolve getId)) (getId ∘ a) := by
  rw [h.satisfies_ids]
  intro m hm
  obtain ⟨ht, h0⟩ := ha m hm
  have hid : ∀ n : NodePattern, n.idIn getId (getId ∘ a) = getId (n.real a) := by
    intro n
    cases n <;> rfl
  refine ⟨h0, _, ht, ?_, rfl, ?_⟩
  · rw [hid]
  · rw [hid]

/-- The variables have ids of nodes of the graph. -/
theorem satisfies_vars {a : String → UInt64} (ha : store.Satisfies ((messagePatterns ms).map (BGPTriple.resolve getId)) a)
    {x : String} (hx : x ∈ patternVars (messagePatterns ms)) : ∃ t ∈ G, ∃ r ∈ t.nodes, a x = getId r := by
  rw [h.satisfies_ids] at ha
  obtain ⟨t, ht, hvar⟩ := hx
  obtain ⟨m, hm, rfl⟩ := List.mem_map.1 ht
  obtain ⟨-, t, ht, h1, -, h3⟩ := ha m hm
  rcases hvar with ⟨hs, hname⟩ | ⟨ho, hname⟩
  · refine ⟨t, ht, t.subject, by simp [TripleNodeId.nodes], ?_⟩
    cases hn : m.subject with
    | variableName y =>
      simp only [patternOf, hn, protoToBgpNode] at hname
      rw [h1, hn, ← hname]
      rfl
    | concreteNodeId id => simp [patternOf, hn, protoToBgpNode] at hs
  · refine ⟨t, ht, t.object, by simp [TripleNodeId.nodes], ?_⟩
    cases hn : m.object with
    | variableName y =>
      simp only [patternOf, hn, protoToBgpNode] at hname
      rw [h3, hn, ← hname]
      rfl
    | concreteNodeId id => simp [patternOf, hn, protoToBgpNode] at ho

/-- The values of the variables go to real ids and back. -/
theorem getId_realOf {a : String → UInt64} (ha : store.Satisfies ((messagePatterns ms).map (BGPTriple.resolve getId)) a)
    {x : String} (hx : x ∈ patternVars (messagePatterns ms)) : getId (realOf (a x)) = a x := by
  obtain ⟨t, ht, r, hr, hax⟩ := h.satisfies_vars ms ha hx
  rw [hax, h.real t ht r hr]

/-- The real ids of the variables go to ids and back. -/
theorem realOf_getId {a : String → UInt64} (ha : MatchesGraph G getId ms a) {x : String}
    (hx : x ∈ patternVars (messagePatterns ms)) : realOf (getId (a x)) = a x := by
  obtain ⟨t, ht, r, hr, hax⟩ := h.satisfies_vars ms (h.satisfies_of_real ms ha) hx
  obtain rfl : r = a x := h.inj t ht r hr _ hax.symm
  exact h.real t ht _ hr

end Store.StandsFor

/-! ## Rows -/

section Rows

variable {store : Store} {getId realOf : UInt64 → UInt64} {G : Set TripleNodeId} {ms : List RealPattern} {rows : List Row}

/-- The rows are, each once, those of the assignments that satisfy the patterns in the store. -/
structure RowsOf (store : Store) (getId : UInt64 → UInt64) (ms : List RealPattern) (rows : List Row) : Prop where
  nodup : rows.Nodup
  mem : ∀ row, row ∈ rows ↔ ∃ a, store.Satisfies ((messagePatterns ms).map (BGPTriple.resolve getId)) a ∧
    (findHeaders .construct ((messagePatterns ms).map (BGPTriple.resolve getId))).layout a = row

/-- **The rows of a query, in real ids**, where `f` gives the real ids of what a row binds the variables
to, and `g` is how they are laid out. -/
theorem RowsOf.real (h : RowsOf store getId ms rows) (hst : store.StandsFor getId realOf G) {f : Row → List UInt64}
    {g : (String → UInt64) → List UInt64}
    (hg : ∀ a b, g a = g b ↔ ∀ x ∈ patternVars (messagePatterns ms), a x = b x)
    (hf : ∀ a, f ((findHeaders .construct ((messagePatterns ms).map (BGPTriple.resolve getId))).layout a) =
      g (realOf ∘ a)) :
    (rows.map f).Nodup ∧ ∀ row, row ∈ rows.map f ↔ ∃ a, MatchesGraph G getId ms a ∧ g a = row := by
  set resolved := (messagePatterns ms).map (BGPTriple.resolve getId) with hresolved
  have hof := findHeaders_of VarIndexManager.construct_valid resolved
  refine ⟨List.Nodup.map_on (fun r hr r' hr' he => ?_) h.nodup, fun row => ⟨fun hrow => ?_, ?_⟩⟩
  · obtain ⟨a, ha, rfl⟩ := (h.mem r).1 hr
    obtain ⟨b, hb, rfl⟩ := (h.mem r').1 hr'
    rw [hf, hf, hg] at he
    rw [hof.layout_inj, patternVars_resolve]
    intro x hx
    have hx' : realOf (a x) = realOf (b x) := he x hx
    rw [← hst.getId_realOf ms ha hx, hx', hst.getId_realOf ms hb hx]
  · obtain ⟨r, hr, rfl⟩ := List.mem_map.1 hrow
    obtain ⟨a, ha, rfl⟩ := (h.mem r).1 hr
    exact ⟨realOf ∘ a, hst.satisfies_real ms ha, (hf a).symm⟩
  · rintro ⟨a, ha, rfl⟩
    have hsat := hst.satisfies_of_real ms ha
    refine List.mem_map.2 ⟨_, (h.mem _).2 ⟨getId ∘ a, hsat, rfl⟩, ?_⟩
    rw [hf, hg]
    intro x hx
    exact hst.realOf_getId ms ha hx

end Rows

end K2Cache
