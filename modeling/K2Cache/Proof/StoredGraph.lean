import K2Cache.Proof.FullSync
import K2Cache.Proof.PlainIndex

/-!
# The graph of an index

The trees that an index serves of its predicates are a graph (`StoresGraph`). A fetch returns
a tree of it and leaves it as it was, whether there is a log or not
(`serving_storesGraph`).
-/

namespace K2Cache

variable {T : Type} {P : CacheParams T}

/-- Fetches from the good states return the trees of the graph. -/
structure Serving (P : CacheParams T) (ids : List UInt64) (graph : UInt64 → Set Point) (Good : Manager T → Prop) : Prop where
  fetch : ∀ s, Good s → ∀ p ∈ ids,
    ∃ t s', Manager.fetchK2tree P p s = (.ok ⟨true, some t⟩, s') ∧ P.ops.points t = graph p ∧ Good s'
  ids : ∀ s, Good s → s.index.metadata.predicatesIds = ids

/-- The file of an index that changed one tree. -/
theorem Index.FileServes.same {ops : TreeOps T} {x x' : Index T} {p : UInt64} {o : Option T} (h : x.FileServes ops p o)
    (hs : Index.SameFile x x') : x'.FileServes ops p o := by
  cases o with
  | none =>
    show x'.metadata.metadataMap.find? p = none
    rw [hs.metadata]
    exact h
  | some t =>
    obtain ⟨md, hmd, ht⟩ := h
    exact ⟨md, by rw [hs.metadata, hmd], hs.is.1 ▸ ht⟩

theorem Index.Serves.touch {ops : TreeOps T} {x x' : Index T} {p q : UInt64} {o : Option T} (h : x.Serves ops q o)
    (ht : Index.Touches p x x') (hq : q ≠ p) : x'.Serves ops q o := by
  rcases h with ⟨t, hfind, he⟩ | ⟨hnone, hf⟩
  · exact .inl ⟨t, (ht.other q hq).trans hfind, he⟩
  · exact .inr ⟨(ht.other q hq).trans hnone, hf.same ht.toSameFile⟩

theorem Manager.Serves.touch {ops : TreeOps T} {recs : Records T} {s s' : Manager T} {p q : UInt64} {o : Option (Set Point)}
    (h : Manager.Serves ops recs s q o) (ht : Index.Touches p s.index s'.index) (hq : q ≠ p) : Manager.Serves ops recs s' q o := by
  rcases h with ⟨t, hfind, he⟩ | ⟨hnone, f, hf, he⟩
  · exact .inl ⟨t, (ht.other q hq).trans hfind, he⟩
  · exact .inr ⟨(ht.other q hq).trans hnone, f, hf.same ht.toSameFile, he⟩

/-- **The index stores the graph**: the trees it serves of its predicates, with what a log has
of them or without a log, have the points of the graph. -/
inductive StoresGraph (P : CacheParams T) (ids : List UInt64) (graph : UInt64 → Set Point) (s : Manager T) : Prop where
  | logged {E : UInt64 → Prop} {recs : Records T} (h : Manager.Sound P.ops E recs s) (hids : s.index.metadata.predicatesIds = ids)
    (hserves : ∀ p ∈ ids, Manager.Serves P.ops recs s p (some (graph p)))
  | plain (h : s.index.Plain P.ops) (hids : s.index.metadata.predicatesIds = ids)
    (hserves : ∀ p ∈ ids, ∃ t, s.index.Serves P.ops p (some t) ∧ P.ops.points t = graph p)

/-- **A fetch returns the tree of the graph**, and the graph stays. -/
theorem serving_storesGraph (hl : P.ops.Lawful) (ids : List UInt64) (graph : UInt64 → Set Point) :
    Serving P ids graph (StoresGraph P ids graph) where
  ids s hs := by
    cases hs with
    | logged h hids _ => exact hids
    | plain h hids _ => exact hids
  fetch s hs p hp := by
    cases hs with
    | logged h hids hserves =>
      obtain ⟨o, s', h1, h2, h3, h4, h5⟩ := Manager.fetchK2tree_sound hl h p
      have ho := h5.unique hl (hserves p hp)
      obtain ⟨t, rfl, ht⟩ := Option.map_eq_some_iff.1 ho
      refine ⟨t, s', h1, ht, .logged h2 (by rw [h3.metadata, hids]) fun q hq => ?_⟩
      by_cases hqp : q = p
      · subst hqp
        exact .inl ⟨t, h4, congrArg some ht.symm⟩
      · exact (hserves q hq).touch h3 hqp
    | plain h hids hserves =>
      obtain ⟨o, s', h1, h2, h3, h4, h5⟩ := Manager.fetchK2tree_plain hl h p
      obtain ⟨t, hst, ht⟩ := hserves p hp
      obtain rfl := h2.unique hl hst
      refine ⟨t, s', h1, ht, .plain h3 (by rw [h4.metadata, hids]) fun q hq => ?_⟩
      by_cases hqp : q = p
      · subst hqp
        exact ⟨t, .inl ⟨t, h5, rfl⟩, ht⟩
      · obtain ⟨t', hst', ht'⟩ := hserves q hq
        exact ⟨t', hst'.touch h4 hqp, ht'⟩

end K2Cache
