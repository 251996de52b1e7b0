import K2Cache.Proof.StoredGraph

/-!
# What the builder stores

An index opened on a built file lists the predicates of the input, each once, and the trees it
fetches are the graph of the input, whatever was fetched before. The trees in the file are the
rest of it behind the header, one behind the other (`Tile`).

`build_stores`: if every predicate is contiguous in the input.
-/

namespace K2Cache

open Lib

variable {T : Type} {P : CacheParams T} {ops : TreeOps T}

/-! ## The graph of the input -/

/-- Triples that are sorted by predicate have each predicate in one place. -/
theorem contiguous_of_sorted {l : List RDFTriple} (h : l.Pairwise fun t u => t.predicate ≤ u.predicate) : Contiguous l := by
  intro a b c x y hl hxy z hz
  rw [hl] at h
  obtain ⟨hx, hrest⟩ := List.pairwise_cons.1 (List.pairwise_append.1 h).2.1
  have hzy := (List.pairwise_append.1 hrest).2.2 z hz y List.mem_cons_self
  have hxz := hx z (List.mem_append_left _ hz)
  exact le_antisymm (by rw [hxy]; exact hzy) hxz

/-- The points of a predicate. -/
def graphOf (l : List RDFTriple) (p : UInt64) : Set Point := {x | ⟨x.1, p, x.2⟩ ∈ l}

theorem runs_flatMap (l : List RDFTriple) : (runs l).flatMap Prod.snd = l := by
  fun_induction runs l with
  | case1 => rfl
  | case2 t l ih =>
    rw [List.flatMap_cons, ih, List.cons_append, List.takeWhile_append_dropWhile]

theorem predicate_of_mem_runs {l : List RDFTriple} {r : UInt64 × List RDFTriple} (hr : r ∈ runs l) {t : RDFTriple}
    (ht : t ∈ r.2) : t.predicate = r.1 := by
  fun_induction runs l with
  | case1 => simp at hr
  | case2 u l ih =>
    rcases List.mem_cons.1 hr with rfl | hr
    · rcases List.mem_cons.1 ht with rfl | ht
      · rfl
      · have hp := List.mem_takeWhile_imp ht
        exact of_decide_eq_true hp
    · exact ih hr

theorem mem_runs_fst {l : List RDFTriple} {p : UInt64} : p ∈ (runs l).map Prod.fst ↔ ∃ t ∈ l, t.predicate = p := by
  constructor
  · exact mem_of_mem_runs
  · rintro ⟨t, ht, rfl⟩
    rw [← runs_flatMap l] at ht
    obtain ⟨r, hr, htr⟩ := List.mem_flatMap.1 ht
    exact List.mem_map.2 ⟨r, hr, (predicate_of_mem_runs hr htr).symm⟩

/-- The triples of the only run of a predicate are all that have the predicate. -/
theorem mem_run_iff {l : List RDFTriple} (h : Contiguous l) {r : UInt64 × List RDFTriple} (hr : r ∈ runs l) (t : RDFTriple) :
    t ∈ r.2 ↔ t ∈ l ∧ t.predicate = r.1 := by
  constructor
  · intro ht
    have hp := predicate_of_mem_runs hr ht
    rw [← runs_flatMap l]
    exact ⟨List.mem_flatMap.2 ⟨r, hr, ht⟩, hp⟩
  · rintro ⟨ht, hp⟩
    rw [← runs_flatMap l] at ht
    obtain ⟨r', hr', htr'⟩ := List.mem_flatMap.1 ht
    have hsame : r'.1 = r.1 := (predicate_of_mem_runs hr' htr').symm.trans hp
    obtain rfl := List.inj_on_of_nodup_map (runs_nodup h) hr' hr hsame
    exact htr'

open K2TreesFeedFromSortedTriplesFeed PredicatesIndexFileBuilder

/-- The points of a built tree. -/
theorem points_treeOf (hl : ops.Lawful) (config : K2TreeConfig) (l : List RDFTriple) :
    ops.points (treeOf ops config l) = {x | ∃ t ∈ l, (t.subject, t.object) = x} := by
  have hfold : treeOf ops config l = (l.map fun t => (t.subject, t.object)).foldl ops.insert (ops.empty config) := by
    rw [treeOf, List.foldl_map]
  rw [hfold, hl.points_foldl_insert, hl.points_empty, Set.empty_union]
  ext x
  simp

theorem points_runTree (hl : ops.Lawful) (config : K2TreeConfig) {l : List RDFTriple} (h : Contiguous l)
    {r : UInt64 × List RDFTriple} (hr : r ∈ runs l) : ops.points (runTree ops config r) = graphOf l r.1 := by
  rw [runTree, points_treeOf hl]
  ext ⟨s, o⟩
  constructor
  · rintro ⟨t, ht, he⟩
    obtain ⟨hmem, hp⟩ := (mem_run_iff h hr t).1 ht
    obtain ⟨rfl, rfl⟩ := Prod.mk.inj he
    show (⟨t.subject, r.1, t.object⟩ : RDFTriple) ∈ l
    rw [← hp]
    exact hmem
  · intro hmem
    exact ⟨⟨s, r.1, o⟩, (mem_run_iff h hr _).2 ⟨hmem, rfl⟩, rfl⟩

/-! ## Offsets -/

/-- The trees of the entries stand one behind the other, from one byte up to another. -/
def Tile : ℕ → List PredicateMetadata → ℕ → Prop
  | start, [], stop => start = stop
  | start, e :: es, stop => e.treeOffset = start ∧ Tile (start + e.treeSize) es stop

theorem tile_of_offsets (w : T → Bytes) {es : List PredicateMetadata} {trees : List T} (hlen : es.length = trees.length)
    (start : ℕ) (h : ∀ i e t, es[i]? = some e → trees[i]? = some t →
      e.treeOffset = start + ((trees.take i).flatMap w).length ∧ e.treeSize = (w t).length) :
    Tile start es (start + (trees.flatMap w).length) := by
  induction es generalizing trees start with
  | nil =>
    obtain rfl := List.length_eq_zero_iff.1 hlen.symm
    exact (Nat.add_zero start).symm
  | cons e es ih =>
    cases trees with
    | nil => simp at hlen
    | cons t trees =>
      obtain ⟨hoff, hsize⟩ := h 0 e t rfl rfl
      refine ⟨by simpa using hoff, ?_⟩
      have hlen' : es.length = trees.length := by simpa using hlen
      have hrest := ih hlen' (start + e.treeSize) fun i e' t' he ht => by
        obtain ⟨h1, h2⟩ := h (i + 1) e' t' (by simpa using he) (by simpa using ht)
        refine ⟨?_, h2⟩
        rw [List.take_succ_cons, List.flatMap_cons, List.length_append] at h1
        omega
      rw [List.flatMap_cons, List.length_append, ← hsize, ← Nat.add_assoc]
      exact hrest

/-- In a file that lists no predicate twice, the trees are in the order of the list. -/
theorem Index.Layout.tile {md : PredicatesCacheMetadata} {trees : List T} {data : Bytes} (h : Index.Layout ops md trees data)
    (hnodup : md.predicatesIds.Nodup) : ∃ es, md.predicatesIds.mapM md.metadataMap.find? = some es ∧
      Tile (20 + 52 * md.predicatesIds.length) es data.length := by
  set g := fun p => (md.metadataMap.find? p).getD .zero with hg
  have hfind : ∀ p ∈ md.predicatesIds, md.metadataMap.find? p = some (g p) := by
    intro p hp
    obtain ⟨e, he⟩ := (OrdMap.contains_iff _).1 ((h.keys p).2 hp)
    simp only [hg, he, Option.getD_some]
  refine ⟨_, mapM_of_find? md.predicatesIds hfind, ?_⟩
  rw [h.bytes, List.length_append, headerBytes_length]
  refine tile_of_offsets ops.writeToOstream (by rw [List.length_map, h.length]) _ fun i e t he ht => ?_
  rw [List.getElem?_map, Option.map_eq_some_iff] at he
  obtain ⟨p, hp, rfl⟩ := he
  obtain ⟨t', ht'⟩ := h.placed p (g p) (hfind p (List.mem_of_getElem? hp))
  -- the place of the entry is that of the predicate in the list
  obtain ⟨j, hj, htj, hoff⟩ := ht'.place
  obtain rfl : i = j := (List.getElem?_inj (List.getElem?_eq_some_iff.1 hp).1 hnodup).1 (hp.trans hj.symm)
  obtain rfl : t = t' := Option.some.inj (ht.symm.trans htj)
  exact ⟨hoff, ht'.size⟩

/-! ## The built index -/

/-- **The index stores the triples**: it lists their predicates, each once; after any fetches, a
fetch of one of them returns a tree with its points; and the trees of the entries, in the order
of the list, are the rest of the file behind the header. -/
structure StoresTriples (P : CacheParams T) (l : List RDFTriple) (data : Bytes) (s : Manager T) : Prop where
  nodup : s.index.metadata.predicatesIds.Nodup
  listed : ∀ p, p ∈ s.index.metadata.predicatesIds ↔ ∃ t ∈ l, t.predicate = p
  fetched : ∀ before : List UInt64, (∀ p ∈ before, p ∈ s.index.metadata.predicatesIds) →
    ∃ s₁, (indexMachine P).run (before.map .fetchK2tree) s = some s₁ ∧ ∀ p ∈ s.index.metadata.predicatesIds,
      ∃ t s₂, Manager.fetchK2tree P p s₁ = (.ok ⟨true, some t⟩, s₂) ∧ ∀ x, P.ops.has t x = true ↔ ⟨x.1, p, x.2⟩ ∈ l
  tiled : ∃ es, s.index.metadata.predicatesIds.mapM s.index.metadata.metadataMap.find? = some es ∧
    Tile (20 + 52 * s.index.metadata.predicatesIds.length) es data.length

/-- The length of the file: its header and its trees. -/
def builtLength (ops : TreeOps T) (config : K2TreeConfig) (l : List RDFTriple) : ℕ :=
  20 + 52 * (runs l).length + ((runs l).flatMap fun r => ops.writeToOstream (runTree ops config r)).length

/-- An index that stores the graph of the triples, opened on their file. -/
theorem StoresGraph.stores (hl : P.ops.Lawful) {l : List RDFTriple} {ids : List UInt64} {s : Manager T}
    (h : StoresGraph P ids (graphOf l) s) (before : List UInt64) (hbefore : ∀ p ∈ before, p ∈ ids) :
    ∃ s₁, (indexMachine P).run (before.map .fetchK2tree) s = some s₁ ∧ ∀ p ∈ ids,
      ∃ t s₂, Manager.fetchK2tree P p s₁ = (.ok ⟨true, some t⟩, s₂) ∧ ∀ x, P.ops.has t x = true ↔ ⟨x.1, p, x.2⟩ ∈ l := by
  have hserving := serving_storesGraph hl ids (graphOf l)
  induction before generalizing s with
  | nil =>
    refine ⟨s, rfl, fun p hp => ?_⟩
    obtain ⟨t, s₂, hfetch, hpoints, -⟩ := hserving.fetch s h p hp
    exact ⟨t, s₂, hfetch, fun x => Set.ext_iff.1 hpoints x⟩
  | cons q before ih =>
    obtain ⟨t, s₂, hfetch, -, hgood⟩ := hserving.fetch s h q (hbefore q List.mem_cons_self)
    obtain ⟨s₁, hrun, hall⟩ := ih hgood fun p hp => hbefore p (List.mem_cons_of_mem _ hp)
    refine ⟨s₁, ?_, hall⟩
    have hstep : (indexMachine P).step s (.fetchK2tree q) = some s₂ := by
      have hcall : IndexOp.call P (.fetchK2tree q) s = (.ok (), s₂) := Act.bind_ok hfetch
      simp [indexMachine, hcall]
    rw [List.map_cons, Machine.run, hstep]
    exact hrun

/-- **The builder stores its input.** -/
theorem build_stores (hl : P.ops.Lawful) (hsized : ∀ t, P.ops.measure t < 2 ^ 64) (input : IStream) (config : K2TreeConfig)
    (hc : Contiguous (inputTriples input)) (hlen : builtLength P.ops config (inputTriples input) < 2 ^ 64) :
    ∃ md out, build P.ops P.md5calc input config = .ok (md, out) ∧ ∀ d : Disk, d (FileRWHandler.file .index) = some out.buf →
      (Manager.openIndex d : Manager T).index.metadata = md ∧
        StoresTriples P (inputTriples input) out.buf (Manager.openIndex d) := by
  set l := inputTriples input with hldef
  have hsizes : ∀ r ∈ runs l, (P.ops.writeToOstream (runTree P.ops config r)).length < 2 ^ 64 := by
    intro r hr
    have hle : (P.ops.writeToOstream (runTree P.ops config r)).length ≤
        ((runs l).flatMap fun r => P.ops.writeToOstream (runTree P.ops config r)).length := by
      rw [List.length_flatMap]
      exact List.single_le_sum (fun _ _ => Nat.zero_le _) _ (List.mem_map.2 ⟨r, hr, rfl⟩)
    unfold builtLength at hlen
    omega
  obtain ⟨m, out, hb, hlay, hmem⟩ := build_spec P.md5calc input config fun r hr => ⟨hsized _, hsizes r hr⟩
  refine ⟨_, out, hb, fun d hd => ?_⟩
  have hfile : IndexFile P.ops ⟨m, (runs l).map Prod.fst, config⟩ out.buf := .of_layout hsized hlay hmem
  have hbuf : out.buf.length < 2 ^ 64 := by
    rw [hlay.bytes, List.length_append, Index.headerBytes_length, List.length_map, List.flatMap_map]
    exact hlen
  have hon : OnFile _ out.buf (Manager.openIndex d : Manager T) := JustOpened.onFile (.inl rfl) hd hfile hbuf
  have h1 := hon.index.metadata
  have hbytes : (d.bytes (FileRWHandler.file .index)).length < 2 ^ 64 := by
    rw [Disk.bytes, hd]
    exact hbuf
  obtain ⟨hsound, hserves⟩ := HasIndexFile.opened ⟨_, _, hfile, hon⟩ hbytes
  have hnodup := runs_nodup hc
  have hgraph : StoresGraph P ((runs l).map Prod.fst) (graphOf l) (Manager.openIndex d) := by
    refine .plain ⟨hsound, rfl⟩ (by rw [h1]) fun p hp => ?_
    -- the tree at the place of the predicate is that of its run
    obtain ⟨e, he⟩ := (OrdMap.contains_iff _).1 ((hlay.keys p).2 hp)
    obtain ⟨t, ht⟩ := hlay.placed p e he
    obtain ⟨i, hi, hti, -⟩ := ht.place
    rw [List.getElem?_map, Option.map_eq_some_iff] at hi hti
    obtain ⟨r, hr, rfl⟩ := hi
    obtain ⟨r', hr', rfl⟩ := hti
    obtain rfl : r = r' := Option.some.inj (hr.symm.trans hr')
    refine ⟨_, hserves _ (some _) ⟨e, by rw [h1]; exact he, ?_⟩, points_runTree hl config hc (List.mem_of_getElem? hr)⟩
    rw [hon.index.data]
    exact hlay.holdsTree ht
  refine ⟨h1, ?_⟩
  refine ⟨by rw [h1]; exact hnodup, fun p => by rw [h1]; exact mem_runs_fst, fun before hbefore => ?_, ?_⟩
  · rw [h1] at hbefore ⊢
    exact hgraph.stores hl before hbefore
  · rw [h1]
    exact hlay.tile hnodup

namespace PointTree

/-- Four triples of the predicates 3 and 5, one of them twice. -/
def fourTriples : IStream :=
  .ofBytes ([4, 4, 3, 4, 1, 5, 1, 1, 5, 1, 2, 5, 3].flatMap u64Bytes)

theorem inputTriples_fourTriples : inputTriples fourTriples = [⟨4, 3, 4⟩, ⟨1, 5, 1⟩, ⟨1, 5, 1⟩, ⟨2, 5, 3⟩] := by decide +kernel

end PointTree

open PointTree in
/-- The index of the two predicates. -/
theorem build_stores_four : ∃ md out, build byteOps (byteParams .binary).md5calc fourTriples ⟨32, 256, 10⟩ = .ok (md, out) ∧
    ∀ d : Disk, d (FileRWHandler.file .index) = some out.buf →
      (Manager.openIndex d : Manager PointTree).index.metadata = md ∧
        StoresTriples (byteParams .binary) [⟨4, 3, 4⟩, ⟨1, 5, 1⟩, ⟨1, 5, 1⟩, ⟨2, 5, 3⟩] out.buf (Manager.openIndex d) := by
  have h := build_stores (P := byteParams .binary) byteOps_lawful (fun _ => Nat.one_lt_two_pow (by decide)) fourTriples
    ⟨32, 256, 10⟩ (contiguous_of_sorted (by rw [inputTriples_fourTriples]; decide)) (by
      rw [inputTriples_fourTriples]
      have hruns : runs [⟨4, 3, 4⟩, ⟨1, 5, 1⟩, ⟨1, 5, 1⟩, ⟨2, 5, 3⟩] =
          [(3, [⟨4, 3, 4⟩]), (5, [⟨1, 5, 1⟩, ⟨1, 5, 1⟩, ⟨2, 5, 3⟩])] := by simp [runs]
      rw [builtLength, hruns]
      decide +kernel)
  rw [inputTriples_fourTriples] at h
  exact h

end K2Cache
