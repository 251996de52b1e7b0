import K2Cache.Proof.IndexFile
import K2Cache.Spec.Builder

/-!
# The file the builder writes

The triples of the input fall into runs of the same predicate (`runs`), and the file has a
tree for each run, in their order (`build_spec`). If every predicate is contiguous in the
input, no predicate has two runs (`runs_nodup`).
-/

namespace K2Cache

open Lib

variable {T : Type} {ops : TreeOps T}

/-! ## Runs -/

/-- The maximal runs of consecutive triples with the same predicate. -/
def runs : List RDFTriple → List (UInt64 × List RDFTriple)
  | [] => []
  | t :: l =>
    (t.predicate, t :: l.takeWhile (fun u => u.predicate = t.predicate)) ::
      runs (l.dropWhile (fun u => u.predicate = t.predicate))
termination_by l => l.length
decreasing_by
  have := (List.dropWhile_sublist (fun u : RDFTriple => decide (u.predicate = t.predicate)) (l := l)).length_le
  simp only [List.length_cons]
  omega

/-- The triples of a predicate stand next to each other. -/
def Contiguous (l : List RDFTriple) : Prop :=
  ∀ a b c x y, l = a ++ x :: (b ++ y :: c) → x.predicate = y.predicate → ∀ z ∈ b, z.predicate = x.predicate

theorem Contiguous.suffix {l l' : List RDFTriple} (h : Contiguous (l ++ l')) : Contiguous l' := by
  intro a b c x y hl
  exact h (l ++ a) b c x y (by rw [hl, List.append_assoc])

theorem runs_length_le (l : List RDFTriple) : (runs l).length ≤ l.length := by
  fun_induction runs l with
  | case1 => simp
  | case2 t l ih =>
    have := (List.dropWhile_sublist (fun u : RDFTriple => decide (u.predicate = t.predicate)) (l := l)).length_le
    simp only [List.length_cons]
    omega

theorem mem_of_mem_runs {l : List RDFTriple} {p : UInt64} (h : p ∈ (runs l).map Prod.fst) : ∃ t ∈ l, t.predicate = p := by
  fun_induction runs l with
  | case1 => simp at h
  | case2 t l ih =>
    rw [List.map_cons, List.mem_cons] at h
    rcases h with rfl | h
    · exact ⟨t, List.mem_cons_self, rfl⟩
    · obtain ⟨u, hu, hup⟩ := ih h
      exact ⟨u, List.mem_cons_of_mem _ ((List.dropWhile_sublist _).subset hu), hup⟩

/-- **A contiguous predicate has one run.** -/
theorem runs_nodup {l : List RDFTriple} (h : Contiguous l) : ((runs l).map Prod.fst).Nodup := by
  fun_induction runs l with
  | case1 => simp
  | case2 t l ih =>
    have hsplit : l.takeWhile (fun u => u.predicate = t.predicate) ++ l.dropWhile (fun u => u.predicate = t.predicate) = l :=
      List.takeWhile_append_dropWhile
    rw [List.map_cons, List.nodup_cons]
    refine ⟨fun hmem => ?_, ih ?_⟩
    · -- a triple of the predicate behind its run, and the one that ended the run
      obtain ⟨y, hy, hyp⟩ := mem_of_mem_runs hmem
      cases hrest : l.dropWhile (fun u => u.predicate = t.predicate) with
      | nil => simp [hrest] at hy
      | cons z rest =>
        have hz : z.predicate ≠ t.predicate := by
          have := List.head_dropWhile_not (fun u : RDFTriple => decide (u.predicate = t.predicate)) (by simp [hrest] : l.dropWhile _ ≠ [])
          simpa [hrest] using this
        rw [hrest] at hy
        have hy' : y ∈ rest := (List.mem_cons.1 hy).resolve_left (by rintro rfl; exact hz hyp)
        obtain ⟨b, c, rfl⟩ := List.append_of_mem hy'
        refine hz (h [] (l.takeWhile (fun u => u.predicate = t.predicate) ++ z :: b) c t y ?_ hyp.symm z (by simp))
        rw [List.nil_append, List.append_assoc, List.cons_append, ← hrest, hsplit]
    · refine Contiguous.suffix (l := t :: l.takeWhile (fun u => u.predicate = t.predicate)) ?_
      rw [List.cons_append, hsplit]
      exact h

/-! ## Feeds -/

/-- The triples of an input stream. -/
def inputTriples (s : IStream) : List RDFTriple :=
  (IStream.readMany TriplesFeedSBPFromIstream.readTriple s.readU64.1.toNat s.readU64.2).1

theorem readMany_length {α : Type} (f : IStream → α × IStream) (n : ℕ) (s : IStream) :
    (IStream.readMany f n s).1.length = n := by
  induction n generalizing s with
  | zero => rfl
  | succ n ih => simp [IStream.readMany, ih]

theorem toNat_succ {a b : UInt64} (h : a < b) : (a + 1).toNat = a.toNat + 1 := by
  have h1 : a.toNat < b.toNat := h
  have h2 := b.toNat_lt
  rw [UInt64.toNat_add]
  exact Nat.mod_eq_of_lt (by simp; omega)

namespace TriplesFeedSBPFromIstream

/-- What a feed still gives. -/
structure Gives (f : TriplesFeedSBPFromIstream) (l : List RDFTriple) : Prop where
  count : f.cnt.toNat + l.length = f.triplesNumber.toNat
  triples : (IStream.readMany readTriple l.length f.is).1 = l

theorem gives_construct (s : IStream) : Gives (construct s) (inputTriples s) := by
  have hlen : (inputTriples s).length = s.readU64.1.toNat := readMany_length _ _ _
  refine ⟨?_, ?_⟩
  · rw [hlen]
    exact Nat.zero_add _
  · rw [hlen]
    rfl

theorem Gives.hasNext_nil {f : TriplesFeedSBPFromIstream} (h : f.Gives []) : f.hasNext = false := by
  have := h.count
  rw [List.length_nil, Nat.add_zero] at this
  simp [hasNext, UInt64.toNat_inj.1 this]

theorem Gives.cons {f : TriplesFeedSBPFromIstream} {t : RDFTriple} {l : List RDFTriple} (h : f.Gives (t :: l)) :
    f.hasNext = true ∧ f.getNext.1 = t ∧ Gives f.getNext.2 l := by
  have hcount := h.count
  rw [List.length_cons] at hcount
  have hlt : f.cnt < f.triplesNumber := UInt64.lt_iff_toNat_lt.2 (by omega)
  have htriples := h.triples
  rw [List.length_cons, IStream.readMany] at htriples
  obtain ⟨h1, h2⟩ := List.cons.inj htriples
  refine ⟨by simp [hasNext, hlt], h1, ?_, h2⟩
  show (f.cnt + 1).toNat + l.length = f.triplesNumber.toNat
  rw [toNat_succ hlt]
  omega

end TriplesFeedSBPFromIstream

namespace K2TreesFeedFromSortedTriplesFeed

open TriplesFeedSBPFromIstream

/-- The tree of some triples. -/
def treeOf (ops : TreeOps T) (config : K2TreeConfig) (l : List RDFTriple) : T :=
  l.foldl (fun tree u => ops.insert tree (u.subject, u.object)) (ops.empty config)

/-- The triples that are not in a tree yet: the one that ended the last run, and what the
feed still gives. -/
structure Pending (f : K2TreesFeedFromSortedTriplesFeed) (l : List RDFTriple) : Prop where
  count : f.tripleCnt.toNat + l.length = f.feed.triplesNumber.toNat
  triples : l ≠ [] → ∃ rest, l = f.carryTriple.toList ++ rest ∧ f.feed.Gives rest

theorem Pending.hasNext {f : K2TreesFeedFromSortedTriplesFeed} {l : List RDFTriple} (h : f.Pending l) :
    f.hasNext = true ↔ l ≠ [] := by
  have hcount := h.count
  rw [K2TreesFeedFromSortedTriplesFeed.hasNext, decide_eq_true_eq, UInt64.lt_iff_toNat_lt, ← List.length_pos_iff]
  omega

/-- The rest of a run. -/
theorem takeTriples_spec (ops : TreeOps T) (f : K2TreesFeedFromSortedTriplesFeed) {l : List RDFTriple} (h : f.feed.Gives l)
    (fuel : ℕ) (hfuel : l.length ≤ fuel) (q : UInt64) (tree : T)
    (hcnt : f.tripleCnt.toNat + l.length = f.feed.triplesNumber.toNat) :
    ∃ f', takeTriples ops fuel (some q) q tree f =
        ((q, (l.takeWhile (fun u => u.predicate = q)).foldl (fun tree u => ops.insert tree (u.subject, u.object)) tree), f') ∧
      f'.config = f.config ∧ f'.feed.triplesNumber = f.feed.triplesNumber ∧
      f'.Pending (l.dropWhile (fun u => u.predicate = q)) := by
  induction l generalizing f fuel tree with
  | nil =>
    refine ⟨f, ?_, rfl, rfl, hcnt, by simp⟩
    cases fuel <;> simp [takeTriples, h.hasNext_nil]
  | cons t l ih =>
    obtain ⟨fuel, rfl⟩ : ∃ k, fuel = k + 1 := ⟨fuel - 1, by simp at hfuel; omega⟩
    obtain ⟨hnext, hfirst, hrest⟩ := h.cons
    rw [List.length_cons] at hcnt hfuel
    by_cases htq : t.predicate = q
    · -- the triple belongs to the run
      have hlt : f.tripleCnt < f.feed.triplesNumber := UInt64.lt_iff_toNat_lt.2 (by omega)
      obtain ⟨f', h1, h2, h3, h4⟩ := ih { f with feed := f.feed.getNext.2, tripleCnt := f.tripleCnt + 1 } hrest
        fuel (by omega) (ops.insert tree (t.subject, t.object)) (by
          show (f.tripleCnt + 1).toNat + l.length = f.feed.triplesNumber.toNat
          rw [toNat_succ hlt]
          omega)
      refine ⟨f', ?_, h2, h3, ?_⟩
      · simp only [takeTriples, hnext, if_true, hfirst, htq, Option.any_some, ne_eq, not_true_eq_false, decide_false,
          Bool.false_eq_true, if_false]
        rw [List.takeWhile_cons_of_pos (by simpa using htq), List.foldl_cons]
        exact h1
      · rw [List.dropWhile_cons_of_pos (by simpa using htq)]
        exact h4
    · -- the triple ends it, and is carried
      refine ⟨{ f with feed := f.feed.getNext.2, carryTriple := some t }, ?_, rfl, rfl, ?_⟩
      · have hany : (some q).any (fun x => decide (x ≠ t.predicate)) = true := by simp [Ne.symm htq]
        simp only [takeTriples, hnext, if_true, hfirst, hany]
        rw [List.takeWhile_cons_of_neg (by simpa using htq), List.foldl_nil]
      · rw [List.dropWhile_cons_of_neg (by simpa using htq)]
        exact ⟨by rw [List.length_cons]; exact hcnt, fun _ => ⟨l, rfl, hrest⟩⟩

/-- **`get_next`** gives the tree of the next run. -/
theorem getNext_spec (ops : TreeOps T) {f : K2TreesFeedFromSortedTriplesFeed} {t : RDFTriple} {l : List RDFTriple}
    (h : f.Pending (t :: l)) :
    ∃ f', getNext ops f = (⟨t.predicate,
        some (treeOf ops f.config (t :: l.takeWhile (fun u => u.predicate = t.predicate)))⟩, f') ∧
      f'.config = f.config ∧ f'.feed.triplesNumber = f.feed.triplesNumber ∧
      f'.Pending (l.dropWhile (fun u => u.predicate = t.predicate)) := by
  have hnext : f.hasNext = true := h.hasNext.2 (by simp)
  have hcount := h.count
  rw [List.length_cons] at hcount
  have hlt : f.tripleCnt < f.feed.triplesNumber := UInt64.lt_iff_toNat_lt.2 (by omega)
  obtain ⟨rest, hl, hgives⟩ := h.triples (by simp)
  have hcnt : (f.tripleCnt + 1).toNat + l.length = f.feed.triplesNumber.toNat := by
    rw [toNat_succ hlt]
    omega
  cases hcarry : f.carryTriple with
  | some carry =>
    rw [hcarry] at hl
    obtain ⟨rfl, rfl⟩ := List.cons.inj hl
    obtain ⟨f', h1, h2, h3, h4⟩ := takeTriples_spec ops { f with tripleCnt := f.tripleCnt + 1 } hgives
      f.feed.triplesNumber.toNat (by omega) t.predicate (ops.insert (ops.empty f.config) (t.subject, t.object)) hcnt
    refine ⟨f', ?_, h2, h3, h4⟩
    rw [hcarry] at h1
    simp only [getNext, hnext, if_true, hcarry, h1]
    rfl
  | none =>
    rw [hcarry] at hl
    obtain rfl : t :: l = rest := hl
    obtain ⟨hfeed, hfirst, hrest⟩ := hgives.cons
    obtain ⟨fuel, hfuel⟩ : ∃ k, f.feed.triplesNumber.toNat = k + 1 := ⟨f.feed.triplesNumber.toNat - 1, by omega⟩
    -- the first round starts the tree
    have hround : takeTriples ops f.feed.triplesNumber.toNat none 0 (ops.empty f.config) f =
        takeTriples ops fuel (some t.predicate) t.predicate (ops.insert (ops.empty f.config) (t.subject, t.object))
          { f with feed := f.feed.getNext.2, tripleCnt := f.tripleCnt + 1 } := by
      rw [hfuel]
      simp only [takeTriples, hfeed, if_true, hfirst, Option.any_none, Bool.false_eq_true, if_false]
    obtain ⟨f', h1, h2, h3, h4⟩ := takeTriples_spec ops
      { f with feed := f.feed.getNext.2, tripleCnt := f.tripleCnt + 1 } hrest fuel (by omega) t.predicate
      (ops.insert (ops.empty f.config) (t.subject, t.object)) hcnt
    refine ⟨f', ?_, h2, h3, h4⟩
    rw [h1] at hround
    simp only [getNext, hnext, if_true, hcarry, hround]
    rfl

end K2TreesFeedFromSortedTriplesFeed

/-! ## The builder -/

namespace PredicatesIndexFileBuilder

open K2TreesFeedFromSortedTriplesFeed

variable {md5calc : Bytes → Md5}

/-- A tree in the temporary stream. -/
def treeRecord (ops : TreeOps T) (md5calc : Bytes → Md5) (t : T) : Bytes :=
  u64Bytes (UInt64.ofNat (ops.measure t)) ++ (u64Bytes (UInt64.ofNat (ops.writeToOstream t).length) ++
    ((md5calc (ops.writeToOstream t)).1 ++ ops.writeToOstream t))

/-- The tree of a run. -/
abbrev runTree (ops : TreeOps T) (config : K2TreeConfig) (r : UInt64 × List RDFTriple) : T := treeOf ops config r.2

/-- **The trees of the runs** go to the temporary stream. -/
theorem writeTrees_spec (ops : TreeOps T) (md5calc : Bytes → Md5) {f : K2TreesFeedFromSortedTriplesFeed} {l : List RDFTriple}
    (h : f.Pending l) (fuel : ℕ) (hfuel : (runs l).length ≤ fuel) (pre : Bytes) (ids : List UInt64) :
    writeTrees ops md5calc fuel f (.atEnd pre) ids =
      .ok (.atEnd (pre ++ ((runs l).map (runTree ops f.config)).flatMap (treeRecord ops md5calc)),
        ids ++ (runs l).map Prod.fst) := by
  induction fuel generalizing f l pre ids with
  | zero =>
    have hruns : runs l = [] := List.length_eq_zero_iff.1 (Nat.le_zero.1 hfuel)
    simp [writeTrees, hruns]
  | succ fuel ih =>
    cases l with
    | nil =>
      have hnext : f.hasNext = false := by
        rw [Bool.eq_false_iff, ne_eq, h.hasNext]
        simp
      simp [writeTrees, hnext, runs]
    | cons t l =>
      have hnext : f.hasNext = true := h.hasNext.2 (by simp)
      obtain ⟨f', h1, h2, -, h4⟩ := getNext_spec ops h
      rw [runs] at hfuel ⊢
      rw [List.length_cons] at hfuel
      have hrest := ih h4 (by omega) (pre ++ treeRecord ops md5calc
        (treeOf ops f.config (t :: l.takeWhile (fun u => u.predicate = t.predicate)))) (ids ++ [t.predicate])
      simp only [writeTrees, hnext, if_true, h1]
      have hw : writeKtreeWithSize ops md5calc (.atEnd pre)
          (treeOf ops f.config (t :: l.takeWhile (fun u => u.predicate = t.predicate))) = .atEnd (pre ++ treeRecord ops md5calc
            (treeOf ops f.config (t :: l.takeWhile (fun u => u.predicate = t.predicate)))) := by
        simp [writeKtreeWithSize, treeRecord]
      rw [hw, hrest, h2]
      simp [runTree]

/-- The entry of a copied tree says how large it is in memory. -/
def Copied (ops : TreeOps T) (_ : UInt64) (md : PredicateMetadata) (t : T) : Prop := md.treeSizeInMemory = ops.measure t

/-- **A tree is copied** behind the others. -/
theorem copyTree_spec {config : K2TreeConfig} {ids done : List UInt64} {trees : List T} {s : CopyState} {p : UInt64}
    {t : T} (h : Index.Laying ops (Copied ops) config ids done trees s.outputFile s.metadataMap) (hp : p ∈ ids)
    {rest : Bytes} (hs : s.tmp.Ahead (treeRecord ops md5calc t ++ rest)) (hmeasure : ops.measure t < 2 ^ 64)
    (hlen : (ops.writeToOstream t).length < 2 ^ 64) :
    ∃ s', copyTree md5calc p s = (.ok (), s') ∧ s'.tmp.Ahead rest ∧
      Index.Laying ops (Copied ops) config ids (done ++ [p]) (trees ++ [t]) s'.outputFile s'.metadataMap := by
  have hrest := hs.right
  replace hs := hs.left
  unfold treeRecord at hs
  have h1 := IStream.reads_readU64 _ _ hs.left
  have h2 := IStream.reads_readU64 _ _ hs.right.left
  have h3 := PredicateMetadata.readHash_reads _ _ hs.right.right.left
  have h4 := IStream.read_ahead hs.right.right.right
  have hn : (UInt64.ofNat (ops.writeToOstream t).length).toNat = (ops.writeToOstream t).length :=
    UInt64.toNat_ofNat_of_lt' hlen
  have hm : (UInt64.ofNat (ops.measure t)).toNat = ops.measure t := UInt64.toNat_ofNat_of_lt' hmeasure
  have hgood : s.tmp.fail = false := hs.1
  simp only [IStream.skip_skip] at h1 h2 h3 h4 hrest
  simp only [copyTree, h1, h2, h3, hn, h4, IStream.skip_fail, hgood, Bool.false_eq_true, if_false, hm,
    ne_eq, not_true_eq_false]
  refine ⟨_, rfl, ?_, h.step hp rfl rfl rfl le_rfl rfl⟩
  simp only [treeRecord, List.length_append, ← Nat.add_assoc] at hrest ⊢
  exact hrest

/-- **The index file of the runs.** -/
theorem writeIndex_spec (md5calc : Bytes → Md5) (ids : List UInt64) (trees : List T) (hlen : trees.length = ids.length)
    (config : K2TreeConfig)
    (hmeasure : ∀ t ∈ trees, ops.measure t < 2 ^ 64) (hsize : ∀ t ∈ trees, (ops.writeToOstream t).length < 2 ^ 64) :
    ∃ m out, writeIndex md5calc (.atEnd (trees.flatMap (treeRecord ops md5calc))) ids config = .ok (⟨m, ids, config⟩, out) ∧
      Index.Layout ops ⟨m, ids, config⟩ trees out.buf ∧
      ∀ p md, m.find? p = some md → ∃ t, Index.HoldsTree ops out.buf md t ∧ md.treeSizeInMemory = ops.measure t := by
  have hstart := Index.Laying.start ops (Copied ops) config ids
  set out₀ := ((⟨[], 0⟩ : OStream).write (u64Bytes (UInt64.ofNat ids.length))).write config.toBytes with hout₀
  have htell : out₀.tellp = 20 := by
    simp [hout₀, OStream.tellp, OStream.write, K2TreeConfig.toBytes]
  -- the trees that are still in the temporary stream are those of the predicates to come
  obtain ⟨s, hrun, -, hdone⟩ := Act.forEach_ok (f := copyTree md5calc)
    (fun done (s : CopyState) => s.tmp.Ahead ((trees.drop done.length).flatMap (treeRecord ops md5calc)) ∧
      Index.Laying ops (Copied ops) config ids done (trees.take done.length) s.outputFile s.metadataMap) ids
    (fun done p post s hl hinv => by
      obtain ⟨hs, hlay⟩ := hinv
      have hi : done.length < trees.length := by rw [hlen, hl]; simp
      rw [List.drop_eq_getElem_cons hi, List.flatMap_cons] at hs
      have hmem : trees[done.length] ∈ trees := List.getElem_mem hi
      obtain ⟨s', h1, h2, h3⟩ := copyTree_spec hlay (p := p) (by rw [hl]; simp) hs (hmeasure _ hmem) (hsize _ hmem)
      refine ⟨s', h1, ?_, ?_⟩
      · rw [List.length_append]
        exact h2
      · rw [List.length_append, List.length_singleton, ← List.take_append_getElem hi]
        exact h3)
    (s := ⟨.ofBytes (trees.flatMap (treeRecord ops md5calc)), Index.writeMetadata ∅ ids out₀,
      ids.foldl (fun m p => m.insert p .zero) ∅, 0⟩) ⟨IStream.ahead_self _, hstart⟩
  rw [← hlen, List.take_length] at hdone
  obtain ⟨h1, h2⟩ := hdone.finish
  refine ⟨s.metadataMap, (Index.writeMetadata s.metadataMap ids (s.outputFile.seekp 20)).seekp s.outputFile.tellp,
    ?_, h1, h2⟩
  simp only [writeIndex, ← hout₀, OStream.atEnd_buf, hrun, htell]

/-- `build` writes the trees of the runs of its input. -/
theorem build_eq (ops : TreeOps T) (md5calc : Bytes → Md5) (input : IStream) (config : K2TreeConfig) :
    build ops md5calc input config =
      writeIndex md5calc (.atEnd (((runs (inputTriples input)).map (runTree ops config)).flatMap (treeRecord ops md5calc)))
        ((runs (inputTriples input)).map Prod.fst) config := by
  have hgives := TriplesFeedSBPFromIstream.gives_construct input
  set f := K2TreesFeedFromSortedTriplesFeed.construct (TriplesFeedSBPFromIstream.construct input) config with hf
  have hcount := hgives.count
  have hpending : f.Pending (inputTriples input) := ⟨hcount, fun _ => ⟨_, rfl, hgives⟩⟩
  have hnum : (inputTriples input).length = f.feed.triplesNumber.toNat := by
    have hzero : (TriplesFeedSBPFromIstream.construct input).cnt.toNat = 0 := rfl
    rw [hzero, Nat.zero_add] at hcount
    exact hcount
  have hw := writeTrees_spec ops md5calc hpending f.feed.triplesNumber.toNat (hnum ▸ runs_length_le _) [] []
  rw [List.nil_append, List.nil_append] at hw
  have hempty : (⟨[], 0⟩ : OStream) = .atEnd [] := rfl
  simp only [build, buildWithK2treeFeed, ← hf]
  rw [hempty, hw]
  rfl

/-- **The built file** lists the predicates of the runs of its input and has their trees. -/
theorem build_spec (md5calc : Bytes → Md5) (input : IStream) (config : K2TreeConfig)
    (hfit : ∀ r ∈ runs (inputTriples input), ops.measure (runTree ops config r) < 2 ^ 64 ∧
      (ops.writeToOstream (runTree ops config r)).length < 2 ^ 64) :
    ∃ m out, build ops md5calc input config = .ok (⟨m, (runs (inputTriples input)).map Prod.fst, config⟩, out) ∧
      Index.Layout ops ⟨m, (runs (inputTriples input)).map Prod.fst, config⟩
        ((runs (inputTriples input)).map (runTree ops config)) out.buf ∧
      ∀ p md, m.find? p = some md → ∃ t, Index.HoldsTree ops out.buf md t ∧ md.treeSizeInMemory = ops.measure t := by
  set l := inputTriples input with hl
  obtain ⟨m, out, h1, h2, h3⟩ := writeIndex_spec md5calc ((runs l).map Prod.fst)
    ((runs l).map (runTree ops config)) (by simp) config
    (fun t ht => by obtain ⟨r, hr, rfl⟩ := List.mem_map.1 ht; exact (hfit r hr).1)
    (fun t ht => by obtain ⟨r, hr, rfl⟩ := List.mem_map.1 ht; exact (hfit r hr).2)
  refine ⟨m, out, ?_, h2, h3⟩
  rw [build_eq]
  exact h1

/-! ## The original builder -/

namespace OrigState

/-- A triple as the feed gives it. -/
def triple (t : TripleValue) : RDFTriple := ⟨t.first, t.second, t.third⟩

/-- The triples the loop has still to read. -/
structure Reading (s : OrigState T) (l : List RDFTriple) : Prop where
  count : s.filedata.currentTriple.toNat + l.length = s.filedata.size.toNat
  triples : (IStream.readMany TriplesFeedSBPFromIstream.readTriple l.length s.inputFile).1 = l

/-- **From inside a run**, the loop leaves the tree of this run and of the runs after it. -/
theorem readTriples_spec (ops : TreeOps T) (md5calc : Bytes → Md5) (config : K2TreeConfig) {s : OrigState T}
    {l : List RDFTriple} (h : s.Reading l) {fuel : ℕ} (hfuel : l.length ≤ fuel) {pre : Bytes} (hpre : s.tmp = .atEnd pre)
    {tree : T} (htree : s.currentK2tree = some tree) (hfirst : s.first = false) :
    let q := s.currentPredicate
    let s' := readTriples ops md5calc config fuel s
    s'.writeCurrent ops md5calc = .atEnd (pre ++ (treeRecord ops md5calc
        ((l.takeWhile (fun u => u.predicate = q)).foldl (fun tree u => ops.insert tree (u.subject, u.object)) tree) ++
          ((runs (l.dropWhile (fun u => u.predicate = q))).map (runTree ops config)).flatMap (treeRecord ops md5calc))) ∧
      s'.predicatesIds = s.predicatesIds ++ (runs (l.dropWhile (fun u => u.predicate = q))).map Prod.fst := by
  induction l generalizing s fuel pre tree with
  | nil =>
    have hfin : s.filedata.finished = true := by
      have hcount := h.count
      rw [List.length_nil, Nat.add_zero] at hcount
      rw [FileData.finished, decide_eq_true_eq]
      exact UInt64.le_iff_toNat_le.2 hcount.ge
    have hstop : readTriples ops md5calc config fuel s = s := by
      cases fuel with
      | zero => rfl
      | succ fuel => simp only [readTriples, hfin, if_true]
    simp only [hstop, List.takeWhile_nil, List.foldl_nil, List.dropWhile_nil, runs, List.map_nil, List.flatMap_nil,
      List.append_nil, and_true]
    rw [writeCurrent, htree, hpre]
    simp [writeKtreeWithSize, treeRecord]
  | cons t l ih =>
    obtain ⟨fuel, rfl⟩ : ∃ k, fuel = k + 1 := ⟨fuel - 1, by simp at hfuel; omega⟩
    have hcount := h.count
    rw [List.length_cons] at hcount hfuel
    have hlt : s.filedata.currentTriple < s.filedata.size := UInt64.lt_iff_toNat_lt.2 (by omega)
    have hfin : s.filedata.finished = false := by
      rw [FileData.finished, decide_eq_false_iff_not, not_le]
      exact hlt
    have htriples := h.triples
    rw [List.length_cons, IStream.readMany] at htriples
    obtain ⟨ht, hl⟩ := List.cons.inj htriples
    have hq : (TripleValue.readFromFile s.inputFile).1.second = t.predicate := by rw [← ht]; rfl
    have hpoint : ((TripleValue.readFromFile s.inputFile).1.first, (TripleValue.readFromFile s.inputFile).1.third) =
        (t.subject, t.object) := by rw [← ht]; rfl
    have hrest : (s.filedata.currentTriple + 1).toNat + l.length = s.filedata.size.toNat := by
      rw [toNat_succ hlt]
      omega
    have hround : readTriples ops md5calc config (fuel + 1) s =
        let s₁ : OrigState T := { s with
          inputFile := (TripleValue.readFromFile s.inputFile).2
          filedata := { s.filedata with currentTriple := s.filedata.currentTriple + 1 } }
        let s₂ := if t.predicate ≠ s.currentPredicate then s₁.startTree ops md5calc config t.predicate else s₁
        readTriples ops md5calc config fuel
          { s₂ with currentK2tree := s₂.currentK2tree.map (ops.insert · (t.subject, t.object)) } := by
      simp only [readTriples, hfin, Bool.false_eq_true, if_false, hq, hfirst, Bool.or_false, decide_eq_true_eq, hpoint]
    by_cases htq : t.predicate = s.currentPredicate
    · -- the triple belongs to the run
      rw [hround]
      simp only [htq, ne_eq, not_true_eq_false, if_false, htree, Option.map_some]
      obtain ⟨h1, h2⟩ := ih (s := { s with
          inputFile := (TripleValue.readFromFile s.inputFile).2
          filedata := { s.filedata with currentTriple := s.filedata.currentTriple + 1 }
          currentK2tree := some (ops.insert tree (t.subject, t.object)) })
        ⟨hrest, hl⟩ (show l.length ≤ fuel by omega) hpre rfl hfirst
      rw [List.takeWhile_cons_of_pos (by simpa using htq), List.dropWhile_cons_of_pos (by simpa using htq), List.foldl_cons]
      exact ⟨h1, h2⟩
    · -- the triple starts the next run
      rw [hround]
      simp only [ne_eq, htq, not_false_eq_true, if_true, startTree, Option.map_some]
      have hw : s.writeCurrent ops md5calc = .atEnd (pre ++ treeRecord ops md5calc tree) := by
        rw [writeCurrent, htree, hpre]
        simp [writeKtreeWithSize, treeRecord]
      obtain ⟨h1, h2⟩ := ih (s := ⟨{ s.filedata with currentTriple := s.filedata.currentTriple + 1 },
          (TripleValue.readFromFile s.inputFile).2, s.writeCurrent ops md5calc,
          some (ops.insert (ops.empty config) (t.subject, t.object)), s.predicatesIds ++ [t.predicate], t.predicate, false⟩)
        ⟨hrest, hl⟩ (show l.length ≤ fuel by omega) hw rfl rfl
      rw [List.takeWhile_cons_of_neg (by simpa using htq), List.dropWhile_cons_of_neg (by simpa using htq), runs]
      refine ⟨h1.trans ?_, h2.trans ?_⟩
      · simp [runTree, treeOf]
      · simp

end OrigState

/-- **The two builders agree**, in the file, the metadata and the errors. -/
theorem buildOrig_eq_build (ops : TreeOps T) (md5calc : Bytes → Md5) (inputFile : IStream) (config : K2TreeConfig) :
    buildOrig ops md5calc inputFile config = build ops md5calc inputFile config := by
  rw [build_eq]
  have htriples : inputTriples inputFile =
      (IStream.readMany TriplesFeedSBPFromIstream.readTriple inputFile.readU64.1.toNat inputFile.readU64.2).1 := rfl
  simp only [buildOrig]
  cases hn : inputFile.readU64.1.toNat with
  | zero =>
    rw [hn] at htriples
    have hruns : runs (inputTriples inputFile) = [] := by
      rw [htriples, IStream.readMany, runs]
    rw [hruns]
    rfl
  | succ n =>
    rw [hn, IStream.readMany] at htriples
    set t := (TriplesFeedSBPFromIstream.readTriple inputFile.readU64.2).1 with ht
    set l := (IStream.readMany TriplesFeedSBPFromIstream.readTriple n
      (TriplesFeedSBPFromIstream.readTriple inputFile.readU64.2).2).1 with hl
    have hlen : l.length = n := readMany_length _ _ _
    have hlt : (0 : UInt64) < inputFile.readU64.1 := UInt64.lt_iff_toNat_lt.2 (by rw [hn]; exact Nat.succ_pos n)
    have hfin : (⟨inputFile.readU64.1, 0⟩ : FileData).finished = false := by
      rw [FileData.finished, decide_eq_false_iff_not, not_le]
      exact hlt
    -- the first triple starts the first run
    set s₁ : OrigState T := ⟨⟨inputFile.readU64.1, 0 + 1⟩, (TripleValue.readFromFile inputFile.readU64.2).2, ⟨[], 0⟩,
      some (ops.insert (ops.empty config) (t.subject, t.object)), [t.predicate], t.predicate, false⟩ with hs₁
    have hfirst : OrigState.readTriples ops md5calc config (n + 1)
        ⟨⟨inputFile.readU64.1, 0⟩, inputFile.readU64.2, ⟨[], 0⟩, none, [], 0, true⟩ =
          OrigState.readTriples ops md5calc config n s₁ := by
      simp only [OrigState.readTriples, hfin, Bool.false_eq_true, if_false, Bool.or_true, if_true, OrigState.startTree,
        Option.map_some]
      rfl
    have hreading : s₁.Reading l := by
      refine ⟨?_, by rw [hlen]; rfl⟩
      show ((0 : UInt64) + 1).toNat + l.length = inputFile.readU64.1.toNat
      rw [toNat_succ hlt, hn, hlen]
      exact Nat.add_comm _ _
    obtain ⟨h1, h2⟩ := OrigState.readTriples_spec ops md5calc config hreading hlen.le (rfl : _ = OStream.atEnd []) rfl rfl
    rw [hfirst, htriples, runs]
    simp only [h1, h2]
    rfl

end PredicatesIndexFileBuilder

end K2Cache
