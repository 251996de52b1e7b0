import K2Cache.Lib.Paging
import K2Cache.Proof.BgpRows
import K2Cache.Proof.CachedStream
import K2Cache.Spec.BgpStreamer

/-!
# The rows of a stream

A batch takes rows from the front of what the iterator still has (`HasRows`), and each is sent
through the permutation of the requested names.

`bgpStream_whole`: if the names are the variables of the patterns, each once, all rows are
sent, in order, with the values where they were asked for.
-/

namespace K2Cache

open Lib

variable {T : Type} {ops : TreeOps T}

/-! ## The result of a query -/

/-- Without operators the iterator is not constructed: it reads the first one. -/
theorem BGPIterator.construct_nil {c : TimeControl} (hc : c.NeverExpires) (headers : List ℕ) (fuel : ℕ) :
    (BGPIterator.construct ops (fuel + 1) [] headers c).1 = .error (.thrown .nullDereference) := by
  have h1 := hc.tick.1
  have h2 := hc.tick.2.tick.1
  simp [BGPIterator.construct, nextConcrete, Act.bind_run, BGPIterator.tick, init, nextLoop, opsUntilLast, opsLoop, runOp,
    finished, h1, h2]

/-- The rows of the iterator of `execute_it`. -/
def IteratorRows (ops : TreeOps T) (fetch : UInt64 → Option T) (getId : UInt64 → UInt64) (vim : VarIndexManager)
    (c : TimeControl) (patterns : List BGPTriple) (rows : List Row) : Prop :=
  ∃ N, ∀ fuel, N ≤ fuel → ∃ it, executeIt ops fetch getId vim c patterns fuel = .ok it ∧ it.drain ops fuel = .ok rows

section IteratorRows

variable {fetch : UInt64 → Option T} {getId : UInt64 → UInt64} {vim : VarIndexManager} {c : TimeControl}
  {patterns : List BGPTriple} {rows rows' : List Row}

theorem IteratorRows.unique (h : IteratorRows ops fetch getId vim c patterns rows)
    (h' : IteratorRows ops fetch getId vim c patterns rows') : rows = rows' := by
  obtain ⟨N, hN⟩ := h
  obtain ⟨N', hN'⟩ := h'
  obtain ⟨it, h1, h2⟩ := hN (N + N') (by omega)
  obtain ⟨it', h3, h4⟩ := hN' (N + N') (by omega)
  obtain rfl : it = it' := Except.ok.inj (h1.symm.trans h3)
  exact Except.ok.inj (h2.symm.trans h4)

/-- Without patterns there is no iterator. -/
theorem IteratorRows.ne_nil (h : IteratorRows ops fetch getId vim c patterns rows) (hc : c.NeverExpires) : patterns ≠ [] := by
  rintro rfl
  obtain ⟨N, hN⟩ := h
  obtain ⟨it, hit, -⟩ := hN (N + 1) (by omega)
  have hnil : (BGPIterator.construct ops (N + 1) [] (findHeaders vim []).headerVec c).1 = .error (.thrown .nullDereference) :=
    BGPIterator.construct_nil hc _ N
  rcases hcon : BGPIterator.construct ops (N + 1) [] (findHeaders vim []).headerVec c with ⟨r, it'⟩
  rw [hcon] at hnil
  obtain rfl : r = _ := hnil
  simp [executeIt, doAllPredicatesHaveTrees, buildScanners, buildBgpOps, hcon] at hit

/-- **An answer of a query**: its predicates have trees, and something is found for every
pattern. -/
structure Answers (ops : TreeOps T) (fetch : UInt64 → Option T) (h : Headers) (resolved : List BGPTriple) (row : Row) :
    Prop where
  trees : doAllPredicatesHaveTrees fetch resolved = true
  length : row.length = h.headerVec.length
  found : AllFound ops fetch (rowValue h.pos row) ∅ resolved

end IteratorRows

section Result

variable (hl : ops.Lawful) (fetch : UInt64 → Option T) (getId : UInt64 → UInt64) {vim : VarIndexManager}
  (hvim : vim.Valid) {c : TimeControl} (hc : c.NeverExpires) {patterns : List BGPTriple}
include hl hvim hc

/-- **The result of a query** is its answers. -/
theorem executeIt_result (hne : patterns ≠ []) :
    let resolved := patterns.map (BGPTriple.resolve getId)
    let h := findHeaders vim resolved
    ∃ rows : List Row, IteratorRows ops fetch getId vim c patterns rows ∧
      ((∀ t ∈ resolved, ¬ t.Repeats) → rows.Nodup) ∧ ∀ row, row ∈ rows ↔ Answers ops fetch h resolved row := by
  intro resolved h
  cases hall : doAllPredicatesHaveTrees fetch resolved with
  | false =>
    refine ⟨[], ⟨0, fun fuel _ => ⟨.empty h.headerVec, ?_, rfl⟩⟩, fun _ => List.nodup_nil, fun row => ?_⟩
    · rw [executeIt]
      simp only [show doAllPredicatesHaveTrees fetch (patterns.map (BGPTriple.resolve getId)) = false from hall,
        Bool.false_eq_true, if_false]
      rfl
    · simp only [List.not_mem_nil, false_iff]
      intro h
      rw [h.trees] at hall
      simp at hall
  | true =>
    have htrees : ∀ t ∈ patterns, getCacheId getId t.predicate ≠ 0 ∧ (fetch (getCacheId getId t.predicate)).isSome = true := by
      intro t ht
      have := List.all_eq_true.1 hall _ (List.mem_map_of_mem ht)
      obtain ⟨h1, h2⟩ := Bool.and_eq_true_iff.1 this
      exact ⟨of_decide_eq_true h1, h2⟩
    obtain ⟨rows, h1, h2, h3⟩ := executeIt_search hl fetch getId hvim hc hne htrees
    refine ⟨rows, h1, h2, fun row => ?_⟩
    rw [h3]
    constructor
    · rintro ⟨hlen, hfound⟩
      exact ⟨hall, hlen, hfound⟩
    · intro h
      exact ⟨h.length, h.found⟩

/-- The rows are the answers. -/
theorem IteratorRows.mem_iff {rows : List Row} (h : IteratorRows ops fetch getId vim c patterns rows) (row : Row) :
    row ∈ rows ↔ Answers ops fetch (findHeaders vim (patterns.map (BGPTriple.resolve getId)))
      (patterns.map (BGPTriple.resolve getId)) row := by
  obtain ⟨rows', h', -, hmem⟩ := executeIt_result hl fetch getId hvim hc (h.ne_nil hc)
  rw [h.unique h']
  exact hmem row

end Result

/-- The values found for the variables are in the trees. -/
theorem AllFound.coordinate {fetch : UInt64 → Option T} {a : String → UInt64} {V : Set String} {patterns : List BGPTriple}
    (h : AllFound ops fetch a V patterns) {x : String} (hx : x ∈ patternVars patterns) :
    ∃ p tree y, fetch p = some tree ∧ (ops.has tree (a x, y) = true ∨ ops.has tree (y, a x) = true) := by
  induction patterns generalizing V with
  | nil => obtain ⟨t, ht, -⟩ := hx; simp at ht
  | cons t ts ih =>
    obtain ⟨⟨tree, htree, hfound⟩, hts⟩ := h
    obtain ⟨t', ht', hxt⟩ := hx
    rcases List.mem_cons.1 ht' with rfl | ht'
    · refine ⟨t'.predicate.cacheNodeId, tree, ?_⟩
      have heval : ∀ n : BGPNode, n.isConcrete = false → n.eval a = a n.varName := by
        intro n hn
        simp [BGPNode.eval, hn]
      rcases hfound with hpoint | ⟨⟨hs, ho, hname⟩, -, s, hpoint⟩
      · rcases hxt with ⟨hs, rfl⟩ | ⟨ho, rfl⟩
        · rw [heval _ hs] at hpoint
          exact ⟨_, htree, .inl hpoint⟩
        · rw [heval _ ho] at hpoint
          exact ⟨_, htree, .inr hpoint⟩
      · rw [heval _ ho] at hpoint
        have hxo : x = t'.object.varName := by
          rcases hxt with ⟨-, rfl⟩ | ⟨-, rfl⟩
          · exact hname
          · rfl
        rw [hxo]
        exact ⟨s, htree, .inr hpoint⟩
    · exact ih hts ⟨t', ht', hxt⟩

/-! ## The values of a row -/

/-- A cache id that has a real id. -/
def CacheContainer.HasReal (cache : CacheContainer T) (v : UInt64) : Prop :=
  (cache.nodeIds.getRealId v).2.getD .success = .success

/-- The real id of a cache id. -/
def CacheContainer.realOf (cache : CacheContainer T) (v : UInt64) : UInt64 := (cache.nodeIds.getRealId v).1

namespace BGPStreamer

variable (cache : CacheContainer T)

section Row

variable (h : Headers) (names : List String) {row : Row} (hrow : row.length = h.headerVec.length)

/-- A position no name was given for. -/
theorem cellValue_of_length_le {i : ℕ} (hi : names.length ≤ i) :
    cellValue cache (getPermutationVec h names) row i = .error .outOfRange := by
  have hnone : (getPermutationVec h names)[i]? = none := by simpa [getPermutationVec] using hi
  rw [cellValue, hnone]

include hrow

theorem getElem?_pos {i : ℕ} (hi : i < row.length) (x : String) : row[h.pos x]? = some (rowValue h.pos row x) := by
  have hlt : h.pos x < row.length := hrow ▸ h.pos_lt_of_pos (by omega) x
  rw [List.getElem?_eq_getElem hlt, rowValue, Row.val_eq_getElem hlt]

/-- The position of a name whose value has a real id. -/
theorem cellValue_of_real {i : ℕ} (hi : i < row.length) (hn : i < names.length)
    (hreal : cache.HasReal (rowValue h.pos row names[i])) :
    cellValue cache (getPermutationVec h names) row i = .ok (cache.realOf (rowValue h.pos row names[i])) := by
  have hsome : (getPermutationVec h names)[i]? = some (h.pos names[i]) := by simp [getPermutationVec, hn]
  simp only [cellValue, hsome, getElem?_pos h hrow hi]
  exact if_neg (not_not.2 hreal)

/-- The position of a name whose value has none. -/
theorem cellValue_of_not_real {i : ℕ} (hi : i < row.length) (hn : i < names.length)
    (hreal : ¬ cache.HasReal (rowValue h.pos row names[i])) :
    ∃ msg, cellValue cache (getPermutationVec h names) row i = .error (.runtimeError msg) := by
  have hsome : (getPermutationVec h names)[i]? = some (h.pos names[i]) := by simp [getPermutationVec, hn]
  refine ⟨"ERROR: NOT FOUND REAL ID FOR CACHE VALUE" ++ toString (rowValue h.pos row names[i]), ?_⟩
  simp only [cellValue, hsome, getElem?_pos h hrow hi]
  exact if_pos hreal

end Row

variable {permutationVec : List ℕ} {row : Row}

/-- If no round throws, there is a value for each. -/
theorem valuesAt_ok {is : List ℕ} {f : ℕ → UInt64} (h : ∀ i ∈ is, cellValue cache permutationVec row i = .ok (f i)) :
    valuesAt cache permutationVec row is = .ok (is.map f) := by
  induction is with
  | nil => rfl
  | cons i is ih =>
    have h1 := h i List.mem_cons_self
    have h2 := ih fun j hj => h j (List.mem_cons_of_mem _ hj)
    simp only [valuesAt, h1, h2, List.map_cons]

/-- A round that throws ends the loop, unless an earlier one does. -/
theorem valuesAt_error {pre post : List ℕ} {i : ℕ} {e : Exn} (hpre : ∀ j ∈ pre, ∃ v, cellValue cache permutationVec row j = .ok v)
    (hi : cellValue cache permutationVec row i = .error e) :
    valuesAt cache permutationVec row (pre ++ i :: post) = .error e := by
  induction pre with
  | nil => simp only [List.nil_append, valuesAt, hi]
  | cons j pre ih =>
    obtain ⟨v, hv⟩ := hpre j List.mem_cons_self
    have h2 := ih fun k hk => hpre k (List.mem_cons_of_mem _ hk)
    simp only [List.cons_append, valuesAt, hv, h2]

/-- **A row is sent** with a value for each of the names that have a position, if there are
enough and the values have real ids. -/
theorem rowValues_ok (h : Headers) {names : List String} (hrow : row.length = h.headerVec.length)
    (hlen : row.length ≤ names.length) (hreal : ∀ x ∈ names.take row.length, cache.HasReal (rowValue h.pos row x)) :
    rowValues cache (getPermutationVec h names) row =
      .ok ((names.take row.length).map fun x => cache.realOf (rowValue h.pos row x)) := by
  have hcell : ∀ i ∈ List.range row.length, cellValue cache (getPermutationVec h names) row i =
      .ok (cache.realOf (rowValue h.pos row (names.getD i ""))) := by
    intro i hi
    have hi' : i < row.length := List.mem_range.1 hi
    have hn : i < names.length := by omega
    have hmem : names[i] ∈ names.take row.length := List.mem_take_iff_getElem.2 ⟨i, by omega, rfl⟩
    rw [cellValue_of_real cache h names hrow hi' hn (hreal _ hmem), List.getD_eq_getElem _ _ hn]
  rw [rowValues, valuesAt_ok cache hcell]
  congr 1
  apply List.ext_getElem (by simp [hlen])
  intro i h1 h2
  have hn : i < names.length := by
    rw [List.length_map, List.length_range] at h1
    omega
  simp [hn]

end BGPStreamer

/-- Names that are those of the variables, each once, are as many as the headers. -/
theorem Headers.Of.length_names {h : Headers} {V : Set String} (hv : h.Of V) {names : List String} (hnodup : names.Nodup)
    (hvars : ∀ x, x ∈ names ↔ x ∈ V) : names.length = h.headerVec.length := by
  have hmap : (names.map h.pos).Nodup := by
    refine List.Nodup.map_on ?_ hnodup
    intro x hx y hy he
    exact hv.pos_inj ((hvars x).1 hx) ((hvars y).1 hy) he
  have hperm : (names.map h.pos).Perm (List.range h.headerVec.length) := by
    refine (List.perm_ext_iff_of_nodup hmap List.nodup_range).2 fun j => ?_
    rw [List.mem_map, List.mem_range]
    constructor
    · rintro ⟨x, hx, rfl⟩
      exact hv.pos_lt ((hvars x).1 hx)
    · intro hj
      obtain ⟨x, hx, hpos⟩ := hv.pos_surj hj
      exact ⟨x, (hvars x).2 hx, hpos⟩
  simpa using hperm.length_eq

/-! ## Batches -/

/-- The rows an iterator still has. -/
def HasRows (ops : TreeOps T) (fuel : ℕ) : QueryIterator T → List Row → Prop
  | .empty _, rows => rows = []
  | .bgp it, rows => ∃ n it', BGPIterator.drain ops fuel n it = (.ok rows, it')

theorem HasRows.hasNext {fuel : ℕ} {it : QueryIterator T} {rows : List Row} (h : HasRows ops fuel it rows) :
    it.hasNext = !rows.isEmpty := by
  cases it with
  | empty headers =>
    rw [show rows = [] from h]
    rfl
  | bgp it =>
    obtain ⟨n, it', hdrain⟩ := h
    cases n with
    | zero => simp [BGPIterator.drain] at hdrain
    | succ n =>
      rw [BGPIterator.drain, Act.get_bind] at hdrain
      cases hnext : it.hasNext with
      | false =>
        rw [hnext, if_neg (by simp)] at hdrain
        rw [← Except.ok.inj (Prod.mk.inj hdrain).1]
        exact hnext
      | true =>
        rw [hnext, if_pos rfl] at hdrain
        obtain ⟨row, it₁, -, hrest⟩ := Act.bind_eq_ok hdrain
        obtain ⟨rows₁, it₂, -, hpure⟩ := Act.bind_eq_ok hrest
        rw [← Except.ok.inj (Prod.mk.inj hpure).1]
        exact hnext

theorem HasRows.next {fuel : ℕ} {it : QueryIterator T} {row : Row} {rows : List Row} (h : HasRows ops fuel it (row :: rows)) :
    ∃ it', it.next ops fuel = (.ok row, it') ∧ HasRows ops fuel it' rows := by
  cases it with
  | empty headers => exact absurd h (by simp [HasRows])
  | bgp it =>
    have hnext := h.hasNext
    obtain ⟨n, it', hdrain⟩ := h
    cases n with
    | zero => simp [BGPIterator.drain] at hdrain
    | succ n =>
      rw [BGPIterator.drain, Act.get_bind, if_pos (by simpa [QueryIterator.hasNext] using hnext)] at hdrain
      obtain ⟨row₁, it₁, hrow, hrest⟩ := Act.bind_eq_ok hdrain
      obtain ⟨rows₁, it₂, hrows, hpure⟩ := Act.bind_eq_ok hrest
      obtain ⟨rfl, rfl⟩ := List.cons.inj (Except.ok.inj (Prod.mk.inj hpure).1)
      exact ⟨.bgp it₁, by rw [QueryIterator.next, hrow], n, it₂, hrows⟩

namespace BGPStreamer

variable (cache : CacheContainer T)

/-- **A batch** takes rows from the front, at least one. -/
theorem fillBatch_spec {perm : List ℕ} (small : Bool) {nextFuel fuel : ℕ} (count : ℕ) {it : QueryIterator T} {rows : List Row}
    {f : Row → List UInt64} (h : HasRows ops nextFuel it rows) (hvalues : ∀ row ∈ rows, rowValues cache perm row = .ok (f row))
    (hfuel : rows.length < fuel) : ∃ taken rest it', rows = taken ++ rest ∧
      fillBatch ops cache perm small nextFuel fuel count it = .ok (taken.map f, it') ∧ HasRows ops nextFuel it' rest ∧
      (rows ≠ [] → taken ≠ []) := by
  induction fuel generalizing count it rows with
  | zero => omega
  | succ fuel ih =>
    have hnext := h.hasNext
    cases rows with
    | nil => exact ⟨[], [], it, rfl, by simp [fillBatch, hnext], h, id⟩
    | cons row rows =>
      obtain ⟨it₁, hrow, hrows⟩ := h.next
      have hrow' := hvalues row List.mem_cons_self
      simp only [fillBatch, hnext, List.isEmpty_cons, Bool.not_false, if_true, hrow, hrow']
      split
      · exact ⟨[row], rows, it₁, rfl, rfl, hrows, by simp⟩
      · obtain ⟨taken, rest, it', h1, h2, h3, -⟩ := ih (count + 1) hrows
          (fun r hr => hvalues r (List.mem_cons_of_mem _ hr)) (by simpa using hfuel)
        refine ⟨row :: taken, rest, it', by rw [h1]; rfl, ?_, h3, by simp⟩
        simp only [h2, List.map_cons]

/-- The messages of a run: the last one is that behind which no row remains. -/
abbrev Messages (ops : TreeOps T) (cache : CacheContainer T) (fuel : ℕ) :
    BGPStreamer T → List BGPJoinResponse → BGPStreamer T → Prop :=
  Pages (getNextMessage ops cache fuel) BGPJoinResponse.isLast exhausted

/-- Between two messages, the query having been run. -/
structure Running (ops : TreeOps T) (cache : CacheContainer T) (fuel : ℕ) (f : Row → List UInt64) (s : BGPStreamer T)
    (it : QueryIterator T) (rows : List Row) : Prop where
  started : s.queryIterator = some it
  has : HasRows ops fuel it rows
  values : ∀ row ∈ rows, rowValues cache s.permutationVec row = .ok (f row)
  fuel : rows.length < fuel

/-- **A message**: rows from the front, and it is the last one if none is left. -/
theorem getNextMessage_spec {fuel : ℕ} {f : Row → List UInt64} {s : BGPStreamer T} {it : QueryIterator T} {rows : List Row}
    (h : Running ops cache fuel f s it rows) : ∃ r s' taken rest it', getNextMessage ops cache fuel s = (.ok r, s') ∧
      rows = taken ++ rest ∧ r.bgpResponseRow = taken.map f ∧ Running ops cache fuel f s' it' rest ∧
      r.isLast = rest.isEmpty ∧ exhausted s' = rest.isEmpty ∧ (rows ≠ [] → taken ≠ []) := by
  obtain ⟨taken, rest, it', hsplit, hfill, hrest, htaken⟩ := fillBatch_spec cache
    (!s.sentFirstBatch && s.firstBatchSmall) 0 h.has h.values h.fuel
  have hnext := hrest.hasNext
  have hstart : s.start ops cache fuel = .ok s := by rw [start, h.started]
  have hlen := congrArg List.length hsplit
  rw [List.length_append] at hlen
  refine ⟨⟨s.channelId, taken.map f, !it'.hasNext⟩, { s with queryIterator := some it', sentFirstBatch := true }, taken,
    rest, it', ?_, hsplit, rfl, ⟨rfl, hrest, fun row hrow => h.values row ?_, ?_⟩, ?_, ?_, htaken⟩
  · simp only [getNextMessage, hstart, h.started, hfill]
  · rw [hsplit]
    exact List.mem_append_right _ hrow
  · have := h.fuel
    omega
  · rw [hnext, Bool.not_not]
  · show (!it'.hasNext) = rest.isEmpty
    rw [hnext, Bool.not_not]

/-- **All rows are sent.** -/
theorem exists_messages {fuel : ℕ} {f : Row → List UInt64} {s : BGPStreamer T} {it : QueryIterator T} {rows : List Row}
    (h : Running ops cache fuel f s it rows) : ∃ ms s', Messages ops cache fuel s ms s' ∧
      ms.flatMap BGPJoinResponse.bgpResponseRow = rows.map f := by
  induction hn : rows.length using Nat.strong_induction_on generalizing s it rows with
  | _ n ih =>
    obtain ⟨r, s', taken, rest, it', hrun, hsplit, hrows, h', hlast, hex, htaken⟩ := getNextMessage_spec cache h
    cases hrest : rest with
    | nil =>
      rw [hrest] at hlast hex hsplit
      refine ⟨[r], s', .final hrun hlast hex, ?_⟩
      rw [hsplit, List.append_nil, List.flatMap_singleton, hrows]
    | cons row rows' =>
      have hlt : rest.length < n := by
        have hpos := List.length_pos_iff.2 (htaken (by rw [hsplit, hrest]; simp))
        have hlen := congrArg List.length hsplit
        rw [List.length_append] at hlen
        omega
      obtain ⟨ms, s'', hms, hitems⟩ := ih rest.length hlt h' rfl
      rw [hrest] at hlast hex
      refine ⟨r :: ms, s'', .more hrun hlast hex hms, ?_⟩
      rw [List.flatMap_cons, hitems, hrows, hsplit, List.map_append]

end BGPStreamer

/-! ## The whole stream -/

theorem QueryIterator.hasRows {fuel : ℕ} {it : QueryIterator T} {rows : List Row} (h : it.drain ops fuel = .ok rows) :
    HasRows ops fuel it rows := by
  cases it with
  | empty headers => exact (Except.ok.inj h).symm
  | bgp it => exact ⟨fuel, (BGPIterator.drain ops fuel fuel it).2, Prod.ext h rfl⟩

/-- The values of an answer have real ids where those of the trees do. -/
theorem Answers.hasReal {cache : CacheContainer T}
    (hreal : ∀ p tree x, cache.fetchK2tree p = some tree → ops.has tree x = true → cache.Real x) {h : Headers}
    {resolved : List BGPTriple} {row : Row} (ha : Answers ops cache.fetchK2tree h resolved row) {x : String}
    (hx : x ∈ patternVars resolved) : cache.HasReal (rowValue h.pos row x) := by
  obtain ⟨p, tree, y, htree, hpoint | hpoint⟩ := ha.found.coordinate hx
  · exact (hreal p tree _ htree hpoint).1
  · exact (hreal p tree _ htree hpoint).2

/-- The rows that are sent, with the real ids of what they bind the names to. -/
theorem Answers.rowValues {cache : CacheContainer T}
    (hreal : ∀ p tree x, cache.fetchK2tree p = some tree → ops.has tree x = true → cache.Real x) {h : Headers}
    {resolved : List BGPTriple} (hof : h.Of (patternVars resolved)) {names : List String} (hnodup : names.Nodup)
    (hvars : ∀ x, x ∈ names ↔ x ∈ patternVars resolved) {row : Row} (ha : Answers ops cache.fetchK2tree h resolved row) :
    BGPStreamer.rowValues cache (getPermutationVec h names) row =
      .ok (names.map fun x => cache.realOf (rowValue h.pos row x)) := by
  have hlen : names.length = row.length := by
    rw [ha.length]
    exact hof.length_names hnodup hvars
  have hok := BGPStreamer.rowValues_ok cache h ha.length hlen.ge fun x hx =>
    ha.hasReal hreal ((hvars x).1 (List.mem_of_mem_take hx))
  rwa [List.take_of_length_le hlen.le] at hok

/-- The row of an answer is that of its values. -/
theorem Answers.layout_eq {fetch : UInt64 → Option T} {h : Headers} {resolved : List BGPTriple}
    (hof : h.Of (patternVars resolved)) {row : Row} (ha : Answers ops fetch h resolved row) :
    h.layout (rowValue h.pos row) = row := by
  obtain ⟨a, hlayout⟩ := hof.exists_layout ha.length
  rw [← hlayout]
  refine (hof.layout_inj _ _).2 fun x hx => ?_
  exact hof.val_layout a hx

open BGPStreamer in
/-- **The messages** of a streamer whose rows can all be sent. -/
theorem exists_stream {cache : CacheContainer T} {m : BGPMessage} {c : TimeControl} {rows : List Row} {f : Row → List UInt64}
    (hrows : IteratorRows ops cache.fetchK2tree cache.nodeIds.getId .construct c m.patterns rows)
    (hvalues : ∀ row ∈ rows, BGPStreamer.rowValues cache (getPermutationVec
      (findHeaders .construct (m.patterns.map (BGPTriple.resolve cache.nodeIds.getId))) m.varNames) row = .ok (f row)) :
    ∃ N, ∀ fuel, N ≤ fuel → ∀ (channelId : ℤ) (uninit : Bool), ∃ ms s',
      Messages ops cache fuel (construct channelId m c uninit) ms s' ∧
      ms.flatMap BGPJoinResponse.bgpResponseRow = rows.map f := by
  obtain ⟨N, hN⟩ := hrows
  refine ⟨N + rows.length + 1, fun fuel hfuel channelId uninit => ?_⟩
  obtain ⟨it, hit, hdrain⟩ := hN fuel (by omega)
  set h := findHeaders .construct (m.patterns.map (BGPTriple.resolve cache.nodeIds.getId)) with hh
  set s : BGPStreamer T := construct channelId m c uninit with hs
  -- the first call runs the query
  set s₁ : BGPStreamer T := { s with
    queryIterator := some it
    varIndexManager := h.vim
    permutationVec := getPermutationVec h m.varNames } with hs₁
  have hstart : s.start ops cache fuel = .ok s₁ := by
    simp only [start, hs, construct, hit]
    rfl
  have hstart₁ : s₁.start ops cache fuel = .ok s₁ := rfl
  have hfirst : getNextMessage ops cache fuel s = getNextMessage ops cache fuel s₁ := by
    rw [getNextMessage, getNextMessage, hstart, hstart₁]
  have hrun : Running ops cache fuel f s₁ it rows := ⟨rfl, QueryIterator.hasRows hdrain, hvalues, by omega⟩
  obtain ⟨ms, s', hms, hitems⟩ := exists_messages cache hrun
  exact ⟨ms, s', Pages.of_eq hms hfirst, hitems⟩

open BGPStreamer in
/-- **The stream of a query.** If the names are the variables of the patterns, each once, and
the ids of the store have real ids, the messages up to the last one have all rows of the
iterator, in order, each with the real id of what it binds a name to where the name was given.
A message is the last one exactly if no row remains behind it. -/
theorem bgpStream_whole (hl : ops.Lawful) {cache : CacheContainer T}
    (hreal : ∀ p tree x, cache.fetchK2tree p = some tree → ops.has tree x = true → cache.Real x) {m : BGPMessage}
    (hnodup : m.varNames.Nodup) (hvars : ∀ x, x ∈ m.varNames ↔ x ∈ patternVars m.patterns) {c : TimeControl}
    (hc : c.NeverExpires) :
    let resolved := m.patterns.map (BGPTriple.resolve cache.nodeIds.getId)
    let h := findHeaders .construct resolved
    (m.patterns ≠ [] → ∃ rows, IteratorRows ops cache.fetchK2tree cache.nodeIds.getId .construct c m.patterns rows) ∧
    ∀ rows, IteratorRows ops cache.fetchK2tree cache.nodeIds.getId .construct c m.patterns rows →
      ∃ bindings : List (String → UInt64), rows = bindings.map h.layout ∧
        (∀ a ∈ bindings, AllFound ops cache.fetchK2tree a ∅ resolved) ∧
        ∃ N, ∀ fuel, N ≤ fuel → ∀ (channelId : ℤ) (uninit : Bool), ∃ ms s',
          Messages ops cache fuel (construct channelId m c uninit) ms s' ∧
          ms.flatMap BGPJoinResponse.bgpResponseRow = bindings.map fun a => m.varNames.map fun x => cache.realOf (a x) := by
  intro resolved h
  have hof : h.Of (patternVars resolved) := findHeaders_of VarIndexManager.construct_valid resolved
  have hvars' : ∀ x, x ∈ m.varNames ↔ x ∈ patternVars resolved := by
    intro x
    rw [patternVars_resolve]
    exact hvars x
  refine ⟨fun hne => ?_, fun rows hrows => ?_⟩
  · obtain ⟨rows, hrows, -⟩ := executeIt_result hl cache.fetchK2tree cache.nodeIds.getId VarIndexManager.construct_valid hc hne
    exact ⟨rows, hrows⟩
  have hanswer : ∀ row ∈ rows, Answers ops cache.fetchK2tree h resolved row := fun row hrow =>
    (hrows.mem_iff hl cache.fetchK2tree cache.nodeIds.getId VarIndexManager.construct_valid hc row).1 hrow
  -- the bindings of a row are read at the positions of the names
  refine ⟨rows.map (rowValue h.pos), ?_, ?_, ?_⟩
  · rw [List.map_map]
    exact (List.map_id rows).symm.trans (List.map_congr_left fun row hrow => ((hanswer row hrow).layout_eq hof).symm)
  · intro a ha
    obtain ⟨row, hrow, rfl⟩ := List.mem_map.1 ha
    exact (hanswer row hrow).found
  · rw [List.map_map]
    exact exists_stream hrows fun row hrow => (hanswer row hrow).rowValues hreal hof hnodup hvars'

/-- The chain, with the ids as they are. -/
def PointTree.chainCache : CacheContainer PointTree := ⟨.identity, PointTree.chainFetch⟩

open PointTree BGPStreamer in
/-- In the chain, asked for `z`, `y` and `x`: the row of `x = 1, y = 2, z = 7` is sent the other
way round. -/
theorem bgpStream_whole_chain :
    ∃ rows, IteratorRows PointTree.ops chainFetch id .construct ⟨1000, 0, false, fun _ => false, 0⟩ chainPatterns rows ∧
      ∃ N, ∀ fuel, N ≤ fuel → ∃ ms s', Messages PointTree.ops chainCache fuel
        (construct 4 ⟨["z", "y", "x"], chainPatterns, true⟩ ⟨1000, 0, false, fun _ => false, 0⟩ true) ms s' ∧
        [7, 2, 1] ∈ ms.flatMap BGPJoinResponse.bgpResponseRow := by
  have hvars : ∀ x, x ∈ ["z", "y", "x"] ↔ x ∈ patternVars chainPatterns := by
    intro x
    simp only [patternVars, chainPatterns, BGPTriple.vars, Set.mem_ofPred_eq, List.exists_mem_cons_iff, true_and]
    simp only [List.mem_cons, List.not_mem_nil, @eq_comm _ x]
    tauto
  have hc : TimeControl.NeverExpires ⟨1000, 0, false, fun _ => false, 0⟩ := ⟨rfl, fun _ => rfl⟩
  have hreal : ∀ p tree x, chainCache.fetchK2tree p = some tree → PointTree.ops.has tree x = true → chainCache.Real x :=
    fun _ _ _ _ _ => ⟨rfl, rfl⟩
  obtain ⟨hex, hall⟩ := bgpStream_whole ops_lawful hreal (m := ⟨["z", "y", "x"], chainPatterns, true⟩) (by decide) hvars hc
  obtain ⟨rows, hrows⟩ := hex (by decide)
  obtain ⟨bindings, hbind, -, N, hN⟩ := hall rows hrows
  refine ⟨rows, hrows, N, fun fuel hfuel => ?_⟩
  obtain ⟨ms, s', hms, hitems⟩ := hN fuel hfuel 4 true
  refine ⟨ms, s', hms, ?_⟩
  have hres : chainPatterns.map (BGPTriple.resolve id) = chainPatterns := by decide
  have hmem : [1, 2, 7] ∈ rows := by
    refine (hrows.mem_iff ops_lawful chainFetch id VarIndexManager.construct_valid hc _).2 ?_
    rw [hres]
    refine ⟨by decide, by decide, ⟨_, rfl, .inl ?_⟩, ⟨_, rfl, .inl ?_⟩, trivial⟩
    · exact show PointTree.ops.has _ _ = true by decide
    · exact show PointTree.ops.has _ _ = true by decide
  rw [hbind] at hmem
  obtain ⟨a, ha, hlayout⟩ := List.mem_map.1 hmem
  rw [show chainPatterns.map (BGPTriple.resolve chainCache.nodeIds.getId) = chainPatterns from hres] at hlayout
  have hvalues : [a "x", a "y", a "z"] = [1, 2, 7] := hlayout
  rw [hitems]
  refine List.mem_map.2 ⟨a, ha, ?_⟩
  simp only [List.cons.injEq, and_true] at hvalues
  obtain ⟨hx, hy, hz⟩ := hvalues
  show [a "z", a "y", a "x"] = [7, 2, 1]
  rw [hx, hy, hz]

end K2Cache
