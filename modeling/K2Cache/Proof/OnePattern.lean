import K2Cache.Proof.BgpStream

/-!
# One pattern, asked for in two ways

A pattern with a predicate and one or two variables can be sent as a basic graph pattern, or
streamed by itself. `do_all_predicates_have_trees` takes the cache id 0 for that of no
predicate, although it is the first position of the nodes sequence; the streamer of a pattern
takes the real id `NODE_ANY` for that of a variable.

`pathsAgree_iff`: the two results are the same if and only if neither happens, or there is
nothing to be found.
-/

namespace K2Cache

open Lib

variable {T : Type} {ops : TreeOps T}

namespace NodePattern

/-- The node of a `TripleNodeId`. -/
def nodeId : NodePattern → UInt64
  | .variableName _ => nodeAny
  | .concreteNodeId id => id

/-- The variables. -/
def names : NodePattern → List String
  | .variableName x => [x]
  | .concreteNodeId _ => []

/-- The cache ids at the position of the node. -/
def Takes (cache : CacheContainer T) (v : UInt64) : NodePattern → Prop
  | .variableName _ => True
  | .concreteNodeId id => v = cache.nodeIds.getId id

/-- What the rows have for the node. -/
def values (cache : CacheContainer T) (v : UInt64) : NodePattern → List UInt64
  | .variableName _ => [cache.realOf v]
  | .concreteNodeId _ => []

/-- No concrete id is `NODE_ANY`. -/
def Plain : NodePattern → Prop
  | .variableName _ => True
  | .concreteNodeId id => id ≠ nodeAny

theorem length_values (cache : CacheContainer T) (v : UInt64) (n : NodePattern) : (n.values cache v).length = n.names.length := by
  cases n <;> rfl

theorem takes_of_plain (cache : CacheContainer T) {n : NodePattern} (h : n.Plain) (v : UInt64) :
    n.Takes cache v ↔ isAny n.nodeId = true ∨ v = cache.nodeIds.getId n.nodeId := by
  cases n with
  | variableName x => simp [Takes, nodeId, isAny]
  | concreteNodeId id =>
    have hne : id ≠ nodeAny := h
    simp [Takes, nodeId, isAny, hne]

theorem matches_of_takes {cache : CacheContainer T} {n : NodePattern} {v : UInt64} (h : n.Takes cache v) :
    isAny n.nodeId = true ∨ v = cache.nodeIds.getId n.nodeId := by
  cases n with
  | variableName x => exact .inl (by simp [nodeId, isAny])
  | concreteNodeId id => exact .inr h

theorem isAny_of_plain {n : NodePattern} (h : n.Plain) : isAny n.nodeId = true ↔ n.names ≠ [] := by
  cases n with
  | variableName x => simp [nodeId, names, isAny]
  | concreteNodeId id =>
    have hne : id ≠ nodeAny := h
    simp [nodeId, names, isAny, hne]

theorem isAny_of_not_plain {n : NodePattern} (h : ¬ n.Plain) : isAny n.nodeId = true ∧ n.names = [] := by
  cases n with
  | variableName x => exact absurd trivial h
  | concreteNodeId id =>
    have heq : id = nodeAny := not_not.1 h
    exact ⟨by simp [nodeId, isAny, heq], rfl⟩

theorem isAny_of_names {n : NodePattern} (h : n.names ≠ []) : isAny n.nodeId = true := by
  cases n with
  | variableName x => simp [nodeId, isAny]
  | concreteNodeId id => exact absurd rfl h

end NodePattern

/-! ## The streamer of a pattern -/

/-- The points a `TripleNodeId` stands for. -/
def TripleNodeId.Matches (cache : CacheContainer T) (node : TripleNodeId) (x : Point) : Prop :=
  (isAny node.subject = true ∨ x.1 = cache.nodeIds.getId node.subject) ∧
    (isAny node.object = true ∨ x.2 = cache.nodeIds.getId node.object)

/-- Nothing in the tree of the predicate, if there is one, is such a point. -/
def NothingMatches (ops : TreeOps T) (cache : CacheContainer T) (node : TripleNodeId) : Prop :=
  ∀ tree, cache.fetchK2tree (cache.nodeIds.getId node.predicate) = some tree → ∀ x, ops.has tree x = true → ¬ node.Matches cache x

section Scanner

variable (hl : ops.Lawful) (cache : CacheContainer T) {node : TripleNodeId}
  (hvar : isAny node.subject = true ∨ isAny node.object = true)
include hl hvar

/-- What the scanner visits. -/
theorem mem_scannerAhead (x : Point) : x ∈ scannerAhead (initializeScanner ops cache node) ↔
    ∃ tree, cache.fetchK2tree (cache.nodeIds.getId node.predicate) = some tree ∧ ops.has tree x = true ∧ node.Matches cache x := by
  cases hfetch : cache.fetchK2tree (cache.nodeIds.getId node.predicate) with
  | none => simp [initializeScanner, hfetch, scannerAhead]
  | some tree =>
    have hahead : scannerAhead (initializeScanner ops cache node) = K2TreeScanner.scan ops tree (patternKind cache node) := by
      rw [initializeScanner, hfetch]
      rfl
    have hcolumn : ∀ v : UInt64, x ∈ K2TreeScanner.scan ops tree (.band v .column) ↔ ops.has tree x = true ∧ x.1 = v := by
      intro v
      obtain ⟨x₁, x₂⟩ := x
      rw [mem_scan_band hl]
      constructor
      · rintro ⟨w, hw, hhas⟩
        rw [← hw] at hhas
        exact ⟨hhas, (Prod.mk.inj hw).1⟩
      · rintro ⟨hhas, rfl⟩
        exact ⟨x₂, rfl, hhas⟩
    have hrow : ∀ v : UInt64, x ∈ K2TreeScanner.scan ops tree (.band v .row) ↔ ops.has tree x = true ∧ x.2 = v := by
      intro v
      obtain ⟨x₁, x₂⟩ := x
      rw [mem_scan_band hl]
      constructor
      · rintro ⟨w, hw, hhas⟩
        rw [← hw] at hhas
        exact ⟨hhas, (Prod.mk.inj hw).2⟩
      · rintro ⟨hhas, rfl⟩
        exact ⟨x₁, rfl, hhas⟩
    rw [hahead, patternKind]
    cases hs : isAny node.subject with
    | true =>
      cases ho : isAny node.object with
      | true => simp [K2TreeScanner.scan, hl.mem_fullScan, TripleNodeId.Matches, hs, ho]
      | false => simp [hrow, TripleNodeId.Matches, hs, ho]
    | false =>
      have ho : isAny node.object = true := hvar.resolve_left (by rw [hs]; simp)
      simp [hcolumn, ho, TripleNodeId.Matches, hs]

omit hvar in
theorem nodup_scannerAhead : (scannerAhead (initializeScanner ops cache node)).Nodup := by
  rw [initializeScanner]
  cases cache.fetchK2tree (cache.nodeIds.getId node.predicate) with
  | none => exact List.nodup_nil
  | some tree =>
    show (K2TreeScanner.scan ops tree (patternKind cache node)).Nodup
    cases patternKind cache node with
    | full => exact hl.nodup_fullScan tree
    | band v bt =>
      refine (hl.nodup_bandScan tree bt v).map fun a b hab => ?_
      cases bt with
      | column => exact (Prod.mk.inj hab).2
      | row => exact (Prod.mk.inj hab).1
    | empty => exact List.nodup_nil

theorem scannerAhead_eq_nil : scannerAhead (initializeScanner ops cache node) = [] ↔ NothingMatches ops cache node := by
  rw [List.eq_nil_iff_forall_not_mem]
  constructor
  · intro h tree hfetch x hhas hmatch
    exact h x ((mem_scannerAhead hl cache hvar x).2 ⟨tree, hfetch, hhas, hmatch⟩)
  · intro h x hx
    obtain ⟨tree, hfetch, hhas, hmatch⟩ := (mem_scannerAhead hl cache hvar x).1 hx
    exact h tree hfetch x hhas hmatch

end Scanner

/-! ## The pattern as a query -/

/-- The pattern of a message. -/
def patternOf (s : NodePattern) (p : UInt64) (o : NodePattern) : BGPTriple :=
  ⟨protoToBgpNode s, protoToBgpNode (.concreteNodeId p), protoToBgpNode o⟩

/-- The message that asks for all variables of the pattern. -/
def messageOf (s : NodePattern) (p : UInt64) (o : NodePattern) (firstBatchSmall : Bool) : BGPMessage :=
  ⟨s.names ++ o.names, [patternOf s p o], firstBatchSmall⟩

section Query

variable (cache : CacheContainer T) (s : NodePattern) (p : UInt64) (o : NodePattern)

/-- The point of an assignment. -/
def pointOf (a : String → UInt64) : Point :=
  (((patternOf s p o).resolve cache.nodeIds.getId).subject.eval a, ((patternOf s p o).resolve cache.nodeIds.getId).object.eval a)

theorem eval_resolve (n : NodePattern) (a : String → UInt64) :
    BGPNode.eval a { protoToBgpNode n with cacheNodeId := getCacheId cache.nodeIds.getId (protoToBgpNode n) } =
      match n with
      | .variableName x => a x
      | .concreteNodeId id => cache.nodeIds.getId id := by
  cases n <;> simp [protoToBgpNode, BGPNode.eval, getCacheId]

theorem values_eval (n : NodePattern) (a : String → UInt64) :
    n.values cache (BGPNode.eval a { protoToBgpNode n with cacheNodeId := getCacheId cache.nodeIds.getId (protoToBgpNode n) }) =
      n.names.map fun x => cache.realOf (a x) := by
  rw [eval_resolve]
  cases n <;> rfl

theorem mem_patternVars (x : String) : x ∈ s.names ++ o.names ↔ x ∈ patternVars [(patternOf s p o).resolve cache.nodeIds.getId] := by
  cases s <;> cases o <;>
    simp [patternVars, BGPTriple.vars, BGPTriple.resolve, patternOf, protoToBgpNode, NodePattern.names, @eq_comm _ x]

/-- Two assignments with one point agree on the variables. -/
theorem eq_of_pointOf {a b : String → UInt64} (h : pointOf cache s p o a = pointOf cache s p o b) {x : String}
    (hx : x ∈ s.names ++ o.names) : a x = b x := by
  obtain ⟨h1, h2⟩ := Prod.mk.inj h
  simp only [BGPTriple.resolve, patternOf, eval_resolve] at h1 h2
  rcases List.mem_append.1 hx with hx | hx
  · cases s with
    | variableName y =>
      obtain rfl := List.mem_singleton.1 hx
      exact h1
    | concreteNodeId id => simp [NodePattern.names] at hx
  · cases o with
    | variableName y =>
      obtain rfl := List.mem_singleton.1 hx
      exact h2
    | concreteNodeId id => simp [NodePattern.names] at hx

theorem pointOf_congr {a b : String → UInt64} (h : ∀ x ∈ s.names ++ o.names, a x = b x) :
    pointOf cache s p o a = pointOf cache s p o b := by
  simp only [pointOf, BGPTriple.resolve, patternOf, eval_resolve, Prod.mk.injEq]
  constructor
  · cases s with
    | variableName y => exact h y (List.mem_append_left _ List.mem_cons_self)
    | concreteNodeId id => rfl
  · cases o with
    | variableName y => exact h y (List.mem_append_right _ List.mem_cons_self)
    | concreteNodeId id => rfl

theorem not_repeats (hnodup : (s.names ++ o.names).Nodup) : ¬ ((patternOf s p o).resolve cache.nodeIds.getId).Repeats := by
  rintro ⟨hs, ho, he⟩
  cases s with
  | variableName y =>
    cases o with
    | variableName z =>
      have hne : y ≠ z := by simpa [NodePattern.names] using hnodup
      exact hne he
    | concreteNodeId id => exact absurd ho (by simp [BGPTriple.resolve, patternOf, protoToBgpNode])
  | concreteNodeId id => exact absurd hs (by simp [BGPTriple.resolve, patternOf, protoToBgpNode])

/-- The points of assignments are those the nodes take. -/
theorem exists_pointOf (hnodup : (s.names ++ o.names).Nodup) (x : Point) :
    (∃ a, pointOf cache s p o a = x) ↔ s.Takes cache x.1 ∧ o.Takes cache x.2 := by
  obtain ⟨x₁, x₂⟩ := x
  simp only [pointOf, BGPTriple.resolve, patternOf, eval_resolve, Prod.mk.injEq]
  cases s with
  | variableName y =>
    cases o with
    | variableName z =>
      have hne : y ≠ z := by simpa [NodePattern.names] using hnodup
      simp only [NodePattern.Takes, and_self, iff_true]
      exact ⟨fun v => if v = y then x₁ else x₂, by simp, by simp [hne.symm]⟩
    | concreteNodeId id =>
      simp only [NodePattern.Takes, true_and]
      constructor
      · rintro ⟨a, -, rfl⟩
        rfl
      · rintro rfl
        exact ⟨fun _ => x₁, rfl, rfl⟩
  | concreteNodeId id =>
    cases o with
    | variableName z =>
      simp only [NodePattern.Takes, and_true]
      constructor
      · rintro ⟨a, rfl, -⟩
        rfl
      · rintro rfl
        exact ⟨fun _ => x₂, rfl, rfl⟩
    | concreteNodeId id' =>
      simp only [NodePattern.Takes]
      constructor
      · rintro ⟨a, rfl, rfl⟩
        exact ⟨rfl, rfl⟩
      · rintro ⟨rfl, rfl⟩
        exact ⟨fun _ => 0, rfl, rfl⟩

end Query

section Stream

variable (hl : ops.Lawful) {cache : CacheContainer T}
  (hreal : ∀ p tree x, cache.fetchK2tree p = some tree → ops.has tree x = true → cache.Real x) {c : TimeControl}
  (hc : c.NeverExpires) {s : NodePattern} (p : UInt64) {o : NodePattern} (hnodup : (s.names ++ o.names).Nodup)
include hl hreal hc hnodup

/-- **The points of the query**, each once, and what is streamed of them. -/
theorem exists_queryPoints : ∃ pts : List Point, pts.Nodup ∧
    (∀ x, x ∈ pts ↔ cache.nodeIds.getId p ≠ 0 ∧ ∃ tree, cache.fetchK2tree (cache.nodeIds.getId p) = some tree ∧
      ops.has tree x = true ∧ s.Takes cache x.1 ∧ o.Takes cache x.2) ∧
    ∀ firstBatchSmall, ∃ N, ∀ fuel, N ≤ fuel → ∀ (channelId : ℤ) (uninit : Bool), ∃ ms s',
      BGPStreamer.Messages ops cache fuel (.construct channelId (messageOf s p o firstBatchSmall) c uninit) ms s' ∧
      ms.flatMap BGPJoinResponse.bgpResponseRow = pts.map fun x => s.values cache x.1 ++ o.values cache x.2 := by
  obtain ⟨rows, hrows, hrowsnodup, hmem⟩ := executeIt_result hl cache.fetchK2tree cache.nodeIds.getId
    VarIndexManager.construct_valid hc (show [patternOf s p o] ≠ [] by simp)
  set t := (patternOf s p o).resolve cache.nodeIds.getId with ht
  have hres : [patternOf s p o].map (BGPTriple.resolve cache.nodeIds.getId) = [t] := rfl
  rw [hres] at hrowsnodup hmem
  set h := findHeaders .construct [t] with hh
  have hof : h.Of (patternVars [t]) := findHeaders_of VarIndexManager.construct_valid [t]
  have hpid : t.predicate.cacheNodeId = cache.nodeIds.getId p := by
    simp [ht, patternOf, BGPTriple.resolve, protoToBgpNode, getCacheId]
  refine ⟨rows.map fun row => pointOf cache s p o (rowValue h.pos row), ?_, fun x => ?_, fun firstBatchSmall => ?_⟩
  · -- rows with one point have the same values, and are equal
    refine List.Nodup.map_on ?_ (hrowsnodup (by simpa using not_repeats cache s p o hnodup))
    intro row hrow row' hrow' heq
    rw [← ((hmem row).1 hrow).layout_eq hof, ← ((hmem row').1 hrow').layout_eq hof]
    refine (hof.layout_inj _ _).2 fun x hx => ?_
    exact eq_of_pointOf cache s p o heq ((mem_patternVars cache s p o x).2 hx)
  · rw [List.mem_map]
    constructor
    · rintro ⟨row, hrow, rfl⟩
      have ha := (hmem row).1 hrow
      have hid : t.predicate.cacheNodeId ≠ 0 := by
        have := List.all_eq_true.1 ha.trees t List.mem_cons_self
        exact of_decide_eq_true (Bool.and_eq_true_iff.1 this).1
      obtain ⟨⟨tree, hfetch, hfound⟩, -⟩ := ha.found
      rw [hpid] at hid hfetch
      have hpoint := hfound.resolve_right fun hrep => not_repeats cache s p o hnodup hrep.1
      exact ⟨hid, tree, hfetch, hpoint, (exists_pointOf cache s p o hnodup _).1 ⟨_, rfl⟩⟩
    · rintro ⟨hid, tree, hfetch, hhas, htakes⟩
      obtain ⟨a, rfl⟩ := (exists_pointOf cache s p o hnodup x).2 htakes
      have hvalue : ∀ x ∈ patternVars [t], rowValue h.pos (h.layout a) x = a x := fun x hx => hof.val_layout a hx
      refine ⟨h.layout a, (hmem _).2 ⟨?_, by simp [Headers.layout], ?_⟩, ?_⟩
      · simp [doAllPredicatesHaveTrees, hpid, hid, hfetch]
      · refine (allFound_congr hvalue ∅).2 ⟨⟨tree, by rw [hpid]; exact hfetch, .inl hhas⟩, trivial⟩
      · exact pointOf_congr cache s p o fun x hx => hvalue x ((mem_patternVars cache s p o x).1 hx)
  · obtain ⟨N, hN⟩ := exists_stream (m := messageOf s p o firstBatchSmall) hrows fun row hrow =>
      ((hmem row).1 hrow).rowValues hreal hof hnodup (mem_patternVars cache s p o)
    refine ⟨N, fun fuel hfuel channelId uninit => ?_⟩
    obtain ⟨ms, s', hms, hitems⟩ := hN fuel hfuel channelId uninit
    refine ⟨ms, s', hms, ?_⟩
    rw [hitems, List.map_map]
    refine List.map_congr_left fun row _ => ?_
    show (s.names ++ o.names).map _ = _
    rw [List.map_append, ← values_eval, ← values_eval]
    rfl

end Stream

/-! ## Agreement -/

/-- **The two paths agree**: the runs end, and the rows are, each as often, the matching values. -/
def PathsAgree (ops : TreeOps T) (cache : CacheContainer T) (c : TimeControl) (s : NodePattern) (p : UInt64) (o : NodePattern) :
    Prop :=
  ∀ (channelId patternChannelId : ℤ) (thresholdPartSize : UInt64) (firstBatchSmall : Bool),
    ∃ rs s₁, TriplePatternMatchingStreamer.Responses ops cache
        (.construct ops cache channelId patternChannelId ⟨s.nodeId, p, o.nodeId⟩ thresholdPartSize) rs s₁ ∧
      ∃ N, ∀ fuel, N ≤ fuel → ∀ uninit, ∃ ms s₂, BGPStreamer.Messages ops cache fuel
        (.construct channelId (messageOf s p o firstBatchSmall) c uninit) ms s₂ ∧
        (ms.flatMap BGPJoinResponse.bgpResponseRow).Perm (rs.flatMap TriplesResponse.matchingValues)

theorem addRealValue_of_hasReal {cache : CacheContainer T} {v : UInt64} (h : cache.HasReal v) :
    cache.addRealValue v = [cache.realOf v] := if_pos h

/-- What a match is answered with, if no concrete id is taken for a variable. -/
theorem matchData_of_plain {cache : CacheContainer T} {s o : NodePattern} (hs : s.Plain) (ho : o.Plain) {x : Point}
    (hx : cache.Real x) : TriplePatternMatchingStreamer.matchData cache (isAny s.nodeId) (isAny o.nodeId) x =
      s.values cache x.1 ++ o.values cache x.2 := by
  have hnode : ∀ {n : NodePattern} {v : UInt64}, n.Plain → cache.HasReal v →
      (if isAny n.nodeId = true then cache.addRealValue v else []) = n.values cache v := by
    intro n v hn hv
    cases n with
    | variableName y => exact (if_pos (by simp [NodePattern.nodeId, isAny])).trans (addRealValue_of_hasReal hv)
    | concreteNodeId id =>
      refine if_neg fun hany => ?_
      exact (NodePattern.isAny_of_plain hn).1 hany rfl
  rw [TriplePatternMatchingStreamer.matchData, hnode hs hx.1, hnode ho hx.2]

section Agree

variable (hl : ops.Lawful) {cache : CacheContainer T}
  (hreal : ∀ p tree x, cache.fetchK2tree p = some tree → ops.has tree x = true → cache.Real x) {c : TimeControl}
  (hc : c.NeverExpires) {s : NodePattern} {p : UInt64} {o : NodePattern} (hnodup : (s.names ++ o.names).Nodup)
  (hvar : s.names ++ o.names ≠ [])
include hl hreal hc hnodup hvar

/-- If the paths agree, one of the two conditions holds. -/
theorem PathsAgree.condition (h : PathsAgree ops cache c s p o) :
    (cache.nodeIds.getId p ≠ 0 ∧ s.Plain ∧ o.Plain) ∨ NothingMatches ops cache ⟨s.nodeId, p, o.nodeId⟩ := by
  have hany : isAny s.nodeId = true ∨ isAny o.nodeId = true := by
    by_cases hs : s.names = []
    · exact .inr (NodePattern.isAny_of_names fun ho => hvar (by rw [hs, ho]; rfl))
    · exact .inl (NodePattern.isAny_of_names hs)
  by_contra hnot
  push Not at hnot
  obtain ⟨hplain, hmatch⟩ := hnot
  rw [← scannerAhead_eq_nil hl cache hany] at hmatch
  obtain ⟨rs, s₁, hrs, N, hN⟩ := h 0 0 0 false
  obtain ⟨pts, -, hmem, hstream⟩ := exists_queryPoints hl hreal hc p hnodup
  obtain ⟨N', hN'⟩ := hstream false
  obtain ⟨ms, s₂, hms, hperm⟩ := hN (N + N') (by omega) false
  obtain ⟨ms', s₂', hms', hitems⟩ := hN' (N + N') (by omega) 0 false
  obtain ⟨rfl, -⟩ := hms.unique hms'
  obtain ⟨rs', s₁', hrs', hvalues⟩ := TriplePatternMatchingStreamer.drain cache
    (.construct ops cache 0 0 ⟨s.nodeId, p, o.nodeId⟩ 0) hany rfl
  obtain ⟨rfl, -⟩ := hrs.unique hrs'
  rw [hitems, hvalues] at hperm
  -- what the streamer has first is one of the rows
  obtain ⟨x, l, hahead⟩ := List.exists_cons_of_ne_nil hmatch
  have hx : x ∈ scannerAhead (initializeScanner ops cache ⟨s.nodeId, p, o.nodeId⟩) := by
    rw [hahead]
    exact List.mem_cons_self
  obtain ⟨tree, hfetch, hhas, -⟩ := (mem_scannerAhead hl cache hany x).1 hx
  have hrow := hperm.mem_iff.2 (List.mem_map_of_mem hx)
  obtain ⟨y, hy, heq⟩ := List.mem_map.1 hrow
  have hid := ((hmem y).1 hy).1
  -- it has a value for a concrete id, which the row has not
  have hlen := congrArg List.length heq
  have hx' := hreal _ _ _ hfetch hhas
  simp only [List.length_append, NodePattern.length_values, TriplePatternMatchingStreamer.matchData,
    TriplePatternMatchingStreamer.construct, addRealValue_of_hasReal hx'.1, addRealValue_of_hasReal hx'.2] at hlen
  have hcount : ∀ (n : NodePattern) (w : UInt64), n.names.length ≤ (if isAny n.nodeId = true then [w] else []).length := by
    intro n w
    cases n with
    | variableName y => simp [NodePattern.names, NodePattern.nodeId, isAny]
    | concreteNodeId id => simp [NodePattern.names]
  have hs' := hcount s (cache.realOf x.1)
  have ho' := hcount o (cache.realOf x.2)
  by_cases hs : s.Plain
  · obtain ⟨h1, h2⟩ := NodePattern.isAny_of_not_plain (hplain hid hs)
    rw [h1, h2] at hlen
    simp only [List.length_nil, if_true, List.length_singleton] at hlen
    omega
  · obtain ⟨h1, h2⟩ := NodePattern.isAny_of_not_plain hs
    rw [h1, h2] at hlen
    simp only [List.length_nil, if_true, List.length_singleton] at hlen
    omega

/-- **A pattern asked for in two ways.** The results are the same if and only if the predicate
does not have the cache id 0 and no concrete id is `NODE_ANY`, or nothing matches. -/
theorem pathsAgree_iff : PathsAgree ops cache c s p o ↔
    (cache.nodeIds.getId p ≠ 0 ∧ s.Plain ∧ o.Plain) ∨ NothingMatches ops cache ⟨s.nodeId, p, o.nodeId⟩ := by
  constructor
  · exact PathsAgree.condition hl hreal hc hnodup hvar
  · intro hcond channelId patternChannelId thresholdPartSize firstBatchSmall
    have hany : isAny s.nodeId = true ∨ isAny o.nodeId = true := by
      by_cases hs : s.names = []
      · exact .inr (NodePattern.isAny_of_names fun ho => hvar (by rw [hs, ho]; rfl))
      · exact .inl (NodePattern.isAny_of_names hs)
    obtain ⟨pts, hptsnodup, hmem, hstream⟩ := exists_queryPoints hl hreal hc p hnodup
    obtain ⟨N, hN⟩ := hstream firstBatchSmall
    obtain ⟨rs, s₁, hrs, hvalues⟩ := TriplePatternMatchingStreamer.drain cache
      (.construct ops cache channelId patternChannelId ⟨s.nodeId, p, o.nodeId⟩ thresholdPartSize) hany rfl
    refine ⟨rs, s₁, hrs, N, fun fuel hfuel uninit => ?_⟩
    obtain ⟨ms, s₂, hms, hitems⟩ := hN fuel hfuel channelId uninit
    refine ⟨ms, s₂, hms, ?_⟩
    rw [hitems, hvalues]
    show (pts.map _).Perm ((scannerAhead (initializeScanner ops cache ⟨s.nodeId, p, o.nodeId⟩)).map
      (TriplePatternMatchingStreamer.matchData cache (isAny s.nodeId) (isAny o.nodeId)))
    rcases hcond with ⟨hid, hs, ho⟩ | hnone
    · have hperm : pts.Perm (scannerAhead (initializeScanner ops cache ⟨s.nodeId, p, o.nodeId⟩)) := by
        refine (List.perm_ext_iff_of_nodup hptsnodup (nodup_scannerAhead hl cache)).2 fun x => ?_
        rw [hmem, mem_scannerAhead hl cache hany]
        simp only [hid, ne_eq, not_false_eq_true, true_and, TripleNodeId.Matches, NodePattern.takes_of_plain cache hs,
          NodePattern.takes_of_plain cache ho]
      refine (hperm.map _).trans (List.Perm.of_eq (List.map_congr_left fun x hx => ?_))
      obtain ⟨tree, hfetch, hhas, -⟩ := (mem_scannerAhead hl cache hany x).1 hx
      exact (matchData_of_plain hs ho (hreal _ _ _ hfetch hhas)).symm
    · have hpts : pts = [] := by
        rw [List.eq_nil_iff_forall_not_mem]
        intro x hx
        obtain ⟨-, tree, hfetch, hhas, h1, h2⟩ := (hmem x).1 hx
        exact hnone tree hfetch x hhas ⟨NodePattern.matches_of_takes h1, NodePattern.matches_of_takes h2⟩
      rw [hpts, (scannerAhead_eq_nil hl cache hany).2 hnone]
      exact List.Perm.nil

end Agree

namespace PointTree

/-- The nodes 5, 7, 10 and 20, in the nodes sequence: 5 has the cache id 0. -/
def sequenceIds : NodeIdsManager := ⟨⟨[5, 7, 10, 20]⟩, .construct ∅, 3, 0⟩

/-- The triples `10 5 20` and `10 7 20`. -/
def sequenceCache : CacheContainer PointTree :=
  ⟨sequenceIds.ids, fun p => if p = 0 ∨ p = 1 then some (ofList [(2, 3)]) else none⟩

theorem sequenceCache_real : ∀ p tree x, sequenceCache.fetchK2tree p = some tree → PointTree.ops.has tree x = true →
    sequenceCache.Real x := by
  intro p tree x hfetch hhas
  have htree : tree = ofList [(2, 3)] := by
    simp only [sequenceCache] at hfetch
    split at hfetch
    · exact (Option.some.inj hfetch).symm
    · simp at hfetch
  have hx : x ∈ [((2 : UInt64), (3 : UInt64))] := by
    rw [htree] at hhas
    simpa [PointTree.ops, ofList] using hhas
  obtain rfl := List.mem_singleton.1 hx
  exact ⟨by decide, by decide⟩

end PointTree

open PointTree

/-- The subjects of `20` under the predicate 7. -/
theorem pathsAgree_iff_second :
    PathsAgree PointTree.ops sequenceCache ⟨1000, 0, false, fun _ => false, 0⟩ (.variableName "x") 7 (.concreteNodeId 20) :=
  (pathsAgree_iff ops_lawful sequenceCache_real ⟨rfl, fun _ => rfl⟩ (by decide) (by decide)).2
    (.inl ⟨by decide +kernel, trivial, show (20 : UInt64) ≠ nodeAny by decide⟩)

/-- The predicate 5 has the first position of the sequence: as a query, its triple is not found. -/
theorem pathsAgree_fails : ¬ PathsAgree PointTree.ops sequenceCache ⟨1000, 0, false, fun _ => false, 0⟩
    (.variableName "x") 5 (.variableName "y") := by
  intro h
  rcases h.condition ops_lawful sequenceCache_real ⟨rfl, fun _ => rfl⟩ (by decide) (by decide) with ⟨hid, -⟩ | hnone
  · exact absurd hid (by decide +kernel)
  · exact hnone (ofList [(2, 3)]) (by decide +kernel) (2, 3) (by decide) ⟨.inl (by decide), .inl (by decide)⟩

end K2Cache
