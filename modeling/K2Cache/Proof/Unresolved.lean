import K2Cache.Proof.OnePattern

/-!
# Ids without real ids

A point of a tree may have an id that has no real id any more. The streamer of a tree answers
it with the values that are left, the streamer of an indexed predicate leaves it out, and so
does the sorted streamer. The last one keeps its `err_code` from one point to the next, and
`NodesMapImpl::get_real_id` writes it only where it finds nothing: a resolved id of the map,
behind a point that was left out, is taken for a missing one.

`resolvedDelivered_iff`: when each of the three delivers the points that resolve, and nothing
else.
-/

namespace K2Cache

open Lib

variable {T : Type} {ops : TreeOps T} {cache : CacheContainer T} {node : TripleNodeId}

/-! ## Points that resolve -/

instance (v : UInt64) : Decidable (cache.HasReal v) :=
  inferInstanceAs (Decidable ((cache.nodeIds.getRealId v).2.getD .success = .success))

/-- The lookup of a real id writes to `err_code`. -/
def CacheContainer.WritesCode (cache : CacheContainer T) (v : UInt64) : Prop := (cache.nodeIds.getRealId v).2.isSome

instance (v : UInt64) : Decidable (cache.WritesCode v) :=
  inferInstanceAs (Decidable ((cache.nodeIds.getRealId v).2.isSome = true))

/-- An id that is found in the map is one whose lookup writes nothing. -/
theorem NodeIdsManager.writesCode_iff (m : NodeIdsManager) (fetch : UInt64 → Option T) (v : UInt64) :
    (⟨m.ids, fetch⟩ : CacheContainer T).WritesCode v ↔
      v.toNat < m.nodesSequence.values.length ∨ m.nodesMap.revMap.find? v = none := by
  show (m.getRealId v).2.isSome = true ↔ _
  unfold NodeIdsManager.getRealId NodesSequence.getRealId NodesMap.getRealId
  cases hv : m.nodesSequence.values[v.toNat]? with
  | none =>
    have hlen := List.getElem?_eq_none_iff.1 hv
    cases m.nodesMap.revMap.find? v <;> simp [hlen]
  | some real =>
    obtain ⟨hlen, -⟩ := List.getElem?_eq_some_iff.1 hv
    simp [hlen]

namespace TripleNodeId

instance (x : Point) : Decidable (node.Matches cache x) :=
  inferInstanceAs (Decidable ((isAny node.subject = true ∨ x.1 = cache.nodeIds.getId node.subject) ∧
    (isAny node.object = true ∨ x.2 = cache.nodeIds.getId node.object)))

/-- The ids at the variable positions have real ids. -/
def Resolves (cache : CacheContainer T) (node : TripleNodeId) (x : Point) : Prop :=
  (isAny node.subject = true → cache.HasReal x.1) ∧ (isAny node.object = true → cache.HasReal x.2)

instance (x : Point) : Decidable (node.Resolves cache x) :=
  inferInstanceAs (Decidable ((isAny node.subject = true → cache.HasReal x.1) ∧
    (isAny node.object = true → cache.HasReal x.2)))

/-- One value for each variable. -/
def realValues (cache : CacheContainer T) (node : TripleNodeId) (x : Point) : List UInt64 :=
  (if isAny node.subject then [cache.realOf x.1] else []) ++ (if isAny node.object then [cache.realOf x.2] else [])

/-- The id at the first variable position. -/
def firstVariable (node : TripleNodeId) (x : Point) : UInt64 := if isAny node.subject then x.1 else x.2

/-- The bytes of the values of a match. -/
def bytes (node : TripleNodeId) : ℕ := if isAny node.subject && isAny node.object then 16 else 8

end TripleNodeId

/-- **A streamer delivers the points that resolve**: its responses, up to the last one, have the
values of these points, each once. -/
def DeliversResolved {ε σ : Type} (next : Act ε σ TriplesResponse) (s : σ) (ops : TreeOps T) (cache : CacheContainer T)
    (t : T) (node : TripleNodeId) : Prop :=
  ∃ rs s', ∃ l : List Point, Read next TriplesResponse.lastResult s rs s' ∧ l.Nodup ∧
    (∀ x, x ∈ l ↔ ops.has t x = true ∧ node.Matches cache x ∧ node.Resolves cache x) ∧
    (rs.flatMap TriplesResponse.matchingValues).Perm (l.map (node.realValues cache))

/-- The points that the scanner of a pattern visits. -/
abbrev TripleNodeId.scanned (ops : TreeOps T) (cache : CacheContainer T) (node : TripleNodeId) (t : T) : List Point :=
  K2TreeScanner.scan ops t (patternKind cache node)

section Scanned

variable (hl : ops.Lawful) {t : T} (hfetch : cache.fetchK2tree (cache.nodeIds.getId node.predicate) = some t)
include hl hfetch

theorem nodup_scanned : (node.scanned ops cache t).Nodup := by
  have h : (scannerAhead (initializeScanner ops cache node)).Nodup := nodup_scannerAhead hl cache
  rw [initializeScanner, hfetch] at h
  exact h

variable (hvar : isAny node.subject = true ∨ isAny node.object = true)
include hvar

theorem mem_scanned (x : Point) : x ∈ node.scanned ops cache t ↔ ops.has t x = true ∧ node.Matches cache x := by
  have h := mem_scannerAhead hl cache hvar x
  simp only [initializeScanner, hfetch, Option.map_some] at h
  refine h.trans ⟨?_, fun h => ⟨t, rfl, h⟩⟩
  rintro ⟨tree, htree, h⟩
  rw [Option.some.inj htree]
  exact h

/-- What is to be delivered, for a streamer whose responses are known. -/
theorem deliversResolved_of_read {ε σ : Type} {next : Act ε σ TriplesResponse} {s s' : σ} {rs : List TriplesResponse}
    (hread : Read next TriplesResponse.lastResult s rs s') : DeliversResolved next s ops cache t node ↔
      (rs.flatMap TriplesResponse.matchingValues).Perm
        (((node.scanned ops cache t).filter (node.Resolves cache ·)).map (node.realValues cache)) := by
  have hmem : ∀ x, x ∈ (node.scanned ops cache t).filter (node.Resolves cache ·) ↔
      ops.has t x = true ∧ node.Matches cache x ∧ node.Resolves cache x := by
    intro x
    rw [List.mem_filter, mem_scanned hl hfetch hvar, decide_eq_true_eq, and_assoc]
  constructor
  · rintro ⟨rs', s'', l, hread', hnodup, hl', hperm⟩
    obtain ⟨rfl, -⟩ := hread.unique hread'
    refine hperm.trans (List.Perm.map _ ?_)
    exact (List.perm_ext_iff_of_nodup hnodup ((nodup_scanned hl hfetch).filter _)).2 fun x =>
      (hl' x).trans (hmem x).symm
  · intro hperm
    exact ⟨rs, s', _, hread, (nodup_scanned hl hfetch).filter _, hmem, hperm⟩

end Scanned

/-- One value list for each point of two lists: as many points. -/
theorem length_of_perm_values {α β γ : Type} {l : List α} {l' : List β} {f : α → γ} {g : β → γ}
    (h : (l.map f).Perm (l'.map g)) : l.length = l'.length := by
  have hlen := h.length_eq
  rwa [List.length_map, List.length_map] at hlen

theorem addRealValue_of_not_hasReal {v : UInt64} (h : ¬ cache.HasReal v) : cache.addRealValue v = [] := if_neg h

/-! ## From the tree -/

namespace TriplePatternMatchingStreamer

theorem matchData_of_resolves {x : Point} (h : node.Resolves cache x) :
    matchData cache (isAny node.subject) (isAny node.object) x = node.realValues cache x := by
  unfold matchData TripleNodeId.realValues
  cases hs : isAny node.subject <;> cases ho : isAny node.object <;>
    simp [addRealValue_of_hasReal, h.1, h.2, hs, ho]

/-- **The streamer of a tree** delivers the points that resolve if and only if they all do: it
has a list of values for each. -/
theorem deliversResolved_iff (hl : ops.Lawful) (cache : CacheContainer T) (node : TripleNodeId) {t : T}
    (hfetch : cache.fetchK2tree (cache.nodeIds.getId node.predicate) = some t)
    (hvar : isAny node.subject = true ∨ isAny node.object = true) (channelId patternChannelId : ℤ)
    (thresholdPartSize : UInt64) :
    DeliversResolved (getNextResponse ops cache) (construct ops cache channelId patternChannelId node thresholdPartSize)
        ops cache t node ↔
      ∀ x, ops.has t x = true → node.Matches cache x → node.Resolves cache x := by
  obtain ⟨rs, s', hrs, hvalues⟩ := drain cache (construct ops cache channelId patternChannelId node thresholdPartSize) hvar rfl
  have hahead : scannerAhead (construct ops cache channelId patternChannelId node thresholdPartSize).k2treeScanner =
      node.scanned ops cache t := by
    simp only [construct, initializeScanner, hfetch]
    rfl
  rw [hahead] at hvalues
  rw [deliversResolved_of_read hl hfetch hvar hrs.read, hvalues]
  constructor
  · intro h x hx hmatch
    have hlen := (length_of_perm_values h).symm
    have hall := List.length_filter_eq_length_iff.1 hlen x ((mem_scanned hl hfetch hvar x).2 ⟨hx, hmatch⟩)
    exact of_decide_eq_true hall
  · intro h
    have hall : ∀ x ∈ node.scanned ops cache t, node.Resolves cache x := fun x hx =>
      ((mem_scanned hl hfetch hvar x).1 hx).elim (h x)
    rw [List.filter_eq_self.2 fun x hx => decide_eq_true (hall x hx)]
    exact List.Perm.of_eq (List.map_congr_left fun x hx => matchData_of_resolves (hall x hx))

end TriplePatternMatchingStreamer

/-! ## From the indexed predicate -/

/-- The points that the `int` of a scanner of one vector does not reach. -/
def TripleNodeId.unreached (ops : TreeOps T) (cache : CacheContainer T) (node : TripleNodeId) (t : T) : List Point :=
  if isAny node.subject && isAny node.object then []
  else
    let matching := (ops.fullScan t).filter (node.Matches cache ·)
    matching.drop (wrapInt matching.length).toNat

theorem TripleNodeId.unreached_eq_nil {t : T} (h : ((ops.fullScan t).filter (node.Matches cache ·)).length < 2 ^ 31) :
    node.unreached ops cache t = [] := by
  unfold unreached
  split
  · rfl
  · simp only [wrapInt_of_lt h]
    exact List.drop_eq_nil_of_le (by omega)

namespace StreamerFromCachedSource

theorem matchData_eq (x : Point) : matchData cache (isAny node.subject) (isAny node.object) x =
    if node.Resolves cache x then some (node.realValues cache x) else none := by
  by_cases hx : node.Resolves cache x
  · rw [if_pos hx]
    obtain ⟨h1, h2⟩ := hx
    unfold matchData TripleNodeId.realValues
    cases hs : isAny node.subject <;> cases ho : isAny node.object <;>
      simp [h1, h2, hs, ho, addRealValue_of_hasReal]
  · rw [if_neg hx]
    unfold TripleNodeId.Resolves at hx
    unfold matchData
    by_cases h1 : cache.HasReal x.1 <;> by_cases h2 : cache.HasReal x.2 <;>
      cases hs : isAny node.subject <;> cases ho : isAny node.object <;>
      simp_all [addRealValue_of_not_hasReal]

theorem filterMap_matchData (l : List Point) : l.filterMap (matchData cache (isAny node.subject) (isAny node.object)) =
    (l.filter (node.Resolves cache ·)).map (node.realValues cache) := by
  induction l with
  | nil => rfl
  | cons x l ih =>
    by_cases h : node.Resolves cache x
    · rw [List.filterMap_cons_some ((matchData_eq x).trans (if_pos h)), List.filter_cons_of_pos (by simpa using h), ih,
        List.map_cons]
    · rw [List.filterMap_cons_none ((matchData_eq x).trans (if_neg h)), List.filter_cons_of_neg (by simpa using h), ih]

/-- A vector, cut where an `int` ends. -/
theorem take_append_drop_vector {w : List UInt64} {f : UInt64 → Point} {l : List Point} (h : w.map f = l) :
    ((w.take (intLength w)).drop 0).map f ++ l.drop (wrapInt l.length).toNat = l := by
  subst h
  rw [List.drop_zero, List.map_take, List.length_map]
  exact List.take_append_drop (intLength w) (w.map f)

/-- The scanner of one vector. -/
theorem ahead_oneVector (t : T) (hone : (isAny node.subject && isAny node.object) = false)
    (hvar : isAny node.subject = true ∨ isAny node.object = true) (channelId patternChannelId : ℤ)
    (thresholdPartSize pastEnd : UInt64) : ∃ scanner,
      (construct (.construct ops t) channelId patternChannelId node cache thresholdPartSize pastEnd).cachedSourceScanner =
        some scanner ∧
      scanner.ahead ++ node.unreached ops cache t = (ops.fullScan t).filter (node.Matches cache ·) := by
  rw [TripleNodeId.unreached, if_neg (by simp [hone])]
  cases hs : isAny node.subject with
  | true =>
    have ho : isAny node.object = false := by
      rw [hs] at hone
      simpa using hone
    set o := cache.nodeIds.getId node.object with hodef
    refine ⟨.subject ((FullyIndexedPredicate.construct ops t).getSubjects o) 0 o, ?_, ?_⟩
    · simp only [construct, hs, ho]
      rfl
    · rw [CachedSourceScanner.ahead]
      refine take_append_drop_vector ?_
      rw [FullyIndexedPredicate.getSubjects_construct, List.map_map,
        List.filter_congr (q := (node.Matches cache ·)) fun x _ => by simp [TripleNodeId.Matches, hs, ho, hodef]]
      refine (List.map_congr_left fun x hx => ?_).trans (List.map_id _)
      have hmatch : node.Matches cache x := of_decide_eq_true (List.mem_filter.1 hx).2
      rw [Function.comp, id, hodef, ← hmatch.2.resolve_left (by simp [ho])]
  | false =>
    have ho : isAny node.object = true := hvar.resolve_left (by rw [hs]; simp)
    set v := cache.nodeIds.getId node.subject with hvdef
    refine ⟨.object ((FullyIndexedPredicate.construct ops t).getObjects v) 0 v, ?_, ?_⟩
    · simp only [construct, hs, ho]
      rfl
    · rw [CachedSourceScanner.ahead]
      refine take_append_drop_vector ?_
      rw [FullyIndexedPredicate.getObjects_construct, List.map_map,
        List.filter_congr (q := (node.Matches cache ·)) fun x _ => by simp [TripleNodeId.Matches, hs, ho, hvdef]]
      refine (List.map_congr_left fun x hx => ?_).trans (List.map_id _)
      have hmatch : node.Matches cache x := of_decide_eq_true (List.mem_filter.1 hx).2
      rw [Function.comp, id, hvdef, ← hmatch.1.resolve_left (by simp [hs])]

variable (hl : ops.Lawful) {t : T} (hfetch : cache.fetchK2tree (cache.nodeIds.getId node.predicate) = some t)
  (hvar : isAny node.subject = true ∨ isAny node.object = true)
include hl hfetch hvar

/-- What the scanner visits is what the scanner of the tree does, but for what is not reached. -/
theorem exists_ahead (channelId patternChannelId : ℤ) (thresholdPartSize pastEnd : UInt64) : ∃ scanner,
    (construct (.construct ops t) channelId patternChannelId node cache thresholdPartSize pastEnd).cachedSourceScanner =
      some scanner ∧
    (scanner.ahead ++ node.unreached ops cache t).Perm (node.scanned ops cache t) := by
  cases hone : isAny node.subject && isAny node.object with
  | true =>
    have htwo := Bool.and_eq_true_iff.1 hone
    obtain ⟨scanner, l, n, hscanner, hperm, hahead, hn⟩ := exists_cachedScanner cache hl t hvar channelId patternChannelId
      thresholdPartSize pastEnd
    refine ⟨scanner, hscanner, ?_⟩
    rw [hahead, List.take_of_length_le (hn.2 (.inl htwo)), TripleNodeId.unreached, if_pos hone, List.append_nil]
    exact hperm
  | false =>
    obtain ⟨scanner, hscanner, hahead⟩ := ahead_oneVector t hone hvar channelId patternChannelId
      thresholdPartSize pastEnd
    refine ⟨scanner, hscanner, ?_⟩
    rw [hahead]
    refine (List.perm_ext_iff_of_nodup ((hl.nodup_fullScan t).filter _) (nodup_scanned hl hfetch)).2 fun x => ?_
    rw [List.mem_filter, mem_scanned hl hfetch hvar, hl.mem_fullScan, decide_eq_true_eq]

/-- **The streamer of an indexed predicate** delivers the points that resolve if and only if
none of them is beyond the `int` that walks its vector. -/
theorem deliversResolved_iff (channelId patternChannelId : ℤ) (thresholdPartSize pastEnd : UInt64) :
    (∃ N, ∀ fuel, N ≤ fuel → DeliversResolved (getNextResponse cache fuel)
        (construct (.construct ops t) channelId patternChannelId node cache thresholdPartSize pastEnd) ops cache t node) ↔
      ∀ x ∈ node.unreached ops cache t, ¬ node.Resolves cache x := by
  obtain ⟨scanner, hscanner, hperm⟩ := exists_ahead hl hfetch hvar channelId patternChannelId thresholdPartSize pastEnd
  have hfuel : ∀ fuel, scanner.ahead.length + 1 ≤ fuel → (DeliversResolved (getNextResponse cache fuel)
        (construct (.construct ops t) channelId patternChannelId node cache thresholdPartSize pastEnd) ops cache t node ↔
      ∀ x ∈ node.unreached ops cache t, ¬ node.Resolves cache x) := by
    intro fuel hfuel
    obtain ⟨rs, s', hrs, hvalues⟩ := drain cache
      (construct (.construct ops t) channelId patternChannelId node cache thresholdPartSize pastEnd) hvar rfl hscanner hfuel
    have hvalues' : rs.flatMap TriplesResponse.matchingValues =
        (scanner.ahead.filter (node.Resolves cache ·)).map (node.realValues cache) :=
      hvalues.trans (filterMap_matchData scanner.ahead)
    have hsplit := hperm.filter (node.Resolves cache ·)
    rw [List.filter_append] at hsplit
    rw [deliversResolved_of_read hl hfetch hvar hrs.read, hvalues']
    constructor
    · intro h x hx hres
      have hlen := length_of_perm_values h
      have hlen' := hsplit.length_eq
      rw [List.length_append] at hlen'
      have hpos : 0 < ((node.unreached ops cache t).filter (node.Resolves cache ·)).length :=
        List.length_pos_of_mem (List.mem_filter.2 ⟨hx, decide_eq_true hres⟩)
      omega
    · intro h
      have hnil : (node.unreached ops cache t).filter (node.Resolves cache ·) = [] :=
        List.filter_eq_nil_iff.2 fun x hx => by simpa using h x hx
      rw [hnil, List.append_nil] at hsplit
      exact hsplit.map _
  constructor
  · rintro ⟨N, hN⟩
    exact (hfuel (N + (scanner.ahead.length + 1)) (by omega)).1 (hN _ (by omega))
  · intro h
    exact ⟨scanner.ahead.length + 1, fun fuel hle => (hfuel fuel hle).2 h⟩

end StreamerFromCachedSource

/-! ## From the sorted copy -/

namespace TPMSortedStreamer

theorem realId_fst (v : UInt64) (err : NidsErrCode) : (realId cache v err).1 = cache.realOf v := rfl

theorem realId_snd (v : UInt64) (err : NidsErrCode) :
    (realId cache v err).2 = (cache.nodeIds.getRealId v).2.getD err := rfl

/-- `err_code` behind a point, which is left out unless this is `success`. -/
def codeAfter (cache : CacheContainer T) (node : TripleNodeId) (err : NidsErrCode) (x : Point) : NidsErrCode :=
  let first := (realId cache (node.firstVariable x) err).2
  if isAny node.subject && isAny node.object && first = .success then (realId cache x.2 first).2 else first

/-- The points that `get_all_data` keeps. -/
def kept (cache : CacheContainer T) (node : TripleNodeId) : NidsErrCode → List Point → List Point
  | _, [] => []
  | err, x :: l =>
    if codeAfter cache node err x = .success then x :: kept cache node .success l
    else kept cache node (codeAfter cache node err x) l

/-- **The results** are those of the points that are kept. -/
theorem getAllData_eq (err : NidsErrCode) (l : List Point) :
    getAllData cache (isAny node.subject) (isAny node.object) err l =
      if isAny node.subject && isAny node.object then
        ([], (kept cache node err l).map fun x => (cache.realOf x.1, cache.realOf x.2))
      else ((kept cache node err l).map fun x => cache.realOf (node.firstVariable x), []) := by
  induction l generalizing err with
  | nil => split <;> rfl
  | cons x l ih =>
    cases hs : isAny node.subject with
    | true =>
      cases ho : isAny node.object with
      | true =>
        simp only [hs, ho, Bool.and_self, if_true] at ih ⊢
        by_cases h1 : (realId cache x.1 err).2 = .success
        · by_cases h2 : (realId cache x.2 (realId cache x.1 err).2).2 = .success
          · rw [h1] at h2
            simp [getAllData, kept, codeAfter, TripleNodeId.firstVariable, hs, ho, h1, h2, ih, realId_fst]
          · rw [h1] at h2
            simp [getAllData, kept, codeAfter, TripleNodeId.firstVariable, hs, ho, h1, h2, ih]
        · simp [getAllData, kept, codeAfter, TripleNodeId.firstVariable, hs, ho, h1, ih]
      | false =>
        simp only [hs, ho, Bool.and_false, Bool.false_eq_true, if_false] at ih ⊢
        by_cases h1 : (realId cache x.1 err).2 = .success
        · simp [getAllData, kept, codeAfter, TripleNodeId.firstVariable, hs, ho, h1, ih, realId_fst]
        · simp [getAllData, kept, codeAfter, TripleNodeId.firstVariable, hs, ho, h1, ih]
    | false =>
      simp only [hs, Bool.false_and, Bool.false_eq_true, if_false] at ih ⊢
      by_cases h1 : (realId cache x.2 err).2 = .success
      · simp [getAllData, kept, codeAfter, TripleNodeId.firstVariable, hs, h1, ih, realId_fst]
      · simp [getAllData, kept, codeAfter, TripleNodeId.firstVariable, hs, h1, ih]

/-- A point is kept if it resolves, and the code behind the one before it is no longer there. -/
theorem codeAfter_eq_success (hvar : isAny node.subject = true ∨ isAny node.object = true) (err : NidsErrCode) (x : Point) :
    codeAfter cache node err x = .success ↔
      node.Resolves cache x ∧ (err = .success ∨ cache.WritesCode (node.firstVariable x)) := by
  -- a lookup that writes nothing has found something
  have hlookup : ∀ v, (realId cache v err).2 = .success ↔ cache.HasReal v ∧ (err = .success ∨ cache.WritesCode v) := by
    intro v
    rw [realId_snd]
    unfold CacheContainer.HasReal CacheContainer.WritesCode
    cases (cache.nodeIds.getRealId v).2 with
    | none => simp
    | some code => simp
  unfold codeAfter TripleNodeId.Resolves
  cases hs : isAny node.subject with
  | true =>
    have hfirst : node.firstVariable x = x.1 := if_pos hs
    rw [hfirst]
    cases ho : isAny node.object with
    | true =>
      by_cases h1 : (realId cache x.1 err).2 = .success
      · have hobject : (realId cache x.2 .success).2 = .success ↔ cache.HasReal x.2 := Iff.rfl
        simp [h1, hobject, (hlookup x.1).1 h1]
      · simp only [h1, decide_false, Bool.and_false, Bool.false_eq_true, if_false, false_iff]
        rintro ⟨⟨h, -⟩, hw⟩
        exact h1 ((hlookup x.1).2 ⟨h trivial, hw⟩)
    | false => simp [hlookup]
  | false =>
    have ho : isAny node.object = true := hvar.resolve_left (by rw [hs]; simp)
    have hfirst : node.firstVariable x = x.2 := if_neg (by simp [hs])
    simp [hfirst, ho, hlookup]

/-- A point that is left out does not stand in front of one that resolves by the map. -/
def Resets (cache : CacheContainer T) (node : TripleNodeId) (x y : Point) : Prop :=
  ¬ node.Resolves cache x → node.Resolves cache y → cache.WritesCode (node.firstVariable y)

instance : DecidableRel (Resets cache node) := fun x y =>
  inferInstanceAs (Decidable (¬ node.Resolves cache x → node.Resolves cache y → cache.WritesCode (node.firstVariable y)))

theorem kept_sublist (hvar : isAny node.subject = true ∨ isAny node.object = true) (err : NidsErrCode) (l : List Point) :
    (kept cache node err l).Sublist (l.filter (node.Resolves cache ·)) := by
  induction l generalizing err with
  | nil => exact List.Sublist.slnil
  | cons x l ih =>
    unfold kept
    split
    · rename_i h
      rw [List.filter_cons_of_pos (by simpa using ((codeAfter_eq_success hvar err x).1 h).1)]
      exact (ih _).cons_cons x
    · exact (ih _).trans (List.Sublist.filter _ (List.sublist_cons_self x l))

/-- **Every point that resolves is kept** if and only if the code of a point that does not is
written over by the next one that does. -/
theorem kept_eq_iff (hvar : isAny node.subject = true ∨ isAny node.object = true) (err : NidsErrCode) (l : List Point) :
    kept cache node err l = l.filter (node.Resolves cache ·) ↔
      (err ≠ .success → ∀ y ∈ l.head?, node.Resolves cache y → cache.WritesCode (node.firstVariable y)) ∧
        l.IsChain (Resets cache node) := by
  induction l generalizing err with
  | nil => simp [kept]
  | cons x l ih =>
    have hcode : codeAfter cache node err x = .success ↔ _ := codeAfter_eq_success hvar err x
    by_cases hx : node.Resolves cache x
    · rw [List.filter_cons_of_pos (by simpa using hx), List.isChain_cons]
      have hreset : ∀ y ∈ l.head?, Resets cache node x y := fun y _ h => absurd hx h
      by_cases hw : err = .success ∨ cache.WritesCode (node.firstVariable x)
      · have hkeep := hcode.2 ⟨hx, hw⟩
        unfold kept
        rw [if_pos hkeep, List.cons_inj_right, ih]
        constructor
        · rintro ⟨-, hchain⟩
          refine ⟨fun herr y hy _ => ?_, hreset, hchain⟩
          obtain rfl : x = y := by simpa using hy
          exact hw.resolve_left herr
        · rintro ⟨-, -, hchain⟩
          exact ⟨fun h => absurd rfl h, hchain⟩
      · have hdrop : codeAfter cache node err x ≠ .success := fun h => hw (hcode.1 h).2
        unfold kept
        rw [if_neg hdrop]
        constructor
        · intro h
          have hlen : (kept cache node (codeAfter cache node err x) l).length ≤
              (l.filter (node.Resolves cache ·)).length := (kept_sublist hvar _ l).length_le
          rw [h, List.length_cons] at hlen
          omega
        · rintro ⟨hhead, -⟩
          push Not at hw
          exact absurd (hhead hw.1 x rfl hx) hw.2
    · have hdrop : codeAfter cache node err x ≠ .success := fun h => hx (hcode.1 h).1
      rw [List.filter_cons_of_neg (by simpa using hx), List.isChain_cons]
      unfold kept
      rw [if_neg hdrop, ih]
      constructor
      · rintro ⟨hhead, hchain⟩
        refine ⟨fun _ y hy hy' => ?_, fun y hy _ hy' => hhead hdrop y hy hy', hchain⟩
        obtain rfl : x = y := by simpa using hy
        exact absurd hy' hx
      · rintro ⟨-, hreset, hchain⟩
        exact ⟨fun _ y hy hy' => hreset y hy hx hy', hchain⟩

/-! ### One part -/

theorem fillPart_append {α : Type} (thresholdPartSize bytes acc : UInt64) (l : List α) :
    (fillPart thresholdPartSize bytes acc l).1 ++ (fillPart thresholdPartSize bytes acc l).2 = l := by
  induction l generalizing acc with
  | nil => rfl
  | cons x l ih =>
    unfold fillPart
    split
    · exact congrArg (x :: ·) (ih _)
    · rfl

theorem fillPart_eq_nil {α : Type} (thresholdPartSize bytes acc : UInt64) (l : List α) :
    (fillPart thresholdPartSize bytes acc l).2 = [] ↔
      ∀ i < l.length, acc + UInt64.ofNat i * bytes < thresholdPartSize := by
  induction l generalizing acc with
  | nil => simp [fillPart]
  | cons x l ih =>
    have hstep : ∀ i, acc + UInt64.ofNat (i + 1) * bytes = acc + bytes + UInt64.ofNat i * bytes := by
      intro i
      rw [UInt64.ofNat_add, UInt64.add_mul, show UInt64.ofNat 1 = 1 from rfl, UInt64.one_mul, UInt64.add_comm (UInt64.ofNat i * bytes), UInt64.add_assoc]
    unfold fillPart
    split
    · rename_i hlt
      rw [show (x :: (fillPart thresholdPartSize bytes (acc + bytes) l).1,
        (fillPart thresholdPartSize bytes (acc + bytes) l).2).2 = (fillPart thresholdPartSize bytes (acc + bytes) l).2 from rfl, ih]
      constructor
      · intro h i hi
        cases i with
        | zero => simpa using hlt
        | succ i =>
          rw [hstep]
          exact h i (by simpa using hi)
      · intro h i hi
        rw [← hstep]
        exact h (i + 1) (by simpa using hi)
    · rename_i hle
      constructor
      · intro h
        simp at h
      · intro h
        exact absurd (by simpa using h 0 (by simp)) hle

/-- The sizes in front of each result, which wrap, are below the threshold. -/
theorem sizes_lt_iff {bytes : ℕ} (hbytes : bytes = 8 ∨ bytes = 16) (thresholdPartSize : UInt64) (n : ℕ) :
    (∀ i < n, 0 + UInt64.ofNat i * UInt64.ofNat bytes < thresholdPartSize) ↔
      n * bytes < thresholdPartSize.toNat + bytes ∨ 2 ^ 64 < thresholdPartSize.toNat + bytes := by
  have hsize : ∀ i, 0 + UInt64.ofNat i * UInt64.ofNat bytes < thresholdPartSize ↔
      i * bytes % 2 ^ 64 < thresholdPartSize.toNat := by
    intro i
    rw [UInt64.lt_iff_toNat_lt, UInt64.zero_add, ← UInt64.ofNat_mul, UInt64.toNat_ofNat']
  have hth := thresholdPartSize.toNat_lt
  simp only [hsize]
  constructor
  · intro h
    by_contra hnot
    push Not at hnot
    -- the first size that is not below the threshold has not wrapped
    have := h ((thresholdPartSize.toNat + bytes - 1) / bytes) (by rcases hbytes with rfl | rfl <;> omega)
    rcases hbytes with rfl | rfl <;> omega
  · intro h i hi
    rcases hbytes with rfl | rfl <;> omega

/-- All results are in the first part. -/
def FitsOnePart (thresholdPartSize : UInt64) (bytes n : ℕ) : Prop :=
  n * bytes < thresholdPartSize.toNat + bytes ∨ 2 ^ 64 < thresholdPartSize.toNat + bytes

theorem fillPart_spec {α : Type} {bytes : ℕ} (hbytes : bytes = 8 ∨ bytes = 16) (thresholdPartSize : UInt64) (l : List α) :
    ((fillPart thresholdPartSize (UInt64.ofNat bytes) 0 l).2.isEmpty = true ↔ FitsOnePart thresholdPartSize bytes l.length) ∧
      ((fillPart thresholdPartSize (UInt64.ofNat bytes) 0 l).2.isEmpty = true →
        (fillPart thresholdPartSize (UInt64.ofNat bytes) 0 l).1 = l) := by
  constructor
  · rw [List.isEmpty_iff, fillPart_eq_nil, sizes_lt_iff hbytes]
    rfl
  · intro h
    have happend := fillPart_append thresholdPartSize (UInt64.ofNat bytes) 0 l
    rw [List.isEmpty_iff.1 h, List.append_nil] at happend
    exact happend

/-! ### The only response -/

/-- A run has one response. -/
theorem read_iff {s s' : TPMSortedStreamer} {rs : List TriplesResponse} :
    Read (getNextResponse ops cache) TriplesResponse.lastResult s rs s' ↔
      ∃ r, getNextResponse ops cache s = (.ok r, s) ∧ r.lastResult = true ∧ rs = [r] ∧ s' = s := by
  constructor
  · intro h
    induction h with
    | @final s s' r h hlast =>
      have hstate : (getNextResponse ops cache s).2 = s := getNextResponse_state cache s
      obtain rfl : s' = s := by rw [← hstate, h]
      exact ⟨r, h, hlast, rfl, rfl⟩
    | @more s s' s'' r rs h hlast _ ih =>
      have hstate : (getNextResponse ops cache s).2 = s := getNextResponse_state cache s
      obtain rfl : s' = s := by rw [← hstate, h]
      obtain ⟨r', h', hlast', -⟩ := ih
      rw [h] at h'
      obtain rfl : r = r' := Except.ok.inj (Prod.mk.inj h').1
      rw [hlast] at hlast'
      simp at hlast'
  · rintro ⟨r, h, hlast, rfl, rfl⟩
    exact .final h hlast

/-- A response with one part of the results. -/
theorem spec_of_part {α : Type} {bytes : ℕ} (hbytes : bytes = 8 ∨ bytes = 16) {thresholdPartSize : UInt64}
    (results : List α) (f : α → List UInt64) {points : List Point} {g : Point → List UInt64}
    (hperm : (results.map f).Perm (points.map g)) {r : TriplesResponse}
    (hlast : r.lastResult = (fillPart thresholdPartSize (UInt64.ofNat bytes) 0 results).2.isEmpty)
    (hvalues : r.matchingValues = (fillPart thresholdPartSize (UInt64.ofNat bytes) 0 results).1.map f) :
    (r.lastResult = true ↔ FitsOnePart thresholdPartSize bytes points.length) ∧
      (r.lastResult = true → r.matchingValues.Perm (points.map g)) := by
  obtain ⟨h1, h2⟩ := fillPart_spec hbytes thresholdPartSize results
  rw [hlast, hvalues, ← length_of_perm_values hperm]
  refine ⟨h1, fun h => ?_⟩
  rw [h2 h]
  exact hperm

/-- The first response has the points that are kept, if they fit. -/
theorem firstResponse {t : T} (hfetch : cache.fetchK2tree (cache.nodeIds.getId node.predicate) = some t)
    (hvar : isAny node.subject = true ∨ isAny node.object = true) (channelId patternChannelId : ℤ)
    (thresholdPartSize : UInt64) {s : TPMSortedStreamer} {points : List Point}
    (hs : s = construct ops cache channelId patternChannelId node thresholdPartSize)
    (hpoints : points = kept cache node .success (node.scanned ops cache t)) :
    ∃ r, getNextResponse ops cache s = (.ok r, s) ∧
      (r.lastResult = true ↔ FitsOnePart thresholdPartSize node.bytes points.length) ∧
      (r.lastResult = true → r.matchingValues.Perm (points.map (node.realValues cache))) := by
  have hconstruct : s = ⟨channelId, patternChannelId, node, thresholdPartSize,
      (getAllData cache (isAny node.subject) (isAny node.object) .success (node.scanned ops cache t)).2.insertionSort PairLe,
      (getAllData cache (isAny node.subject) (isAny node.object) .success (node.scanned ops cache t)).1.insertionSort (· ≤ ·),
      0⟩ := by
    rw [hs, construct, initializeScanner, hfetch]
    rfl
  rw [getAllData_eq, ← hpoints] at hconstruct
  by_cases hnil : points = []
  · -- the response to an exact pattern
    have hempty : s.pairResults = [] ∧ s.singleResults = [] := by
      rw [hconstruct, hnil]
      split <;> exact ⟨rfl, rfl⟩
    refine ⟨⟨s.channelId, s.patternChannelId, true, true, ops.has t (node.subject, node.object), []⟩, ?_, ?_, ?_⟩
    · have hnode : s.triplePatternNode = node := by rw [hconstruct]
      simp only [getNextResponse, hempty.1, hempty.2, getEmptyResponse, hnode, hfetch]
      rfl
    · have hbytes : node.bytes = 8 ∨ node.bytes = 16 := by
        unfold TripleNodeId.bytes
        split <;> simp
      simp only [hnil, FitsOnePart, List.length_nil, true_iff]
      omega
    · intro _
      rw [hnil]
      exact List.Perm.nil
  · have hth : s.thresholdPartSize = thresholdPartSize := by rw [hconstruct]
    have hsent : s.currentSent = 0 := by rw [hconstruct]
    cases htwo : isAny node.subject && isAny node.object with
    | true =>
      obtain ⟨hsv, hov⟩ := Bool.and_eq_true_iff.1 htwo
      simp only [htwo, if_true] at hconstruct
      have hperm : s.pairResults.Perm (points.map fun x => (cache.realOf x.1, cache.realOf x.2)) := by
        rw [hconstruct]
        exact List.perm_insertionSort _ _
      have hne : s.pairResults.isEmpty = false := by
        rw [List.isEmpty_eq_false_iff, ← List.length_pos_iff, hperm.length_eq, List.length_map, List.length_pos_iff]
        exact hnil
      have hbytes : node.bytes = 16 := if_pos htwo
      refine ⟨s.getNextPairsResponse, by rw [getNextResponse, hne]; rfl, ?_⟩
      rw [hbytes]
      refine spec_of_part (.inr rfl) s.pairResults (fun p => [p.1, p.2]) ?_ ?_ ?_
      · refine (hperm.map _).trans (List.Perm.of_eq ?_)
        rw [List.map_map]
        exact List.map_congr_left fun x _ => by simp [TripleNodeId.realValues, hsv, hov]
      · rw [getNextPairsResponse, hth, hsent, List.drop_zero]
        rfl
      · rw [getNextPairsResponse, hth, hsent, List.drop_zero]
        rfl
    | false =>
      simp only [htwo, Bool.false_eq_true, if_false] at hconstruct
      have hperm : s.singleResults.Perm (points.map fun x => cache.realOf (node.firstVariable x)) := by
        rw [hconstruct]
        exact List.perm_insertionSort _ _
      have hne : s.singleResults.isEmpty = false := by
        rw [List.isEmpty_eq_false_iff, ← List.length_pos_iff, hperm.length_eq, List.length_map, List.length_pos_iff]
        exact hnil
      have hpairs : s.pairResults.isEmpty = true := by
        rw [hconstruct]
        rfl
      have hbytes : node.bytes = 8 := if_neg (by simp [htwo])
      refine ⟨s.getNextSingleResponse, by rw [getNextResponse, hpairs, hne]; rfl, ?_⟩
      rw [hbytes]
      refine spec_of_part (.inl rfl) s.singleResults (fun v => [v]) ?_ ?_ ?_
      · refine (hperm.map _).trans (List.Perm.of_eq ?_)
        rw [List.map_map]
        refine List.map_congr_left fun x _ => ?_
        cases hsv : isAny node.subject with
        | true =>
          rw [hsv] at htwo
          have hov : isAny node.object = false := by simpa using htwo
          simp [TripleNodeId.realValues, TripleNodeId.firstVariable, hsv, hov]
        | false =>
          have hov := hvar.resolve_left (by rw [hsv]; simp)
          simp [TripleNodeId.realValues, TripleNodeId.firstVariable, hsv, hov]
      · rw [getNextSingleResponse, hth, hsent, List.drop_zero]
        rfl
      · rw [getNextSingleResponse, hth, hsent, List.drop_zero]
        rfl

/-- **The sorted streamer** delivers the points that resolve if and only if the code of a point
that does not is written over before the next one that does, and all results fit in one part. -/
theorem deliversResolved_iff (hl : ops.Lawful) (cache : CacheContainer T) (node : TripleNodeId) {t : T}
    (hfetch : cache.fetchK2tree (cache.nodeIds.getId node.predicate) = some t)
    (hvar : isAny node.subject = true ∨ isAny node.object = true) (channelId patternChannelId : ℤ)
    (thresholdPartSize : UInt64) :
    DeliversResolved (getNextResponse ops cache) (construct ops cache channelId patternChannelId node thresholdPartSize)
        ops cache t node ↔
      (node.scanned ops cache t).IsChain (Resets cache node) ∧ FitsOnePart thresholdPartSize node.bytes
        ((node.scanned ops cache t).filter (node.Resolves cache ·)).length := by
  obtain ⟨r, hr, hlast, hvalues⟩ := firstResponse hfetch hvar channelId patternChannelId thresholdPartSize rfl rfl
  have hkept : kept cache node .success (node.scanned ops cache t) = _ ↔ _ := kept_eq_iff hvar .success _
  constructor
  · intro h
    obtain ⟨rs, s', l, hread, -⟩ := id h
    obtain ⟨r', hr', hlast', rfl, rfl⟩ := read_iff.1 hread
    obtain rfl : r = r' := Except.ok.inj (Prod.mk.inj (hr.symm.trans hr')).1
    have hperm := (deliversResolved_of_read hl hfetch hvar hread).1 h
    rw [List.flatMap_singleton] at hperm
    have hlen := length_of_perm_values ((hvalues hlast').symm.trans hperm)
    have heq := (kept_sublist hvar .success (node.scanned ops cache t)).eq_of_length hlen
    exact ⟨(hkept.1 heq).2, by rw [← hlen]; exact hlast.1 hlast'⟩
  · rintro ⟨hchain, hfits⟩
    have heq := hkept.2 ⟨fun h => absurd rfl h, hchain⟩
    rw [heq] at hlast hvalues
    have hread := read_iff.2 ⟨r, hr, hlast.2 hfits, rfl, rfl⟩
    rw [deliversResolved_of_read hl hfetch hvar hread, List.flatMap_singleton]
    exact hvalues (hlast.2 hfits)

end TPMSortedStreamer

/-! ## All three -/

/-- **A point that does not resolve** does more than to be left out: the streamer of the tree has
a short list for it, and the sorted one may leave out the next point as well. -/
theorem resolvedDelivered_iff (hl : ops.Lawful) (cache : CacheContainer T) (node : TripleNodeId) {t : T}
    (hfetch : cache.fetchK2tree (cache.nodeIds.getId node.predicate) = some t)
    (hvar : isAny node.subject = true ∨ isAny node.object = true) (channelId patternChannelId : ℤ)
    (thresholdPartSize pastEnd : UInt64) :
    (DeliversResolved (TriplePatternMatchingStreamer.getNextResponse ops cache)
        (.construct ops cache channelId patternChannelId node thresholdPartSize) ops cache t node ↔
      ∀ x, ops.has t x = true → node.Matches cache x → node.Resolves cache x) ∧
    ((∃ N, ∀ fuel, N ≤ fuel → DeliversResolved (StreamerFromCachedSource.getNextResponse cache fuel)
        (.construct (.construct ops t) channelId patternChannelId node cache thresholdPartSize pastEnd) ops cache t node) ↔
      ∀ x ∈ node.unreached ops cache t, ¬ node.Resolves cache x) ∧
    (DeliversResolved (TPMSortedStreamer.getNextResponse ops cache)
        (.construct ops cache channelId patternChannelId node thresholdPartSize) ops cache t node ↔
      (node.scanned ops cache t).IsChain (TPMSortedStreamer.Resets cache node) ∧
        TPMSortedStreamer.FitsOnePart thresholdPartSize node.bytes
          ((node.scanned ops cache t).filter (node.Resolves cache ·)).length) :=
  ⟨TriplePatternMatchingStreamer.deliversResolved_iff hl cache node hfetch hvar channelId patternChannelId thresholdPartSize,
    StreamerFromCachedSource.deliversResolved_iff hl hfetch hvar channelId patternChannelId thresholdPartSize pastEnd,
    TPMSortedStreamer.deliversResolved_iff hl cache node hfetch hvar channelId patternChannelId thresholdPartSize⟩

namespace PointTree

/-- The nodes 7, 10 and 20 are in the nodes sequence, the node 30 has the cache id 5 in the map. -/
def mixedIds : NodeIdsManager := ⟨⟨[7, 10, 20]⟩, .construct (OrdMap.ofList [(30, 5)]), 5, 0⟩

/-- The tree of the predicate 7. -/
def mixedCache (t : PointTree) : CacheContainer PointTree := ⟨mixedIds.ids, fun p => if p = 0 then some t else none⟩

end PointTree

open PointTree

/-- Behind the id 4, which has no real id, the id 2 of the sequence: it is delivered by two. -/
theorem resolvedDelivered_iff_sequence :
    ¬ DeliversResolved (TriplePatternMatchingStreamer.getNextResponse PointTree.ops (mixedCache (ofList [(1, 4), (1, 2)])))
        (.construct PointTree.ops (mixedCache (ofList [(1, 4), (1, 2)])) 0 0 ⟨10, 7, nodeAny⟩ 100) PointTree.ops
        (mixedCache (ofList [(1, 4), (1, 2)])) (ofList [(1, 4), (1, 2)]) ⟨10, 7, nodeAny⟩ ∧
      (∃ N, ∀ fuel, N ≤ fuel → DeliversResolved
        (StreamerFromCachedSource.getNextResponse (mixedCache (ofList [(1, 4), (1, 2)])) fuel)
        (.construct (.construct PointTree.ops (ofList [(1, 4), (1, 2)])) 0 0 ⟨10, 7, nodeAny⟩
          (mixedCache (ofList [(1, 4), (1, 2)])) 100 0) PointTree.ops
        (mixedCache (ofList [(1, 4), (1, 2)])) (ofList [(1, 4), (1, 2)]) ⟨10, 7, nodeAny⟩) ∧
      DeliversResolved (TPMSortedStreamer.getNextResponse PointTree.ops (mixedCache (ofList [(1, 4), (1, 2)])))
        (.construct PointTree.ops (mixedCache (ofList [(1, 4), (1, 2)])) 0 0 ⟨10, 7, nodeAny⟩ 100) PointTree.ops
        (mixedCache (ofList [(1, 4), (1, 2)])) (ofList [(1, 4), (1, 2)]) ⟨10, 7, nodeAny⟩ := by
  obtain ⟨htree, hcached, hsorted⟩ := resolvedDelivered_iff ops_lawful (mixedCache (ofList [(1, 4), (1, 2)]))
    ⟨10, 7, nodeAny⟩ (t := ofList [(1, 4), (1, 2)]) (by decide +kernel) (.inr (by decide)) 0 0 100 0
  refine ⟨fun h => ?_, hcached.2 ?_, hsorted.2 ⟨by decide +kernel, .inl ?_⟩⟩
  · exact absurd (htree.1 h (1, 4) (by decide +kernel) (by decide +kernel)) (by decide +kernel)
  · rw [TripleNodeId.unreached_eq_nil (by decide +kernel)]
    simp
  · decide +kernel

/-- The id 5 of the map in its place: the sorted streamer has nothing, and the streamer of the
tree has a list without a value. -/
theorem resolvedDelivered_fails :
    ¬ DeliversResolved (TriplePatternMatchingStreamer.getNextResponse PointTree.ops (mixedCache (ofList [(1, 4), (1, 5)])))
        (.construct PointTree.ops (mixedCache (ofList [(1, 4), (1, 5)])) 0 0 ⟨10, 7, nodeAny⟩ 100) PointTree.ops
        (mixedCache (ofList [(1, 4), (1, 5)])) (ofList [(1, 4), (1, 5)]) ⟨10, 7, nodeAny⟩ ∧
      ¬ DeliversResolved (TPMSortedStreamer.getNextResponse PointTree.ops (mixedCache (ofList [(1, 4), (1, 5)])))
        (.construct PointTree.ops (mixedCache (ofList [(1, 4), (1, 5)])) 0 0 ⟨10, 7, nodeAny⟩ 100) PointTree.ops
        (mixedCache (ofList [(1, 4), (1, 5)])) (ofList [(1, 4), (1, 5)]) ⟨10, 7, nodeAny⟩ := by
  have hfetch : (mixedCache (ofList [(1, 4), (1, 5)])).fetchK2tree
      ((mixedCache (ofList [(1, 4), (1, 5)])).nodeIds.getId 7) = some (ofList [(1, 4), (1, 5)]) := by decide +kernel
  constructor
  · intro h
    have hall := (TriplePatternMatchingStreamer.deliversResolved_iff ops_lawful _ ⟨10, 7, nodeAny⟩ hfetch
      (.inr (by decide)) 0 0 100).1 h
    exact absurd (hall (1, 4) (by decide +kernel) (by decide +kernel)) (by decide +kernel)
  · intro h
    have hchain := ((TPMSortedStreamer.deliversResolved_iff ops_lawful _ ⟨10, 7, nodeAny⟩ hfetch
      (.inr (by decide)) 0 0 100).1 h).1
    exact absurd hchain (by decide +kernel)

end K2Cache
