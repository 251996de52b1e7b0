import K2Cache.Proof.ExactMatch

/-!
# The cached source and the tree give the same stream

Both streamers cut a list of points into parts: a scanner of a tree has one by definition,
and so have the scanners of an indexed predicate (`CachedSourceScanner.ahead`), which walk
vectors and sets. `StreamerFromCachedSource.fillPart_spec`: the loop over these leaves out
the points that have no values, and does the same with the others.

`streamsAgree_iff`: the lists are permutations of each other, unless a vector is too long
for the `int` that walks it.
-/

namespace K2Cache

open Lib

variable {T : Type} {ops : TreeOps T} (cache : CacheContainer T)

/-! ## From the tree -/

namespace TriplePatternMatchingStreamer

/-- A part takes points from the front, at least one. -/
theorem fillPart_spec (sv ov : Bool) (threshold acc : UInt64) (l : List Point) :
    ∃ taken, l = taken ++ (fillPart cache sv ov threshold acc l).2 ∧
      (fillPart cache sv ov threshold acc l).1 = taken.map (matchData cache sv ov) ∧ (l ≠ [] → taken ≠ []) := by
  induction l generalizing acc with
  | nil => exact ⟨[], rfl, rfl, id⟩
  | cons x l ih =>
    rw [fillPart]
    simp only
    split
    · exact ⟨[x], rfl, rfl, by simp⟩
    · obtain ⟨taken, h1, h2, -⟩ := ih (acc + 8 * UInt64.ofNat (matchData cache sv ov x).length)
      refine ⟨x :: taken, ?_, ?_, by simp⟩
      · rw [List.cons_append, ← h1]
      · rw [List.map_cons, h2]

/-- The responses of a run. -/
abbrev Responses (ops : TreeOps T) (cache : CacheContainer T) :
    TriplePatternMatchingStreamer T → List TriplesResponse → TriplePatternMatchingStreamer T → Prop :=
  Pages (getNextResponse ops cache) TriplesResponse.lastResult allSent

/-- Between two responses: nothing is finished while points are ahead. -/
def Between (sv ov : Bool) (s : TriplePatternMatchingStreamer T) : Prop :=
  s.subjectVariable = sv ∧ s.objectVariable = ov ∧ (scannerAhead s.k2treeScanner ≠ [] → s.finished = false)

/-- What the streamer still has. -/
def rest (sv ov : Bool) (s : TriplePatternMatchingStreamer T) : List (List UInt64) :=
  (scannerAhead s.k2treeScanner).map (matchData cache sv ov)

theorem getNextResponse_step {sv ov : Bool} (hvar : sv = true ∨ ov = true) {s : TriplePatternMatchingStreamer T}
    (hs : Between sv ov s) : ∃ r s', getNextResponse ops cache s = (.ok r, s') ∧
      Pages.Step (Between sv ov) (rest cache sv ov) TriplesResponse.matchingValues TriplesResponse.lastResult allSent s r s' := by
  obtain ⟨h1, h2, h3⟩ := hs
  obtain ⟨taken, hsplit, hpart, htaken⟩ := fillPart_spec cache sv ov s.thresholdPartSize 0 (scannerAhead s.k2treeScanner)
  set part := fillPart cache sv ov s.thresholdPartSize 0 (scannerAhead s.k2treeScanner) with hpartdef
  have hnot : (!s.subjectVariable && !s.objectVariable) = false := by
    rw [h1, h2]
    rcases hvar with h | h <;> simp [h]
  -- the scanner stands behind the part
  have hahead : scannerAhead (s.k2treeScanner.map fun scanner => { scanner with ahead := part.2 }) = part.2 := by
    cases hsc : s.k2treeScanner with
    | none =>
      rw [hsc] at hsplit
      exact (List.append_eq_nil_iff.1 hsplit.symm).2.symm
    | some scanner => rfl
  set s₁ : TriplePatternMatchingStreamer T :=
    { s with k2treeScanner := s.k2treeScanner.map fun scanner => { scanner with ahead := part.2 } } with hs₁
  have hrun : getNextResponse ops cache s =
      if part.2.isEmpty then
        (.ok ⟨s.channelId, s.patternChannelId, true, false, false, part.1⟩, { s₁ with finished := true })
      else (.ok ⟨s.channelId, s.patternChannelId, false, false, false, part.1⟩, s₁) := by
    rw [getNextResponse, if_neg (by rw [hnot]; simp), hs₁, hpartdef]
    subst h1 h2
    rfl
  have hmap : rest cache sv ov s = part.1 ++ part.2.map (matchData cache sv ov) := by
    rw [rest, hpart, ← List.map_append, ← hsplit]
  have hrest : rest cache sv ov s₁ = part.2.map (matchData cache sv ov) := by rw [rest, hs₁, hahead]
  cases hempty : part.2.isEmpty with
  | true =>
    rw [hempty, if_pos rfl] at hrun
    have hnil : part.2 = [] := List.isEmpty_iff.1 hempty
    have hrest' : rest cache sv ov { s₁ with finished := true } = [] := by
      rw [show rest cache sv ov { s₁ with finished := true } = rest cache sv ov s₁ from rfl, hrest, hnil]
      rfl
    refine ⟨_, _, hrun, ⟨h1, h2, fun h => absurd (hahead.trans hnil) h⟩, ?_, ?_, rfl, fun h => absurd hrest' h⟩
    · rw [hmap, hrest', hnil]
      rfl
    · simp [hrest']
  | false =>
    rw [hempty, if_neg (by simp)] at hrun
    have hne : part.2 ≠ [] := by
      intro h
      rw [h] at hempty
      simp at hempty
    have hall : scannerAhead s.k2treeScanner ≠ [] := by
      rw [hsplit]
      simp [hne]
    refine ⟨_, _, hrun, ⟨h1, h2, fun _ => h3 hall⟩, ?_, ?_, h3 hall, fun _ => ?_⟩
    · rw [hmap, hrest]
    · simp [hrest, hne]
    · have hlen := congrArg List.length hsplit
      have hpos := List.length_pos_iff.2 (htaken hall)
      rw [List.length_append] at hlen
      rw [hrest, rest, List.length_map, List.length_map]
      omega

/-- **Draining** a streamer delivers what its scanner visits. -/
theorem drain (s : TriplePatternMatchingStreamer T) (hvar : s.subjectVariable = true ∨ s.objectVariable = true)
    (hfin : s.finished = false) : ∃ rs s', Responses ops cache s rs s' ∧ rs.flatMap TriplesResponse.matchingValues =
      (scannerAhead s.k2treeScanner).map (matchData cache s.subjectVariable s.objectVariable) :=
  Pages.exists_of_step (fun _ hs => getNextResponse_step cache hvar hs) ⟨rfl, rfl, fun _ => hfin⟩

end TriplePatternMatchingStreamer

/-! ## The scanners of an indexed predicate -/

/-- How far an `int` walks a vector. -/
def intLength (l : List UInt64) : ℕ := (wrapInt l.length).toNat

theorem intLength_le (l : List UInt64) : intLength l ≤ l.length := by
  have := wrapInt_le l.length
  unfold intLength
  omega

theorem lt_intLength {l : List UInt64} {pos : ℕ} : (pos : ℤ) < wrapInt l.length ↔ pos < intLength l := by
  unfold intLength
  omega

namespace CachedSubjectObjectScanner

/-- The point of a base element and another one. -/
def pair (s : CachedSubjectObjectScanner) (e v : UInt64) : Point := if s.leftRightDir then (e, v) else (v, e)

/-- The points of a base element. -/
def pairsOf (s : CachedSubjectObjectScanner) (e : UInt64) : List Point :=
  (getActiveElements s.cachedSource s.leftRightDir e).map (s.pair e)

/-- What the scanner has not visited. -/
def ahead (s : CachedSubjectObjectScanner) : List Point :=
  match s.baseSetIt with
  | [] => []
  | _ :: it => (s.activeRightElements.drop s.currentActiveElementPosition).map (s.pair s.currentBaseElement) ++
      it.flatMap s.pairsOf

theorem ahead_moveTo (s : CachedSubjectObjectScanner) (it : List UInt64) : (s.moveTo it).ahead = it.flatMap s.pairsOf := by
  cases it with
  | nil => rfl
  | cons e it => rfl

/-- The iterator moves over what has been visited. -/
theorem skip_spec (it : List UInt64) (s : CachedSubjectObjectScanner) (h : s.baseSetIt = it) :
    (skip it s).ahead = s.ahead ∧ ((skip it s).baseSetIt = [] ∨
      (skip it s).currentActiveElementPosition < (skip it s).activeRightElements.length) := by
  induction it generalizing s with
  | nil => exact ⟨rfl, .inl h⟩
  | cons e it ih =>
    rw [skip]
    split
    · rename_i hle
      obtain ⟨h1, h2⟩ := ih (s.moveTo it) rfl
      refine ⟨h1.trans ?_, h2⟩
      rw [ahead_moveTo, ahead, h, List.drop_eq_nil_of_le hle]
      rfl
    · rename_i hlt
      exact ⟨rfl, .inr (not_le.1 hlt)⟩

end CachedSubjectObjectScanner

namespace CachedSourceScanner

/-- What a scanner has not visited. -/
def ahead : CachedSourceScanner → List Point
  | .subjectObject s => s.ahead
  | .object objects pos v => ((objects.take (intLength objects)).drop pos).map fun o => (v, o)
  | .subject subjects pos v => ((subjects.take (intLength subjects)).drop pos).map fun s => (s, v)

/-- **`has_next` and `next`** walk the list. -/
theorem hasNext_spec (s : CachedSourceScanner) : s.hasNext.2.ahead = s.ahead ∧ (s.hasNext.1 = false → s.ahead = []) ∧
    (s.hasNext.1 = true → ∃ x s', s.hasNext.2.next = .ok (x, s') ∧ s.ahead = x :: s'.ahead) := by
  cases s with
  | subjectObject s =>
    obtain ⟨h1, h2⟩ := CachedSubjectObjectScanner.skip_spec s.baseSetIt s rfl
    set s₁ := CachedSubjectObjectScanner.skip s.baseSetIt s with hs₁
    have hnext : s.hasNext = (!s₁.baseSetIt.isEmpty, s₁) := rfl
    simp only [hasNext, hnext, ahead, next]
    refine ⟨h1, fun h => ?_, fun h => ?_⟩
    · have hnil : s₁.baseSetIt = [] := by simpa using h
      rw [← h1, CachedSubjectObjectScanner.ahead, hnil]
    · obtain ⟨e, it, hit⟩ := List.exists_cons_of_ne_nil (l := s₁.baseSetIt) (by simpa using h)
      have hlt := h2.resolve_left (by rw [hit]; simp)
      refine ⟨_, _, by rw [CachedSubjectObjectScanner.next, List.getElem?_eq_getElem hlt]; rfl, ?_⟩
      rw [← h1]
      simp only [CachedSubjectObjectScanner.ahead, hit]
      rw [List.drop_eq_getElem_cons hlt, List.map_cons, List.cons_append]
      rfl
  | object objects pos v =>
    refine ⟨rfl, fun h => ?_, fun h => ?_⟩
    · simp only [hasNext, lt_intLength, decide_eq_false_iff_not, not_lt] at h
      simp [ahead, h]
    · simp only [hasNext, lt_intLength, decide_eq_true_eq] at h
      have hlt : pos < objects.length := lt_of_lt_of_le h (intLength_le objects)
      have hget : objects[pos]? = some objects[pos] := List.getElem?_eq_getElem hlt
      refine ⟨_, _, by simp only [hasNext, next, hget]; rfl, ?_⟩
      rw [ahead, List.drop_eq_getElem_cons (by rw [List.length_take]; exact lt_min h hlt), List.map_cons, List.getElem_take]
      rfl
  | subject subjects pos v =>
    refine ⟨rfl, fun h => ?_, fun h => ?_⟩
    · simp only [hasNext, lt_intLength, decide_eq_false_iff_not, not_lt] at h
      simp [ahead, h]
    · simp only [hasNext, lt_intLength, decide_eq_true_eq] at h
      have hlt : pos < subjects.length := lt_of_lt_of_le h (intLength_le subjects)
      have hget : subjects[pos]? = some subjects[pos] := List.getElem?_eq_getElem hlt
      refine ⟨_, _, by simp only [hasNext, next, hget]; rfl, ?_⟩
      rw [ahead, List.drop_eq_getElem_cons (by rw [List.length_take]; exact lt_min h hlt), List.map_cons, List.getElem_take]
      rfl

end CachedSourceScanner

/-! ## From the indexed predicate -/

/-- Both ids of a point have real ids. -/
def CacheContainer.Real (x : Point) : Prop :=
  (cache.nodeIds.getRealId x.1).2.getD .success = .success ∧ (cache.nodeIds.getRealId x.2).2.getD .success = .success

namespace StreamerFromCachedSource

theorem matchData_of_real (sv ov : Bool) {x : Point} (h : cache.Real x) :
    matchData cache sv ov x = some (TriplePatternMatchingStreamer.matchData cache sv ov x) := by
  simp [matchData, TriplePatternMatchingStreamer.matchData, CacheContainer.addRealValue, h.1, h.2]

/-- Where all points have real ids, no match is left out. -/
theorem filterMap_of_real (sv ov : Bool) {l : List Point} (hreal : ∀ x ∈ l, cache.Real x) :
    l.filterMap (matchData cache sv ov) = l.map (TriplePatternMatchingStreamer.matchData cache sv ov) := by
  rw [List.filterMap_congr fun x hx => matchData_of_real cache sv ov (hreal x hx), ← List.filterMap_eq_map]
  rfl

/-- **The loop** takes points from the front, at least one, and leaves out those without values. -/
theorem fillPart_spec (sv ov : Bool) (threshold acc : UInt64) {fuel : ℕ} {s : CachedSourceScanner}
    (hfuel : s.ahead.length < fuel) :
    ∃ taken s', fillPart cache sv ov threshold fuel acc s = .ok (taken.filterMap (matchData cache sv ov), s') ∧
      s.ahead = taken ++ s'.ahead ∧ (s.ahead ≠ [] → taken ≠ []) := by
  induction fuel generalizing acc s with
  | zero => omega
  | succ fuel ih =>
    obtain ⟨h1, h2, h3⟩ := s.hasNext_spec
    cases h : s.hasNext.1 with
    | false =>
      refine ⟨[], s.hasNext.2, ?_, h1.symm, fun hne => absurd (h2 h) hne⟩
      simp [fillPart, h]
    | true =>
      obtain ⟨x, s₁, hnext, hcons⟩ := h3 h
      rw [hcons, List.length_cons] at hfuel
      cases hdata : matchData cache sv ov x with
      | none =>
        obtain ⟨taken, s', h4, h5, -⟩ := ih acc (s := s₁) (by omega)
        refine ⟨x :: taken, s', ?_, by rw [hcons, h5]; rfl, by simp⟩
        simp only [fillPart, h, Bool.not_true, Bool.false_eq_true, if_false, hnext, hdata, h4,
          List.filterMap_cons_none hdata]
      | some data =>
        by_cases hfull : threshold < acc + 8 * UInt64.ofNat data.length
        · refine ⟨[x], s₁, ?_, hcons, by simp⟩
          simp only [fillPart, h, Bool.not_true, Bool.false_eq_true, if_false, hnext, hdata, if_pos hfull,
            List.filterMap_cons_some hdata, List.filterMap_nil]
        · obtain ⟨taken, s', h4, h5, -⟩ := ih (acc + 8 * UInt64.ofNat data.length) (s := s₁) (by omega)
          refine ⟨x :: taken, s', ?_, by rw [hcons, h5]; rfl, by simp⟩
          simp only [fillPart, h, Bool.not_true, Bool.false_eq_true, if_false, hnext, hdata, if_neg hfull, h4,
            List.filterMap_cons_some hdata]

/-- The responses of a run. -/
abbrev Responses (cache : CacheContainer T) (fuel : ℕ) :
    StreamerFromCachedSource → List TriplesResponse → StreamerFromCachedSource → Prop :=
  Pages (getNextResponse cache fuel) TriplesResponse.lastResult allSent

/-- Between two responses: the fuel is enough for the points ahead, and nothing is finished
while there are some. -/
def Between (sv ov : Bool) (fuel : ℕ) (s : StreamerFromCachedSource) : Prop :=
  s.subjectVariable = sv ∧ s.objectVariable = ov ∧ ∃ scanner, s.cachedSourceScanner = some scanner ∧
    scanner.ahead.length < fuel ∧ (scanner.ahead ≠ [] → s.finished = false)

/-- The points the streamer has not visited. -/
def left (s : StreamerFromCachedSource) : List Point :=
  match s.cachedSourceScanner with
  | none => []
  | some scanner => scanner.ahead

/-- What the streamer still has. -/
def rest (sv ov : Bool) (s : StreamerFromCachedSource) : List (List UInt64) := s.left.filterMap (matchData cache sv ov)

theorem getNextResponse_step {sv ov : Bool} (hvar : sv = true ∨ ov = true) {fuel : ℕ} {s : StreamerFromCachedSource}
    (hs : Between sv ov fuel s) : ∃ r s', getNextResponse cache fuel s = (.ok r, s') ∧ Between sv ov fuel s' ∧
      rest cache sv ov s = r.matchingValues ++ rest cache sv ov s' ∧ (r.lastResult = true ↔ s'.left.length = 0) ∧
      s'.allSent = r.lastResult ∧ (s'.left.length ≠ 0 → s'.left.length < s.left.length) := by
  obtain ⟨rfl, rfl, scanner, h3, hfuel, hfin⟩ := hs
  obtain ⟨taken, scanner₁, hfill, hsplit, htaken⟩ := fillPart_spec cache s.subjectVariable s.objectVariable
    s.thresholdPartSize 0 hfuel
  obtain ⟨h4, h5, h6⟩ := scanner₁.hasNext_spec
  have hnot : (!s.subjectVariable && !s.objectVariable) = false := by rcases hvar with h | h <;> simp [h]
  set values := taken.filterMap (matchData cache s.subjectVariable s.objectVariable) with hvalues
  set s₁ : StreamerFromCachedSource := { s with cachedSourceScanner := some scanner₁.hasNext.2 } with hs₁
  have hrun : getNextResponse cache fuel s =
      if !scanner₁.hasNext.1 then
        (.ok ⟨s.channelId, s.patternChannelId, true, false, false, values⟩, { s₁ with finished := true })
      else (.ok ⟨s.channelId, s.patternChannelId, false, false, false, values⟩, s₁) := by
    rw [getNextResponse, if_neg (by rw [hnot]; simp), h3]
    simp only [hfill]
    rfl
  have hleft : s.left = scanner.ahead := by rw [left, h3]
  have hleft₁ : s₁.left = scanner₁.ahead := h4
  have hrest : rest cache s.subjectVariable s.objectVariable s =
      values ++ rest cache s.subjectVariable s.objectVariable s₁ := by
    rw [rest, rest, hleft, hleft₁, hsplit, List.filterMap_append]
  have hlen := congrArg List.length hsplit
  rw [List.length_append] at hlen
  cases hmore : scanner₁.hasNext.1 with
  | false =>
    rw [hmore] at hrun
    have hnil : scanner₁.ahead = [] := h5 hmore
    have hleft₂ : ({ s₁ with finished := true } : StreamerFromCachedSource).left = [] := hleft₁.trans hnil
    refine ⟨_, _, hrun, ⟨rfl, rfl, _, rfl, by rw [h4]; omega, fun h => absurd (h4.trans hnil) h⟩, hrest, ?_, rfl, ?_⟩
    · simp [hleft₂]
    · simp [hleft₂]
  | true =>
    rw [hmore] at hrun
    obtain ⟨x, s', -, hcons⟩ := h6 hmore
    have hne : scanner₁.ahead ≠ [] := by simp [hcons]
    have hall : scanner.ahead ≠ [] := by simp [hsplit, hne]
    refine ⟨_, _, hrun, ⟨rfl, rfl, _, rfl, by rw [h4]; omega, fun _ => hfin hall⟩, hrest, ?_, hfin hall, fun _ => ?_⟩
    · simp [hleft₁, hne]
    · have hpos := List.length_pos_iff.2 (htaken hall)
      rw [hleft₁, hleft]
      omega

/-- **Draining** a streamer delivers the values of what its scanner visits. -/
theorem drain (s : StreamerFromCachedSource) (hvar : s.subjectVariable = true ∨ s.objectVariable = true)
    (hfin : s.finished = false) {scanner : CachedSourceScanner} (hscanner : s.cachedSourceScanner = some scanner)
    {fuel : ℕ} (hfuel : scanner.ahead.length < fuel) :
    ∃ rs s', Responses cache fuel s rs s' ∧ rs.flatMap TriplesResponse.matchingValues =
      scanner.ahead.filterMap (matchData cache s.subjectVariable s.objectVariable) := by
  obtain ⟨rs, s', h1, h2⟩ := Pages.exists_of_left (fun s : StreamerFromCachedSource => s.left.length)
    (fun _ hs => getNextResponse_step cache hvar hs)
    (fun s _ h => by rw [rest, List.length_eq_zero_iff.1 h, List.filterMap_nil])
    (show Between s.subjectVariable s.objectVariable fuel s from ⟨rfl, rfl, scanner, hscanner, hfuel, fun _ => hfin⟩)
  refine ⟨rs, s', h1, ?_⟩
  rw [h2, rest, left, hscanner]

end StreamerFromCachedSource

/-! ## The same points -/

namespace FullyIndexedPredicate

theorem mem_subjects_foldl (p : FullyIndexedPredicate) (l : List Point) (s : UInt64) :
    s ∈ (l.foldl addPoint p).subjects.keys ↔ s ∈ p.subjects.keys ∨ ∃ x ∈ l, x.1 = s := by
  induction l generalizing p with
  | nil => simp
  | cons x l ih =>
    rw [List.foldl_cons, ih]
    have hadd : s ∈ (p.addPoint x).subjects.keys ↔ s = x.1 ∨ s ∈ p.subjects.keys := by
      simp only [OrdMap.mem_keys, addPoint, OrdMap.find?_insert]
      by_cases h : s = x.1 <;> simp [h]
    rw [hadd]
    constructor
    · rintro ((rfl | h) | ⟨y, hy, rfl⟩)
      · exact .inr ⟨x, List.mem_cons_self, rfl⟩
      · exact .inl h
      · exact .inr ⟨y, List.mem_cons_of_mem _ hy, rfl⟩
    · rintro (h | ⟨y, hy, rfl⟩)
      · exact .inl (.inr h)
      · rcases List.mem_cons.1 hy with rfl | hy
        · exact .inl (.inl rfl)
        · exact .inr ⟨y, hy, rfl⟩

theorem mem_objects_foldl (p : FullyIndexedPredicate) (l : List Point) (o : UInt64) :
    o ∈ (l.foldl addPoint p).objects.keys ↔ o ∈ p.objects.keys ∨ ∃ x ∈ l, x.2 = o := by
  induction l generalizing p with
  | nil => simp
  | cons x l ih =>
    rw [List.foldl_cons, ih]
    have hadd : o ∈ (p.addPoint x).objects.keys ↔ o = x.2 ∨ o ∈ p.objects.keys := by
      simp only [OrdMap.mem_keys, addPoint, OrdMap.find?_insert]
      by_cases h : o = x.2 <;> simp [h]
    rw [hadd]
    constructor
    · rintro ((rfl | h) | ⟨y, hy, rfl⟩)
      · exact .inr ⟨x, List.mem_cons_self, rfl⟩
      · exact .inl h
      · exact .inr ⟨y, List.mem_cons_of_mem _ hy, rfl⟩
    · rintro (h | ⟨y, hy, rfl⟩)
      · exact .inl (.inr h)
      · rcases List.mem_cons.1 hy with rfl | hy
        · exact .inl (.inl rfl)
        · exact .inr ⟨y, hy, rfl⟩

theorem mem_subjects (hl : ops.Lawful) {t : T} {s o : UInt64} (h : ops.has t (s, o) = true) :
    s ∈ (construct ops t).subjects.keys :=
  (mem_subjects_foldl _ _ s).2 (.inr ⟨(s, o), (hl.mem_fullScan t _).2 h, rfl⟩)

theorem mem_objects (hl : ops.Lawful) {t : T} {s o : UInt64} (h : ops.has t (s, o) = true) :
    o ∈ (construct ops t).objects.keys :=
  (mem_objects_foldl _ _ o).2 (.inr ⟨(s, o), (hl.mem_fullScan t _).2 h, rfl⟩)

theorem nodup_getObjects (hl : ops.Lawful) (t : T) (s : UInt64) : ((construct ops t).getObjects s).Nodup := by
  rw [getObjects_construct]
  refine ((hl.nodup_fullScan t).filter _).map_on ?_
  rintro ⟨a, b⟩ ha ⟨a', b'⟩ ha' rfl
  simp only [List.mem_filter, decide_eq_true_eq] at ha ha'
  rw [ha.2, ha'.2]

theorem nodup_getSubjects (hl : ops.Lawful) (t : T) (o : UInt64) : ((construct ops t).getSubjects o).Nodup := by
  rw [getSubjects_construct]
  refine ((hl.nodup_fullScan t).filter _).map_on ?_
  rintro ⟨a, b⟩ ha ⟨a', b'⟩ ha' rfl
  simp only [List.mem_filter, decide_eq_true_eq] at ha ha'
  rw [ha.2, ha'.2]

/-- The objects of a subject, as the scanner of the column visits them. -/
theorem getObjects_perm (hl : ops.Lawful) (t : T) (s : UInt64) :
    ((construct ops t).getObjects s).Perm (ops.bandScan t .column s) :=
  (List.perm_ext_iff_of_nodup (nodup_getObjects hl t s) (hl.nodup_bandScan t .column s)).2 fun o => by
    rw [mem_getObjects hl, hl.mem_bandScan]
    rfl

theorem getSubjects_perm (hl : ops.Lawful) (t : T) (o : UInt64) :
    ((construct ops t).getSubjects o).Perm (ops.bandScan t .row o) :=
  (List.perm_ext_iff_of_nodup (nodup_getSubjects hl t o) (hl.nodup_bandScan t .row o)).2 fun s => by
    rw [mem_getSubjects hl, hl.mem_bandScan]
    rfl

end FullyIndexedPredicate

/-- **The scanner of all points** visits each point of the tree once. -/
theorem CachedSubjectObjectScanner.ahead_construct (hl : ops.Lawful) (t : T) (pastEnd : UInt64) :
    (construct (.construct ops t) pastEnd).ahead.Perm (ops.fullScan t) := by
  set p := FullyIndexedPredicate.construct ops t with hp
  unfold construct
  rw [ahead_moveTo]
  -- the base elements are keys of a map, those of each one have no repetition
  have hnodup : ∀ (keys : List UInt64) (elements : UInt64 → List UInt64) (dir : Bool), keys.Nodup →
      (∀ e, (elements e).Nodup) →
      (keys.flatMap fun e => (elements e).map fun v => if dir then (e, v) else (v, e)).Nodup := by
    intro keys elements dir hkeys helements
    rw [List.nodup_flatMap]
    refine ⟨fun e _ => (helements e).map fun v v' h => ?_, hkeys.imp_of_mem fun {e e'} _ _ hne => ?_⟩
    · cases dir <;> simpa using h
    · intro x hx hx'
      obtain ⟨v, -, rfl⟩ := List.mem_map.1 hx
      obtain ⟨v', -, hv⟩ := List.mem_map.1 hx'
      cases dir <;> simp at hv <;> exact hne (by tauto)
  cases hdir : decide (p.subjects.size ≤ p.objects.size) with
  | true =>
    refine (List.perm_ext_iff_of_nodup (hnodup _ _ true p.subjects.keys_nodup (FullyIndexedPredicate.nodup_getObjects hl t))
      (hl.nodup_fullScan t)).2 ?_
    rintro ⟨s, o⟩
    simp only [List.mem_flatMap, List.mem_map, if_true, Prod.mk.injEq, hl.mem_fullScan]
    constructor
    · rintro ⟨s, -, o, ho, rfl, rfl⟩
      exact (FullyIndexedPredicate.mem_getObjects hl).1 ho
    · intro h
      exact ⟨s, FullyIndexedPredicate.mem_subjects hl h, o, (FullyIndexedPredicate.mem_getObjects hl).2 h, rfl, rfl⟩
  | false =>
    refine (List.perm_ext_iff_of_nodup (hnodup _ _ false p.objects.keys_nodup (FullyIndexedPredicate.nodup_getSubjects hl t))
      (hl.nodup_fullScan t)).2 ?_
    rintro ⟨s, o⟩
    simp only [List.mem_flatMap, List.mem_map, Bool.false_eq_true, if_false, Prod.mk.injEq, hl.mem_fullScan]
    constructor
    · rintro ⟨o, -, s, hs, rfl, rfl⟩
      exact (FullyIndexedPredicate.mem_getSubjects hl).1 hs
    · intro h
      exact ⟨o, FullyIndexedPredicate.mem_objects hl h, s, (FullyIndexedPredicate.mem_getSubjects hl).2 h, rfl, rfl⟩

/-! ## Agreement -/

/-- **The two streams agree**: both runs end, and deliver the same matching values, each as
often. -/
def StreamsAgree (ops : TreeOps T) (cache : CacheContainer T) (t : T) (node : TripleNodeId) (channelId patternChannelId : ℤ)
    (thresholdPartSize pastEnd : UInt64) : Prop :=
  ∃ rs s₁, TriplePatternMatchingStreamer.Responses ops cache
      (.construct ops cache channelId patternChannelId node thresholdPartSize) rs s₁ ∧
    ∃ N, ∀ fuel, N ≤ fuel → ∃ rs' s₂, StreamerFromCachedSource.Responses cache fuel
      (.construct (.construct ops t) channelId patternChannelId node cache thresholdPartSize pastEnd) rs' s₂ ∧
      (rs.flatMap TriplesResponse.matchingValues).Perm (rs'.flatMap TriplesResponse.matchingValues)

theorem length_le_intLength (l : List UInt64) : l.length ≤ intLength l ↔ l.length < 2 ^ 31 := by
  unfold intLength
  constructor
  · intro h
    have hlt := Int.bmod_lt (x := l.length) (m := 2 ^ 32) (by norm_num)
    change wrapInt l.length < _ at hlt
    omega
  · intro h
    rw [wrapInt_of_lt h]
    omega

/-- What the cached source has for a pattern: the points of the tree's scanner, of which an
`int` may not reach all. -/
theorem exists_cachedScanner (hl : ops.Lawful) (t : T) {node : TripleNodeId}
    (hvar : isAny node.subject = true ∨ isAny node.object = true) (channelId patternChannelId : ℤ)
    (thresholdPartSize pastEnd : UInt64) : ∃ (scanner : CachedSourceScanner) (l : List Point) (n : ℕ),
      (StreamerFromCachedSource.construct (.construct ops t) channelId patternChannelId node cache thresholdPartSize
        pastEnd).cachedSourceScanner = some scanner ∧
      l.Perm (K2TreeScanner.scan ops t (patternKind cache node)) ∧ scanner.ahead = l.take n ∧
      (l.length ≤ n ↔ isAny node.subject = true ∧ isAny node.object = true ∨ l.length < 2 ^ 31) := by
  cases hs : isAny node.subject with
  | true =>
    cases ho : isAny node.object with
    | true =>
      refine ⟨_, _, _, by simp only [StreamerFromCachedSource.construct, hs, ho]; rfl, ?_, (List.take_length).symm, by simp⟩
      rw [patternKind, hs, ho]
      exact CachedSubjectObjectScanner.ahead_construct hl t pastEnd
    | false =>
      have hperm := FullyIndexedPredicate.getSubjects_perm hl t (cache.nodeIds.getId node.object)
      set subjects := (FullyIndexedPredicate.construct ops t).getSubjects (cache.nodeIds.getId node.object) with hsubjects
      refine ⟨.subject subjects 0 (cache.nodeIds.getId node.object),
        subjects.map fun s => (s, cache.nodeIds.getId node.object), intLength subjects, ?_, ?_, ?_, ?_⟩
      · simp only [StreamerFromCachedSource.construct, hs, ho]
        rfl
      · rw [patternKind, hs, ho]
        exact hperm.map _
      · rw [CachedSourceScanner.ahead, List.drop_zero, List.map_take]
      · simp [length_le_intLength]
  | false =>
    have ho : isAny node.object = true := hvar.resolve_left (by rw [hs]; simp)
    have hperm := FullyIndexedPredicate.getObjects_perm hl t (cache.nodeIds.getId node.subject)
    set objects := (FullyIndexedPredicate.construct ops t).getObjects (cache.nodeIds.getId node.subject) with hobjects
    refine ⟨.object objects 0 (cache.nodeIds.getId node.subject),
      objects.map fun o => (cache.nodeIds.getId node.subject, o), intLength objects, ?_, ?_, ?_, ?_⟩
    · simp only [StreamerFromCachedSource.construct, hs, ho]
      rfl
    · rw [patternKind, hs, ho]
      exact hperm.map _
    · rw [CachedSourceScanner.ahead, List.drop_zero, List.map_take]
    · simp [length_le_intLength]

/-- The scanner of a pattern visits points of the tree. -/
theorem has_of_mem_scan (hl : ops.Lawful) {t : T} {k : ScannerKind} {x : Point} (hx : x ∈ K2TreeScanner.scan ops t k) :
    ops.has t x = true := by
  cases k with
  | full => exact (hl.mem_fullScan t x).1 hx
  | band v bt =>
    obtain ⟨w, hw, rfl⟩ := List.mem_map.1 hx
    exact (hl.mem_bandScan t bt v w).1 hw
  | empty => simp [K2TreeScanner.scan] at hx

/-- The two runs: what the scanner of the tree visits, and as much of it as an `int` reaches. -/
theorem exists_runs (hl : ops.Lawful) {t : T} {node : TripleNodeId}
    (hfetch : cache.fetchK2tree (cache.nodeIds.getId node.predicate) = some t)
    (hreal : ∀ x, ops.has t x = true → cache.Real x) (hvar : isAny node.subject = true ∨ isAny node.object = true)
    (channelId patternChannelId : ℤ) (thresholdPartSize pastEnd : UInt64) :
    ∃ (data : Point → List UInt64) (l : List Point) (n N : ℕ),
      l.Perm (K2TreeScanner.scan ops t (patternKind cache node)) ∧
      (l.length ≤ n ↔ isAny node.subject = true ∧ isAny node.object = true ∨ l.length < 2 ^ 31) ∧
      (∃ rs s₁, TriplePatternMatchingStreamer.Responses ops cache
        (.construct ops cache channelId patternChannelId node thresholdPartSize) rs s₁ ∧
        rs.flatMap TriplesResponse.matchingValues = (K2TreeScanner.scan ops t (patternKind cache node)).map data) ∧
      ∀ fuel, N ≤ fuel → ∃ rs s₂, StreamerFromCachedSource.Responses cache fuel
        (.construct (.construct ops t) channelId patternChannelId node cache thresholdPartSize pastEnd) rs s₂ ∧
        rs.flatMap TriplesResponse.matchingValues = (l.take n).map data := by
  obtain ⟨scanner, l, n, hscanner, hperm, hahead, hn⟩ := exists_cachedScanner cache hl t hvar channelId patternChannelId
    thresholdPartSize pastEnd
  refine ⟨TriplePatternMatchingStreamer.matchData cache (isAny node.subject) (isAny node.object), l, n,
    scanner.ahead.length + 1, hperm, hn, ?_, fun fuel hfuel => ?_⟩
  · obtain ⟨rs, s₁, hrs, hvalues⟩ := TriplePatternMatchingStreamer.drain cache
      (.construct ops cache channelId patternChannelId node thresholdPartSize) hvar rfl
    have htree : scannerAhead (initializeScanner ops cache node) = K2TreeScanner.scan ops t (patternKind cache node) := by
      rw [initializeScanner, hfetch]
      rfl
    rw [← htree]
    exact ⟨rs, s₁, hrs, hvalues⟩
  · have hreal' : ∀ x ∈ scanner.ahead, cache.Real x := by
      intro x hx
      rw [hahead] at hx
      exact hreal x (has_of_mem_scan hl (hperm.mem_iff.1 (List.mem_of_mem_take hx)))
    obtain ⟨rs, s₂, hrs, hvalues⟩ := StreamerFromCachedSource.drain cache
      (.construct (.construct ops t) channelId patternChannelId node cache thresholdPartSize pastEnd) hvar rfl hscanner
      (show scanner.ahead.length < fuel by omega)
    rw [StreamerFromCachedSource.filterMap_of_real cache _ _ hreal', hahead] at hvalues
    exact ⟨rs, s₂, hrs, hvalues⟩

section

variable {cache} {t : T} {node : TripleNodeId} {channelId patternChannelId : ℤ} {thresholdPartSize pastEnd : UInt64}

/-- Streams that agree have the same length. -/
theorem lt_of_streamsAgree (hl : ops.Lawful) (hfetch : cache.fetchK2tree (cache.nodeIds.getId node.predicate) = some t)
    (hreal : ∀ x, ops.has t x = true → cache.Real x) (hvar : isAny node.subject = true ∨ isAny node.object = true)
    (h : StreamsAgree ops cache t node channelId patternChannelId thresholdPartSize pastEnd) :
    isAny node.subject = true ∧ isAny node.object = true ∨
      (K2TreeScanner.scan ops t (patternKind cache node)).length < 2 ^ 31 := by
  obtain ⟨data, l, n, N, hperm, hn, ⟨rs, s₁, hrs, hvalues⟩, hcached⟩ := exists_runs cache hl hfetch hreal hvar channelId
    patternChannelId thresholdPartSize pastEnd
  obtain ⟨rs₀, s₀, hrs₀, N₀, hN⟩ := h
  obtain ⟨rfl, -⟩ := hrs.unique hrs₀
  obtain ⟨rs', s₂, h1, h2⟩ := hN (N + N₀) (by omega)
  obtain ⟨rs'', s₂', h3, h4⟩ := hcached (N + N₀) (by omega)
  obtain ⟨rfl, -⟩ := h1.unique h3
  have hlen := h2.length_eq
  rw [hvalues, h4, List.length_map, List.length_map, List.length_take, ← hperm.length_eq] at hlen
  rw [← hperm.length_eq, ← hn]
  omega

/-- **The streams of a tree and of its index agree** if and only if the pattern has two
variables or fewer than `2 ^ 31` matches. -/
theorem streamsAgree_iff (hl : ops.Lawful) (hfetch : cache.fetchK2tree (cache.nodeIds.getId node.predicate) = some t)
    (hreal : ∀ x, ops.has t x = true → cache.Real x) (hvar : isAny node.subject = true ∨ isAny node.object = true) :
    StreamsAgree ops cache t node channelId patternChannelId thresholdPartSize pastEnd ↔
      isAny node.subject = true ∧ isAny node.object = true ∨
        (K2TreeScanner.scan ops t (patternKind cache node)).length < 2 ^ 31 := by
  constructor
  · exact lt_of_streamsAgree hl hfetch hreal hvar
  · intro hlt
    obtain ⟨data, l, n, N, hperm, hn, ⟨rs, s₁, hrs, hvalues⟩, hcached⟩ := exists_runs cache hl hfetch hreal hvar channelId
      patternChannelId thresholdPartSize pastEnd
    rw [← hperm.length_eq, ← hn] at hlt
    refine ⟨rs, s₁, hrs, N, fun fuel hfuel => ?_⟩
    obtain ⟨rs', s₂, h1, h2⟩ := hcached fuel hfuel
    refine ⟨rs', s₂, h1, ?_⟩
    rw [hvalues, h2, List.take_of_length_le hlt]
    exact (hperm.map data).symm

end

open PointTree

/-- The objects of the real id 1 are delivered in parts of one, from both sources. -/
theorem streamsAgree_iff_turned : StreamsAgree PointTree.ops turnedCache (ofList [(2, 3), (1, 1)]) ⟨1, 7, nodeAny⟩ 0 0 8 0 :=
  (streamsAgree_iff ops_lawful (by decide)
    (fun x hx => by
      have hmem : x ∈ [((2 : UInt64), (3 : UInt64)), (1, 1)] := by simpa [PointTree.ops, ofList] using hx
      rcases List.mem_pair.1 hmem with rfl | rfl
      · exact ⟨by decide, by decide⟩
      · exact ⟨by decide, by decide⟩)
    (.inr (by decide))).2 (.inr (by decide))

namespace PointTree

/-- The tree with the objects `0` to `n - 1` of the subject 1. -/
def column (n : ℕ) (h : n ≤ 2 ^ 64) : PointTree :=
  ⟨(List.range n).map fun i => (1, UInt64.ofNat i), by
    refine List.nodup_range.map_on fun i hi j hj hij => ?_
    have := congrArg UInt64.toNat (Prod.mk.inj hij).2
    simp only [UInt64.toNat_ofNat'] at this
    rw [List.mem_range] at hi hj
    rwa [Nat.mod_eq_of_lt (by omega), Nat.mod_eq_of_lt (by omega)] at this⟩

/-- A store with one tree, whose cache ids are real ids. -/
def columnCache (n : ℕ) (h : n ≤ 2 ^ 64) : CacheContainer PointTree := ⟨.identity, fun _ => some (column n h)⟩

theorem length_scan_column (n : ℕ) (h : n ≤ 2 ^ 64) :
    (K2TreeScanner.scan PointTree.ops (column n h) (patternKind (columnCache n h) ⟨1, 5, nodeAny⟩)).length = n := by
  have hkind : patternKind (columnCache n h) ⟨1, 5, nodeAny⟩ = .band 1 .column := rfl
  have hall : ((List.range n).map fun i => ((1 : UInt64), UInt64.ofNat i)).filter (fun x => x.1 = 1) =
      (List.range n).map fun i => (1, UInt64.ofNat i) := List.filter_eq_self.2 (by simp)
  rw [hkind]
  simp [K2TreeScanner.scan, PointTree.ops, bandValues, column, hall]

theorem not_streamsAgree_column (n : ℕ) (h : n ≤ 2 ^ 64) (hn : 2 ^ 31 ≤ n) :
    ¬ StreamsAgree PointTree.ops (columnCache n h) (column n h) ⟨1, 5, nodeAny⟩ 0 0 100 0 := by
  intro hagree
  rcases lt_of_streamsAgree ops_lawful rfl (fun x _ => ⟨rfl, rfl⟩) (.inr (by decide)) hagree with ⟨hs, -⟩ | hlt
  · exact absurd hs (by decide)
  · rw [length_scan_column] at hlt
    omega

end PointTree

/-- A subject with `2 ^ 31` objects. -/
theorem streamsAgree_fails : ¬ StreamsAgree PointTree.ops (columnCache (2 ^ 31) (by norm_num))
    (column (2 ^ 31) (by norm_num)) ⟨1, 5, nodeAny⟩ 0 0 100 0 :=
  not_streamsAgree_column _ _ le_rfl

end K2Cache
