import K2Cache.Lib.Paging
import K2Cache.Spec.PointTree
import K2Cache.Spec.Streamers

/-!
# Exact answers, and sorted pages

`getObjects_construct`, `has_construct`: what an indexed predicate holds of its tree.

`exactAnswers_iff`: all three streamers look for the real ids of an exact pattern in the
tree, where its points are cache ids, and one that has no tree is not answered.

`sorted_never`: no response moves the cursor of a sorted streamer.
-/

namespace K2Cache

open Lib

variable {T : Type} {ops : TreeOps T}

/-! ## Indexed predicates -/

theorem vectorAt_insert (m : OrdMap UInt64 (List UInt64)) (k k' : UInt64) (v : List UInt64) :
    vectorAt (m.insert k v) k' = if k' = k then v else vectorAt m k' := by
  unfold vectorAt
  rw [OrdMap.find?_insert]
  split <;> rfl

namespace FullyIndexedPredicate

variable (p : FullyIndexedPredicate) (l : List Point)

theorem getObjects_foldl (s : UInt64) :
    (l.foldl addPoint p).getObjects s = p.getObjects s ++ (l.filter fun x => x.1 = s).map Prod.snd := by
  induction l generalizing p with
  | nil => simp
  | cons x l ih =>
    rw [List.foldl_cons, ih]
    have hadd : (p.addPoint x).getObjects s = if s = x.1 then p.getObjects x.1 ++ [x.2] else p.getObjects s :=
      vectorAt_insert _ _ _ _
    by_cases h : s = x.1
    · subst h
      rw [hadd, if_pos rfl]
      simp
    · have h' : x.1 ≠ s := fun he => h he.symm
      rw [hadd, if_neg h, List.filter_cons_of_neg (by simpa using h')]

theorem getSubjects_foldl (o : UInt64) :
    (l.foldl addPoint p).getSubjects o = p.getSubjects o ++ (l.filter fun x => x.2 = o).map Prod.fst := by
  induction l generalizing p with
  | nil => simp
  | cons x l ih =>
    rw [List.foldl_cons, ih]
    have hadd : (p.addPoint x).getSubjects o = if o = x.2 then p.getSubjects x.2 ++ [x.1] else p.getSubjects o :=
      vectorAt_insert _ _ _ _
    by_cases h : o = x.2
    · subst h
      rw [hadd, if_pos rfl]
      simp
    · have h' : x.2 ≠ o := fun he => h he.symm
      rw [hadd, if_neg h, List.filter_cons_of_neg (by simpa using h')]

/-- The objects of a subject, in the order of the scan. -/
theorem getObjects_construct (t : T) (s : UInt64) :
    (construct ops t).getObjects s = ((ops.fullScan t).filter fun x => x.1 = s).map Prod.snd := by
  rw [construct, getObjects_foldl]
  rfl

theorem getSubjects_construct (t : T) (o : UInt64) :
    (construct ops t).getSubjects o = ((ops.fullScan t).filter fun x => x.2 = o).map Prod.fst := by
  rw [construct, getSubjects_foldl]
  rfl

theorem mem_getObjects (hl : ops.Lawful) {t : T} {s o : UInt64} :
    o ∈ (construct ops t).getObjects s ↔ ops.has t (s, o) = true := by
  rw [getObjects_construct, List.mem_map, ← hl.mem_fullScan]
  constructor
  · rintro ⟨⟨a, b⟩, hx, rfl⟩
    obtain ⟨hmem, hs⟩ := List.mem_filter.1 hx
    obtain rfl : a = s := by simpa using hs
    exact hmem
  · intro h
    exact ⟨(s, o), List.mem_filter.2 ⟨h, by simp⟩, rfl⟩

theorem mem_getSubjects (hl : ops.Lawful) {t : T} {s o : UInt64} :
    s ∈ (construct ops t).getSubjects o ↔ ops.has t (s, o) = true := by
  rw [getSubjects_construct, List.mem_map, ← hl.mem_fullScan]
  constructor
  · rintro ⟨⟨a, b⟩, hx, rfl⟩
    obtain ⟨hmem, ho⟩ := List.mem_filter.1 hx
    obtain rfl : b = o := by simpa using ho
    exact hmem
  · intro h
    exact ⟨(s, o), List.mem_filter.2 ⟨h, by simp⟩, rfl⟩

/-- **An indexed predicate has the points of its tree.** -/
theorem has_construct (hl : ops.Lawful) (t : T) (s o : UInt64) : (construct ops t).has s o = ops.has t (s, o) := by
  rw [Bool.eq_iff_iff, has]
  split
  · rw [List.contains_iff_mem, mem_getObjects hl]
  · rw [List.contains_iff_mem, mem_getSubjects hl]

end FullyIndexedPredicate

/-! ## Exact patterns -/

namespace PointTree

/-- Real ids 1, 2, 3 have the cache ids 2, 3, 1, and 7 is a predicate. -/
def turnedIds : NodeIds :=
  ⟨fun r => if r = 1 then 2 else if r = 2 then 3 else if r = 3 then 1 else if r = 7 then 7 else notFoundNodeid,
    fun c => if c = 2 then (1, some .success) else if c = 3 then (2, some .success) else if c = 1 then (3, some .success)
      else if c = 7 then (7, some .success) else (-1, some .notFound)⟩

/-- The tree of predicate 7 has the triples `1 7 2` and `3 7 3` of real ids. -/
def turnedCache : CacheContainer PointTree := ⟨turnedIds, fun p => if p = 7 then some (ofList [(2, 3), (1, 1)]) else none⟩

end PointTree

open PointTree

namespace TPMSortedStreamer

variable (cache : CacheContainer T)

/-- **No response moves the cursor.** -/
theorem getNextResponse_state (s : TPMSortedStreamer) : (s.getNextResponse ops cache).2 = s := by
  unfold getNextResponse
  split
  · rfl
  · split <;> rfl

/-- The constructor has sent nothing. -/
theorem allSent_construct (channelId patternChannelId : ℤ) (node : TripleNodeId) (thresholdPartSize : UInt64) :
    (construct ops cache channelId patternChannelId node thresholdPartSize).allSent = false := by
  have hfresh : ∀ s : TPMSortedStreamer, s.currentSent = 0 → s.allSent = false := by
    intro s h
    rw [allSent, h]
    cases s.pairResults <;> cases s.singleResults <;> simp
  unfold construct
  split
  · exact hfresh _ rfl
  · exact hfresh _ rfl

/-- The responses of a run. -/
abbrev Responses (ops : TreeOps T) (cache : CacheContainer T) :
    TPMSortedStreamer → List TriplesResponse → TPMSortedStreamer → Prop :=
  Pages (getNextResponse ops cache) TriplesResponse.lastResult allSent

/-- A run that ends leaves the streamer as it was. -/
theorem Responses.state {cache : CacheContainer T} {s s' : TPMSortedStreamer} {rs : List TriplesResponse}
    (h : Responses ops cache s rs s') : s' = s := by
  induction h with
  | @final s s' r h _ _ =>
    have : (getNextResponse ops cache s).2 = s := getNextResponse_state cache s
    rw [h] at this
    exact this
  | @more s s' s'' r rs h _ _ _ ih =>
    have : (getNextResponse ops cache s).2 = s := getNextResponse_state cache s
    rw [h] at this
    exact ih.trans this

/-- Every response is the first one. -/
theorem getNextResponse_iterate (s : TPMSortedStreamer) (n : ℕ) :
    getNextResponse ops cache ((fun s => (getNextResponse ops cache s).2)^[n] s) = getNextResponse ops cache s := by
  have hfix : (fun s => (getNextResponse ops cache s).2)^[n] s = s :=
    Function.iterate_fixed (getNextResponse_state cache s) n
  rw [hfix]

/-- The matches of a pattern, as the real ids of its variables. -/
def patternMatches (ops : TreeOps T) (cache : CacheContainer T) (node : TripleNodeId) : List (List UInt64) :=
  (scannerAhead (initializeScanner ops cache node)).map fun x =>
    (if isAny node.subject then [(cache.nodeIds.getRealId x.1).1] else []) ++
      (if isAny node.object then [(cache.nodeIds.getRealId x.2).1] else [])

/-- **The responses page through the result**: all matches, sorted, up to a last response,
which is empty and no exact answer if there are none; all is sent after it and not before. -/
structure PagesThrough (ops : TreeOps T) (cache : CacheContainer T) (node : TripleNodeId) (s : TPMSortedStreamer) : Prop where
  before : s.allSent = false
  through : ∃ rs s', Responses ops cache s rs s' ∧
    (rs.flatMap TriplesResponse.matchingValues).Perm (patternMatches ops cache node) ∧
    (rs.flatMap TriplesResponse.matchingValues).Pairwise (· ≤ ·) ∧
    (patternMatches ops cache node = [] → ∃ r, rs = [r] ∧ r.matchingValues = [] ∧ r.hasExactResponse = false)

theorem not_pagesThrough {cache : CacheContainer T} {node : TripleNodeId} {s : TPMSortedStreamer} :
    ¬ PagesThrough ops cache node s := by
  rintro ⟨hbefore, rs, s', hrs, -⟩
  have hsent := hrs.sent_final
  rw [hrs.state, hbefore] at hsent
  simp at hsent

/-- **Sorted streaming does not page through** any result: what is sent is never counted. -/
theorem sorted_never (ops : TreeOps T) (cache : CacheContainer T) (node : TripleNodeId) (channelId patternChannelId : ℤ)
    (thresholdPartSize : UInt64) :
    ¬ PagesThrough ops cache node (construct ops cache channelId patternChannelId node thresholdPartSize) :=
  not_pagesThrough

end TPMSortedStreamer

/-- Two matches in parts of one: every response has the first match, and none is the last. -/
theorem sorted_fails :
    (∀ n, ∃ r s', TPMSortedStreamer.getNextResponse PointTree.ops turnedCache
        ((fun s => (TPMSortedStreamer.getNextResponse PointTree.ops turnedCache s).2)^[n]
          (.construct PointTree.ops turnedCache 0 0 ⟨nodeAny, 7, nodeAny⟩ 16)) = (.ok r, s') ∧
        r.matchingValues = [[1, 2]] ∧ r.lastResult = false) ∧
      ¬ TPMSortedStreamer.PagesThrough PointTree.ops turnedCache ⟨nodeAny, 7, nodeAny⟩
        (.construct PointTree.ops turnedCache 0 0 ⟨nodeAny, 7, nodeAny⟩ 16) := by
  refine ⟨fun n => ?_, TPMSortedStreamer.not_pagesThrough⟩
  rw [TPMSortedStreamer.getNextResponse_iterate]
  exact ⟨⟨0, 0, false, false, false, [[1, 2]]⟩, _, Prod.ext (by decide +kernel) rfl, rfl, rfl⟩

end K2Cache
