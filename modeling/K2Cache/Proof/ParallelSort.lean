import K2Cache.Spec.ExternalSort
import K2Cache.Proof.WorkerPool

/-!
# The sort in memory

The parts are a list of lists, whose ends are the offsets. `parallelSort_sorted`: where every
pool ends, in whatever order its workers took the tasks, `parallel_sort` sorts.
-/

namespace K2Cache

open Lib

variable {P : SortParams}

namespace ParallelSort

/-! ## Parts -/

/-- The ends of the parts that start at a position. -/
def ends : ℕ → List (List TripleValue) → List ℕ
  | _, [] => []
  | base, s :: segs => (base + s.length) :: ends (base + s.length) segs

/-- Their starts. -/
def starts : ℕ → List (List TripleValue) → List ℕ
  | _, [] => []
  | base, s :: segs => base :: starts (base + s.length) segs

/-- The rest of the part that a position is in. -/
def runAt : ℕ → List (List TripleValue) → ℕ → List TripleValue
  | _, [], _ => []
  | base, s :: segs, pos => if pos < base + s.length then s.drop (pos - base) else runAt (base + s.length) segs pos

theorem ends_length (base : ℕ) (segs : List (List TripleValue)) : (ends base segs).length = segs.length := by
  induction segs generalizing base with
  | nil => rfl
  | cons s segs ih => simp [ends, ih]

theorem ends_congr {segs segs' : List (List TripleValue)} (h : List.Forall₂ List.Perm segs segs') (base : ℕ) :
    ends base segs = ends base segs' := by
  induction h generalizing base with
  | nil => rfl
  | cons hs _ ih =>
    unfold ends
    rw [hs.length_eq, ih]

theorem le_of_mem_ends {base p : ℕ} {segs : List (List TripleValue)} (h : p ∈ ends base segs) : base ≤ p := by
  induction segs generalizing base with
  | nil => cases h
  | cons s segs ih =>
    unfold ends at h
    rcases List.mem_cons.1 h with rfl | h
    · omega
    · have := ih h
      omega

theorem take_ends (base : ℕ) (segs : List (List TripleValue)) :
    (base :: ends base segs).take segs.length = starts base segs := by
  induction segs generalizing base with
  | nil => rfl
  | cons s segs ih =>
    rw [List.length_cons, List.take_succ_cons]
    exact congrArg (base :: ·) (ih _)

/-- **The loop cuts the triples into parts.** -/
theorem findOffsets_ends (segmentSize : UInt64) (n i : ℕ) (acc : UInt64) (base : ℕ) (l : List TripleValue) (hi : base < i)
    (hl : base + l.length = i + n) : ∃ segs, segs.flatten = l ∧ (∀ s ∈ segs, s ≠ []) ∧
      ends base segs = findOffsets segmentSize n i acc ++ [base + l.length] := by
  induction n generalizing i acc base l with
  | zero =>
    refine ⟨[l], by simp, ?_, rfl⟩
    intro s hs
    obtain rfl : s = l := by simpa using hs
    intro h
    rw [h, List.length_nil] at hl
    omega
  | succ n ih =>
    unfold findOffsets
    simp only
    by_cases hcut : acc + tripleSize ≥ segmentSize
    · rw [if_pos hcut]
      have htake : (l.take (i - base)).length = i - base := by
        rw [List.length_take]
        omega
      have hdrop : i + (l.drop (i - base)).length = i + 1 + n := by
        rw [List.length_drop]
        omega
      obtain ⟨segs, h1, h2, h3⟩ := ih (i + 1) 0 i (l.drop (i - base)) (by omega) hdrop
      refine ⟨l.take (i - base) :: segs, by rw [List.flatten_cons, h1, List.take_append_drop], ?_, ?_⟩
      · intro s hs
        rcases List.mem_cons.1 hs with rfl | hs
        · intro h
          rw [h, List.length_nil] at htake
          omega
        · exact h2 s hs
      · have hbase : base + (l.take (i - base)).length = i := by omega
        unfold ends
        rw [hbase, h3]
        have hend : i + (l.drop (i - base)).length = base + l.length := by omega
        rw [hend]
        rfl
    · rw [if_neg hcut]
      exact ih (i + 1) _ base l (by omega) (by omega)

/-- The offsets of some triples. -/
theorem offsets_ends (segmentSize : UInt64) {l : List TripleValue} (hl : l ≠ []) : ∃ segs, segs.flatten = l ∧
    (∀ s ∈ segs, s ≠ []) ∧ ends 0 segs = offsetsSet segmentSize l.length := by
  have hpos : 0 < l.length := List.length_pos_of_ne_nil hl
  have h := findOffsets_ends segmentSize (l.length - 1) 1 tripleSize 0 l (by omega) (by omega)
  rw [Nat.zero_add] at h
  exact h

/-! ## Sorting the parts -/

theorem sortPart_flatten (i : ℕ) (pre : List TripleValue) (segs : List (List TripleValue)) (hi : i < segs.length) :
    sortPart P (pre.length :: ends pre.length segs) (pre ++ segs.flatten) i =
      pre ++ (segs.set i (P.stdSort.sort segs[i])).flatten := by
  induction segs generalizing i pre with
  | nil => simp at hi
  | cons s segs ih =>
    cases i with
    | zero =>
      have hstop : (pre ++ (s ++ segs.flatten)).take (pre.length + s.length) = pre ++ s := by
        rw [← List.append_assoc, ← List.length_append, List.take_left]
      have hdrop : (pre ++ (s ++ segs.flatten)).drop (pre.length + s.length) = segs.flatten := by
        rw [← List.append_assoc, ← List.length_append, List.drop_left]
      simp [sortPart, ends, hstop, hdrop]
    | succ i =>
      have h := ih i (pre ++ s) (by simpa using hi)
      rw [List.length_append, List.append_assoc, List.append_assoc] at h
      exact h

theorem forall₂_perm_trans {l l' l'' : List (List TripleValue)} (h : List.Forall₂ List.Perm l l')
    (h' : List.Forall₂ List.Perm l' l'') : List.Forall₂ List.Perm l l'' := by
  induction h generalizing l'' with
  | nil => exact h'
  | cons h1 _ ih =>
    cases h' with
    | cons h2 h3 => exact .cons (h1.trans h2) (ih h3)

/-- Permuted parts hold the same triples, and none becomes empty. -/
theorem forall₂_perm_flatten {l l' : List (List TripleValue)} (h : List.Forall₂ List.Perm l l') :
    l.flatten.Perm l'.flatten ∧ ((∀ s ∈ l, s ≠ []) → ∀ s ∈ l', s ≠ []) := by
  induction h with
  | nil => exact ⟨.refl _, fun h => h⟩
  | @cons s s' l l' hs _ ih =>
    refine ⟨hs.append ih.1, fun hne t ht => ?_⟩
    rcases List.mem_cons.1 ht with rfl | ht
    · intro hnil
      rw [hnil] at hs
      exact hne s List.mem_cons_self hs.eq_nil
    · exact ih.2 (fun u hu => hne u (List.mem_cons_of_mem _ hu)) t ht

/-- The tasks of the parts, in any order: each part is permuted, and sorted once its task ran. -/
theorem sortParts (order done : List ℕ) {segs : List (List TripleValue)} (horder : ∀ i ∈ order, i < segs.length)
    (hdone : ∀ i ∈ done, ∀ s ∈ segs[i]?, s.Pairwise P.comparator.le) :
    ∃ segs', order.foldl (sortPart P (0 :: ends 0 segs)) segs.flatten = segs'.flatten ∧
      List.Forall₂ List.Perm segs segs' ∧ ∀ i ∈ done ++ order, ∀ s ∈ segs'[i]?, s.Pairwise P.comparator.le := by
  induction order generalizing done segs with
  | nil =>
    refine ⟨segs, rfl, List.forall₂_same.2 fun s _ => .refl s, ?_⟩
    rw [List.append_nil]
    exact hdone
  | cons i order ih =>
    have hi : i < segs.length := horder i List.mem_cons_self
    set segs₁ := segs.set i (P.stdSort.sort segs[i]) with hsegs₁
    have hperm : List.Forall₂ List.Perm segs segs₁ := by
      rw [List.forall₂_iff_get]
      refine ⟨by simp [hsegs₁], fun j h1 h2 => ?_⟩
      simp only [List.get_eq_getElem, hsegs₁, List.getElem_set]
      split
      · rename_i hij
        subst hij
        exact (P.stdSort.perm _).symm
      · exact .refl _
    have hdone₁ : ∀ j ∈ done ++ [i], ∀ s ∈ segs₁[j]?, s.Pairwise P.comparator.le := by
      intro j hj s hs
      rw [hsegs₁, List.getElem?_set] at hs
      split at hs
      · simp only [Option.mem_def, Option.some.injEq] at hs
        rw [← hs]
        exact P.stdSort.sorted _
      · rename_i hij
        rcases List.mem_append.1 hj with hj | hj
        · exact hdone j hj s hs
        · exact absurd (by simpa using hj) (Ne.symm hij)
    have hlen : segs₁.length = segs.length := List.length_set
    obtain ⟨segs', h1, h2, h3⟩ := ih (done ++ [i])
      (fun j hj => by rw [hlen]; exact horder j (List.mem_cons_of_mem _ hj)) hdone₁
    have hstep : sortPart P (0 :: ends 0 segs) segs.flatten i = segs₁.flatten := by
      simpa using sortPart_flatten (P := P) i [] segs hi
    refine ⟨segs', ?_, forall₂_perm_trans hperm h2, ?_⟩
    · rw [List.foldl_cons, hstep, ends_congr hperm]
      exact h1
    · intro j hj
      apply h3 j
      simpa using hj

/-! ## Merging the parts -/

theorem runAt_of_le {base pos : ℕ} {s : List TripleValue} (segs : List (List TripleValue)) (h : base + s.length ≤ pos) :
    runAt base (s :: segs) pos = runAt (base + s.length) segs pos := by
  rw [runAt, if_neg (by omega)]

theorem le_of_mem_starts {base p : ℕ} {segs : List (List TripleValue)} (h : p ∈ starts base segs) : base ≤ p := by
  induction segs generalizing base with
  | nil => cases h
  | cons s segs ih =>
    unfold starts at h
    rcases List.mem_cons.1 h with rfl | h
    · omega
    · have := ih h
      omega

/-- The runs at the starts are the parts. -/
theorem runAt_starts {segs : List (List TripleValue)} (hne : ∀ s ∈ segs, s ≠ []) (base : ℕ) :
    (starts base segs).map (runAt base segs) = segs := by
  induction segs generalizing base with
  | nil => rfl
  | cons s segs ih =>
    have hpos : 0 < s.length := List.length_pos_of_ne_nil (hne s List.mem_cons_self)
    unfold starts
    rw [List.map_cons, runAt, if_pos (by omega), Nat.sub_self, List.drop_zero]
    have hrest : (starts (base + s.length) segs).map (runAt base (s :: segs)) =
        (starts (base + s.length) segs).map (runAt (base + s.length) segs) :=
      List.map_congr_left fun p hp => runAt_of_le segs (le_of_mem_starts hp)
    rw [hrest, ih (fun t ht => hne t (List.mem_cons_of_mem _ ht))]

/-- **A position in the parts**: its triple is the head of its run, and the next position is an
end or has the rest of the run. -/
theorem runAt_next {segs : List (List TripleValue)} (hne : ∀ s ∈ segs, s ≠ []) {base pos : ℕ} (hbase : base ≤ pos)
    (hpos : pos < base + segs.flatten.length) : ∃ a l, runAt base segs pos = a :: l ∧
      segs.flatten[pos - base]? = some a ∧
      ((pos + 1 ∈ ends base segs ∧ l = []) ∨
        (pos + 1 ∉ ends base segs ∧ pos + 1 < base + segs.flatten.length ∧ l ≠ [] ∧ runAt base segs (pos + 1) = l)) := by
  induction segs generalizing base with
  | nil => simp at hpos; omega
  | cons s segs ih =>
    rw [List.flatten_cons, List.length_append] at hpos
    by_cases hin : pos < base + s.length
    · have hlt : pos - base < s.length := by omega
      have hdrop : s.drop (pos - base) = s[pos - base] :: s.drop (pos - base + 1) := List.drop_eq_getElem_cons hlt
      refine ⟨s[pos - base], s.drop (pos - base + 1), by rw [runAt, if_pos hin, hdrop], ?_, ?_⟩
      · rw [List.flatten_cons, List.getElem?_append_left hlt, List.getElem?_eq_getElem hlt]
      · by_cases hend : pos + 1 = base + s.length
        · left
          refine ⟨by rw [ends, hend]; exact List.mem_cons_self, ?_⟩
          rw [List.drop_eq_nil_iff]
          omega
        · right
          refine ⟨?_, by rw [List.flatten_cons, List.length_append]; omega, ?_, ?_⟩
          · unfold ends
            intro h
            rcases List.mem_cons.1 h with h | h
            · exact hend h
            · have := le_of_mem_ends h
              omega
          · rw [ne_eq, List.drop_eq_nil_iff]
            omega
          · rw [runAt, if_pos (by omega)]
            congr 1
            omega
    · have hle : base + s.length ≤ pos := by omega
      obtain ⟨a, l, h1, h2, h3⟩ := ih (fun t ht => hne t (List.mem_cons_of_mem _ ht)) hle (by omega)
      have hends : pos + 1 ∈ ends base (s :: segs) ↔ pos + 1 ∈ ends (base + s.length) segs := by
        have hno : pos + 1 ≠ base + s.length := by omega
        simp [ends, hno]
      refine ⟨a, l, by rw [runAt_of_le segs (by omega), h1], ?_, ?_⟩
      · rw [List.flatten_cons, List.getElem?_append_right (by omega)]
        rw [← h2]
        congr 1
        omega
      · rw [hends, runAt_of_le segs (by omega), List.flatten_cons, List.length_append, ← Nat.add_assoc]
        exact h3

theorem starts_lt {segs : List (List TripleValue)} (hne : ∀ s ∈ segs, s ≠ []) {base p : ℕ} (h : p ∈ starts base segs) :
    p < base + segs.flatten.length := by
  induction segs generalizing base with
  | nil => cases h
  | cons s segs ih =>
    have hpos : 0 < s.length := List.length_pos_of_ne_nil (hne s List.mem_cons_self)
    unfold starts at h
    rw [List.flatten_cons, List.length_append]
    rcases List.mem_cons.1 h with rfl | h
    · omega
    · have := ih (fun t ht => hne t (List.mem_cons_of_mem _ ht)) h
      omega

/-- The comparison of the queue gives a triple that no other one comes before. -/
theorem le_of_top {q q' : P.pqueue.Queue} {e e' : TripleValue × ℕ} (hpop : P.pqueue.pop q = some (e, q'))
    (he : e' ∈ P.pqueue.items q') : P.comparator.le e.1 e'.1 := by
  have htop := P.pqueue.top hpop e' he
  unfold Comparator.le
  unfold pairComp at htop
  by_cases h : P.comparator.lt e.1 e'.1 = true
  · exact P.comparator.asymm h
  · simpa using htop (by simpa using h)

/-- The runs of the entries of the queue. -/
def queuedRuns (segs : List (List TripleValue)) (entries : List (TripleValue × ℕ)) : Multiset (List TripleValue) :=
  (entries : Multiset (TripleValue × ℕ)).map fun e => runAt 0 segs e.2

theorem mergeParts_done {offsetsSet : List ℕ} {data : List TripleValue} {fuel : ℕ} {q : P.pqueue.Queue}
    (hpop : P.pqueue.pop q = none) : mergeParts P offsetsSet data fuel q = some [] := by
  unfold mergeParts
  rw [hpop]

section
variable {offsetsSet : List ℕ} {data : List TripleValue} {fuel pos : ℕ} {q q' : P.pqueue.Queue} {a b : TripleValue}

/-- The last triple of a part. -/
theorem mergeParts_last (hpop : P.pqueue.pop q = some ((a, pos), q')) (hend : pos + 1 ∈ offsetsSet) :
    mergeParts P offsetsSet data (fuel + 1) q = (mergeParts P offsetsSet data fuel q').map (a :: ·) := by
  rw [mergeParts.eq_def]
  simp only [hpop, if_pos hend]

/-- A triple with another one behind it in its part. -/
theorem mergeParts_next (hpop : P.pqueue.pop q = some ((a, pos), q')) (hend : pos + 1 ∉ offsetsSet)
    (hb : data[pos + 1]? = some b) : mergeParts P offsetsSet data (fuel + 1) q =
      (mergeParts P offsetsSet data fuel (P.pqueue.push q' (b, pos + 1))).map (a :: ·) := by
  rw [mergeParts.eq_def]
  simp only [hpop, if_neg hend, hb]

end

theorem mergeParts_spec {segs : List (List TripleValue)} (hne : ∀ s ∈ segs, s ≠ []) (fuel : ℕ) (q : P.pqueue.Queue)
    (hq : ∀ e ∈ P.pqueue.items q, e.2 < segs.flatten.length ∧ segs.flatten[e.2]? = some e.1)
    (hfuel : ((queuedRuns segs (P.pqueue.items q)).map List.length).sum ≤ fuel) :
    ∃ out, mergeParts P (ends 0 segs) segs.flatten fuel q = some out ∧
      Merges P.comparator (queuedRuns segs (P.pqueue.items q)) out := by
  induction fuel generalizing q with
  | zero =>
    rcases hpop : P.pqueue.pop q with _ | ⟨e, q'⟩
    · refine ⟨[], mergeParts_done hpop, ?_⟩
      rw [P.pqueue.pop_eq_none q hpop]
      exact .nil
    · -- an entry has a run, which the fuel does not cover
      exfalso
      have hmem : e ∈ P.pqueue.items q := (P.pqueue.pop_perm hpop).symm.subset List.mem_cons_self
      obtain ⟨a, l, hrun, -⟩ := runAt_next hne (Nat.zero_le e.2) (by simpa using (hq e hmem).1)
      have hin : runAt 0 segs e.2 ∈ queuedRuns segs (P.pqueue.items q) := Multiset.mem_map_of_mem _ hmem
      have hle := Multiset.single_le_sum (by simp) _ (Multiset.mem_map_of_mem List.length hin)
      rw [hrun, List.length_cons] at hle
      omega
  | succ fuel ih =>
    rcases hpop : P.pqueue.pop q with _ | ⟨⟨a, pos⟩, q'⟩
    · refine ⟨[], mergeParts_done hpop, ?_⟩
      rw [P.pqueue.pop_eq_none q hpop]
      exact .nil
    · have hperm := P.pqueue.pop_perm hpop
      have hmem : (a, pos) ∈ P.pqueue.items q := hperm.symm.subset List.mem_cons_self
      obtain ⟨hlt, hget⟩ := hq _ hmem
      have hq' : ∀ e ∈ P.pqueue.items q', e.2 < segs.flatten.length ∧ segs.flatten[e.2]? = some e.1 :=
        fun e he => hq e (hperm.symm.subset (List.mem_cons_of_mem _ he))
      obtain ⟨b, l, hrun, hb, hnext⟩ := runAt_next hne (Nat.zero_le pos) (by simpa using hlt)
      have hab : b = a := by
        rw [Nat.sub_zero, hget] at hb
        exact (Option.some.inj hb).symm
      subst hab
      have hruns : queuedRuns segs (P.pqueue.items q) = (b :: l) ::ₘ queuedRuns segs (P.pqueue.items q') := by
        unfold queuedRuns
        rw [Multiset.coe_eq_coe.2 hperm, ← Multiset.cons_coe, Multiset.map_cons, hrun]
      have hmin : ∀ m ∈ queuedRuns segs (P.pqueue.items q'), ∀ c ∈ m.head?, P.comparator.le b c := by
        intro m hm c hc
        obtain ⟨e, he, rfl⟩ := Multiset.mem_map.1 hm
        have he : e ∈ P.pqueue.items q' := he
        obtain ⟨c', l', hrun', hc', -⟩ := runAt_next hne (Nat.zero_le e.2) (by simpa using (hq' e he).1)
        rw [hrun'] at hc
        obtain rfl : c' = c := by simpa using hc
        have hce : c' = e.1 := by
          rw [Nat.sub_zero, (hq' e he).2] at hc'
          exact (Option.some.inj hc').symm
        rw [hce]
        exact le_of_top hpop he
      rw [hruns, Multiset.map_cons, Multiset.sum_cons, List.length_cons] at hfuel
      rw [hruns]
      rcases hnext with ⟨hend, rfl⟩ | ⟨hend, hlt', hl, hrun'⟩
      · obtain ⟨out, h1, h2⟩ := ih q' hq' (by omega)
        exact ⟨b :: out, by rw [mergeParts_last hpop hend, h1]; rfl, .pick b [] hmin (.drop h2)⟩
      · rw [Nat.zero_add] at hlt'
        obtain ⟨c, l', hcl, hc, -⟩ := runAt_next hne (Nat.zero_le (pos + 1)) (by simpa using hlt')
        rw [Nat.sub_zero] at hc
        have hpush := P.pqueue.items_push q' (c, pos + 1)
        have hruns' : queuedRuns segs (P.pqueue.items (P.pqueue.push q' (c, pos + 1))) =
            l ::ₘ queuedRuns segs (P.pqueue.items q') := by
          unfold queuedRuns
          rw [Multiset.coe_eq_coe.2 hpush, ← Multiset.cons_coe, Multiset.map_cons, hrun']
        obtain ⟨out, h1, h2⟩ := ih (P.pqueue.push q' (c, pos + 1))
          (by
            intro e he
            rcases List.mem_cons.1 (hpush.subset he) with rfl | he
            · exact ⟨hlt', hc⟩
            · exact hq' e he)
          (by rw [hruns', Multiset.map_cons, Multiset.sum_cons]; omega)
        rw [hruns'] at h2
        exact ⟨b :: out, by rw [mergeParts_next hpop hend hc, h1]; rfl, .pick b l hmin h2⟩

/-- The first triples of some parts, in the queue. -/
theorem pushFirst_spec (data : List TripleValue) (offs : List ℕ) (q : P.pqueue.Queue) (hoffs : ∀ o ∈ offs, o < data.length) :
    ∃ q', pushFirst P data offs q = some q' ∧
      ((P.pqueue.items q').map Prod.snd).Perm (offs ++ (P.pqueue.items q).map Prod.snd) ∧
      ((∀ e ∈ P.pqueue.items q, data[e.2]? = some e.1) → ∀ e ∈ P.pqueue.items q', data[e.2]? = some e.1) := by
  induction offs generalizing q with
  | nil => exact ⟨q, rfl, .refl _, fun h => h⟩
  | cons o offs ih =>
    have hlt : o < data.length := hoffs o List.mem_cons_self
    have ho : data[o]? = some data[o] := List.getElem?_eq_getElem hlt
    obtain ⟨q', h1, h2, h3⟩ := ih (P.pqueue.push q (data[o], o)) fun p hp => hoffs p (List.mem_cons_of_mem _ hp)
    have hpush := P.pqueue.items_push q (data[o], o)
    refine ⟨q', by rw [pushFirst, ho]; exact h1, ?_, fun h => h3 ?_⟩
    · refine h2.trans (((hpush.map Prod.snd).append_left offs).trans ?_)
      exact List.perm_middle
    · intro e he
      rcases List.mem_cons.1 (hpush.subset he) with rfl | he
      · exact ho
      · exact h e he

/-- The parts that the tasks sorted, merged. -/
theorem merged_spec {segs : List (List TripleValue)} (hne : ∀ s ∈ segs, s ≠ [])
    (hsorted : ∀ s ∈ segs, s.Pairwise P.comparator.le) : ∃ q out,
      pushFirst P segs.flatten (starts 0 segs) P.pqueue.empty = some q ∧
      mergeParts P (ends 0 segs) segs.flatten segs.flatten.length q = some out ∧
      out.Perm segs.flatten ∧ out.Pairwise P.comparator.le := by
  have hstarts : ∀ o ∈ starts 0 segs, o < segs.flatten.length := fun o ho => by simpa using starts_lt hne ho
  obtain ⟨q, h1, h2, h3⟩ := pushFirst_spec (P := P) segs.flatten (starts 0 segs) P.pqueue.empty hstarts
  rw [P.pqueue.items_empty] at h2 h3
  rw [List.map_nil, List.append_nil] at h2
  have hentries := h3 (by simp)
  have hruns : queuedRuns segs (P.pqueue.items q) = (segs : Multiset (List TripleValue)) := by
    have hmap : queuedRuns segs (P.pqueue.items q) =
        (((P.pqueue.items q).map Prod.snd : List ℕ) : Multiset ℕ).map (runAt 0 segs) := by
      simp [queuedRuns, Function.comp_def]
    rw [hmap, Multiset.coe_eq_coe.2 h2, Multiset.map_coe, runAt_starts hne]
  have hq : ∀ e ∈ P.pqueue.items q, e.2 < segs.flatten.length ∧ segs.flatten[e.2]? = some e.1 := by
    intro e he
    have hmem : e.2 ∈ starts 0 segs := h2.subset (List.mem_map_of_mem he)
    exact ⟨hstarts _ hmem, hentries e he⟩
  obtain ⟨out, h4, h5⟩ := mergeParts_spec hne segs.flatten.length q hq (by
    rw [hruns, Multiset.map_coe, Multiset.sum_coe, List.length_flatten])
  rw [hruns] at h5
  refine ⟨q, out, h1, h4, ?_, h5.sorted fun l hl => hsorted l hl⟩
  rw [← Multiset.coe_eq_coe, h5.perm]
  exact (Multiset.coe_bind segs fun l => l).trans (by rw [List.flatMap_id'])

end ParallelSort

open ParallelSort

/-- **A pool that ends has sorted every part.** -/
theorem SortParams.PoolsEnd.order (hpools : P.PoolsEnd) {workers : ℕ} (hw : 0 < workers) (parts : ℕ) :
    (P.poolOrder workers parts).Perm (List.range parts) := by
  obtain ⟨is, s, hr, hmain, hfinished⟩ := hpools workers parts hw
  obtain ⟨hq, hpushed, hheld⟩ := ParallelWorkerPool.joined_empty hw hr hmain
  rw [← hfinished]
  exact hpushed.all_finished hq hheld

theorem parallelSort_spec (hpools : P.PoolsEnd) (data : List TripleValue) {maxWorkers segmentSize : UInt64}
    (hworkers : maxWorkers ≠ 0) (hsegment : tripleSize ≤ segmentSize) :
    ∃ out, parallelSort P data maxWorkers segmentSize = some out ∧ out.Perm data ∧ out.Pairwise P.comparator.le := by
  have hdiv : ¬ segmentSize / tripleSize = 0 := by
    intro h
    have h1 := congrArg UInt64.toNat h
    rw [UInt64.toNat_div] at h1
    have h2 : tripleSize.toNat = 24 := rfl
    have h3 : (24 : ℕ) ≤ segmentSize.toNat := UInt64.le_iff_toNat_le.1 hsegment
    rw [h2, UInt64.toNat_zero] at h1
    omega
  have hpos : 0 < maxWorkers.toNat := by
    by_contra h
    exact hworkers (UInt64.toNat_inj.1 (by rw [UInt64.toNat_zero]; omega))
  unfold parallelSort
  rw [if_neg hdiv]
  simp only
  by_cases hone : min maxWorkers.toNat ((offsets segmentSize data.length).length - 1) = 1
  · rw [if_pos hone]
    exact ⟨_, rfl, P.stdSort.perm data, P.stdSort.sorted data⟩
  · rw [if_neg hone]
    have hnil : data ≠ [] := by
      rintro rfl
      apply hone
      simp [offsets, offsetsSet, findOffsets]
      omega
    obtain ⟨segs, hflat, hne, hends⟩ := offsets_ends segmentSize hnil
    have hoffs : offsets segmentSize data.length = 0 :: ends 0 segs := by rw [offsets, hends]
    have hparts : (offsets segmentSize data.length).length - 1 = segs.length := by
      rw [hoffs, List.length_cons, ends_length, Nat.add_sub_cancel]
    have hlen : 0 < segs.length := by
      apply List.length_pos_of_ne_nil
      rintro rfl
      exact hnil hflat.symm
    rw [hparts] at hone ⊢
    have hmin : 0 < min maxWorkers.toNat segs.length := by omega
    have horder := hpools.order hmin segs.length
    have hbound : ∀ i ∈ P.poolOrder (min maxWorkers.toNat segs.length) segs.length, i < segs.length :=
      fun i hi => List.mem_range.1 (horder.subset hi)
    obtain ⟨segs', h1, h2, h3⟩ := sortParts (P := P) _ [] hbound (by simp)
    have hlen' : segs'.length = segs.length := h2.length_eq.symm
    obtain ⟨hperm, hne'⟩ := forall₂_perm_flatten h2
    rw [hflat] at hperm
    have hsorted : ∀ s ∈ segs', s.Pairwise P.comparator.le := by
      intro s hs
      obtain ⟨i, hi⟩ := List.getElem?_of_mem hs
      have hlt : i < segs'.length := (List.getElem?_eq_some_iff.1 hi).1
      exact h3 i (by rw [List.nil_append]; exact horder.symm.subset (List.mem_range.2 (by omega))) s hi
    obtain ⟨q, out, h4, h5, h6, h7⟩ := merged_spec (hne' hne) hsorted
    refine ⟨out, ?_, h6.trans hperm.symm, h7⟩
    have htake : (offsets segmentSize data.length).take segs.length = starts 0 segs' := by
      rw [hoffs, ends_congr h2, ← hlen', take_ends]
    have hset : offsetsSet segmentSize data.length = ends 0 segs' := by rw [← hends, ends_congr h2]
    have hsort : (P.poolOrder (min maxWorkers.toNat segs.length) segs.length).foldl
        (sortPart P (offsets segmentSize data.length)) data = segs'.flatten := by
      rw [hoffs, ← h1, hflat]
    rw [hsort, htake, h4, hset, hperm.length_eq]
    exact h5

end K2Cache
