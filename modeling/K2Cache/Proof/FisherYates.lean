import K2Cache.Spec.FisherYates

/-!
# Samples without repetition

After each round the hash map of `fisher_yates` is a sparse permutation: a round exchanges
the values at two positions. The sample is read off it, so its numbers are distinct.

* `fisherYates_distinct`: a sample that is not larger than the set it is taken from.
* `fisherYates_traps_iff`: a larger one is a division by zero.
-/

namespace K2Cache

open Lib

variable {rand : ℕ → UInt64} {m i : UInt64} {n : ℕ} {state : OrdMap UInt64 UInt64}

/-! ## A round -/

/-- **A round** exchanges the values of `i` and a position between `i` and the end. -/
theorem fisherYatesRound_eq (r : UInt64) (hi : i < m) (state : OrdMap UInt64 UInt64) :
    ∃ j : UInt64, i ≤ j ∧ j < m ∧ j.toNat ≤ i.toNat + r.toNat ∧ fisherYatesRound r m i state = .ok (state.exchange i j) := by
  have hi' : i.toNat < m.toNat := UInt64.lt_iff_toNat_lt.1 hi
  have hm : m.toNat < 2 ^ 64 := m.toNat_lt
  have hsub : (m - i).toNat = m.toNat - i.toNat := UInt64.toNat_sub_of_le _ _ (UInt64.le_of_lt hi)
  have hne : m - i ≠ 0 := by
    intro h
    rw [h, UInt64.toNat_zero] at hsub
    omega
  have hmod : (r % (m - i)).toNat = r.toNat % (m.toNat - i.toNat) := by
    rw [UInt64.toNat_mod, hsub]
  have hlt : r.toNat % (m.toNat - i.toNat) < m.toNat - i.toNat := Nat.mod_lt _ (by omega)
  have hle : r.toNat % (m.toNat - i.toNat) ≤ r.toNat := Nat.mod_le _ _
  have hj : (r % (m - i) + i).toNat = r.toNat % (m.toNat - i.toNat) + i.toNat := by
    rw [UInt64.toNat_add, hmod]
    exact Nat.mod_eq_of_lt (by omega)
  refine ⟨r % (m - i) + i, UInt64.le_iff_toNat_le.2 ?_, UInt64.lt_iff_toNat_lt.2 ?_, ?_, ?_⟩
  · omega
  · omega
  · omega
  · unfold fisherYatesRound remainder
    rw [if_neg hne]
    rfl

/-- The round behind the last position divides by zero. -/
theorem fisherYatesRound_traps (r : UInt64) (state : OrdMap UInt64 UInt64) :
    fisherYatesRound r m m state = .error .divisionByZero := by
  unfold fisherYatesRound remainder
  rw [UInt64.sub_self, if_pos rfl]
  rfl

/-! ## The first loop -/

/-- **The invariant of the first loop**: the positions below `b` are permuted, and those
below `i` have an entry. -/
structure Shuffled (b i : ℕ) (state : OrdMap UInt64 UInt64) : Prop where
  within : state.Within {x | x.toNat < b}
  stored : ∀ x : UInt64, x.toNat < i → (state.find? x).isSome = true

theorem Shuffled.start (b : ℕ) : Shuffled b 0 ∅ := ⟨.empty _, fun _ hx => absurd hx (Nat.not_lt_zero _)⟩

theorem Shuffled.exchange {b : ℕ} (h : Shuffled b i.toNat state) {j : UInt64} (hi : i.toNat < b) (hj : j.toNat < b) :
    Shuffled b (i.toNat + 1) (state.exchange i j) := by
  refine ⟨h.within.exchange hi hj, fun x hx => ?_⟩
  rw [OrdMap.isSome_exchange]
  by_cases hxi : x.toNat = i.toNat
  · exact .inl (.inl (UInt64.toNat_inj.1 hxi))
  · exact .inr (h.stored x (by omega))

/-- **The first loop.** The bound `b` is above the positions the draws reach. -/
theorem fisherYatesLoop_spec {b : ℕ} (hn : i.toNat + n ≤ m.toNat)
    (hb : ∀ t < i.toNat + n, min m.toNat (t + (rand t).toNat + 1) ≤ b) (h : Shuffled b i.toNat state) :
    ∃ state', fisherYatesLoop rand m n i state = .ok state' ∧ Shuffled b (i.toNat + n) state' := by
  induction n generalizing i state with
  | zero => exact ⟨state, rfl, h⟩
  | succ n ih =>
    have hm : m.toNat < 2 ^ 64 := m.toNat_lt
    have hi : i < m := UInt64.lt_iff_toNat_lt.2 (by omega)
    obtain ⟨j, hij, hjm, hjr, hround⟩ := fisherYatesRound_eq (rand i.toNat) hi state
    have hij' : i.toNat ≤ j.toNat := UInt64.le_iff_toNat_le.1 hij
    have hjm' : j.toNat < m.toNat := UInt64.lt_iff_toNat_lt.1 hjm
    have hbi := hb i.toNat (by omega)
    have hnext : (i + 1).toNat = i.toNat + 1 := by
      rw [UInt64.toNat_add, UInt64.toNat_one]
      exact Nat.mod_eq_of_lt (by omega)
    have hstep : Shuffled b (i + 1).toNat (state.exchange i j) := by
      rw [hnext]
      exact h.exchange (by omega) (by omega)
    obtain ⟨state', h1, h2⟩ := ih (by omega) (fun t ht => hb t (by omega)) hstep
    refine ⟨state', ?_, ?_⟩
    · rw [fisherYatesLoop, hround]
      exact h1
    · rw [hnext] at h2
      rwa [show i.toNat + (n + 1) = i.toNat + 1 + n by omega]

/-! ## The second loop -/

theorem stateAt_eq {b : ℕ} (h : Shuffled b n state) (hi : i.toNat < n) : stateAt state i = (state.image i, state) := by
  obtain ⟨v, hv⟩ := Option.isSome_iff_exists.1 (h.stored i hi)
  unfold stateAt
  rw [hv, OrdMap.image_eq state hv]

/-- The second loop reads the permutation. -/
theorem fisherYatesResult_eq {b k : ℕ} (h : Shuffled b k state) (hk : k < 2 ^ 64) (hn : i.toNat + n ≤ k) :
    fisherYatesResult n i state = (List.range' i.toNat n).map fun t => state.image (UInt64.ofNat t) + 1 := by
  induction n generalizing i with
  | zero => rfl
  | succ n ih =>
    have hnext : (i + 1).toNat = i.toNat + 1 := by
      rw [UInt64.toNat_add, UInt64.toNat_one]
      exact Nat.mod_eq_of_lt (by omega)
    have hi : i.toNat < k := by omega
    rw [fisherYatesResult, stateAt_eq h hi, List.range'_succ, List.map_cons, UInt64.ofNat_toNat, ← hnext]
    simp only
    rw [ih (by omega)]

/-- **The sample**, as the permutation of the last state. -/
theorem fisherYates_eq {k : UInt64} (hk : k ≤ m) {b : ℕ}
    (hb : ∀ t < k.toNat, min m.toNat (t + (rand t).toNat + 1) ≤ b) :
    ∃ state, Shuffled b k.toNat state ∧
      fisherYates rand k m = .ok ((List.range k.toNat).map fun t => state.image (UInt64.ofNat t) + 1) := by
  have hk' : k.toNat ≤ m.toNat := UInt64.le_iff_toNat_le.1 hk
  have hlt : k.toNat < 2 ^ 64 := k.toNat_lt
  have hzero : (0 : UInt64).toNat = 0 := UInt64.toNat_zero
  have hbound : ∀ t < (0 : UInt64).toNat + k.toNat, min m.toNat (t + (rand t).toNat + 1) ≤ b := fun t ht => hb t (by omega)
  obtain ⟨state, h1, h2⟩ := fisherYatesLoop_spec (by omega) hbound (Shuffled.start b)
  rw [hzero, Nat.zero_add] at h2
  refine ⟨state, h2, ?_⟩
  rw [fisherYates, h1]
  show Except.ok _ = _
  rw [fisherYatesResult_eq h2 hlt (by simp), UInt64.toNat_zero, List.range_eq_range']

/-- Its numbers are distinct, and at most `b`. -/
theorem sample_distinct {b k : ℕ} (h : Shuffled b k state) (hk : k < 2 ^ 64) (hb : b < 2 ^ 64) (hkb : k ≤ b) :
    ((List.range k).map fun t => state.image (UInt64.ofNat t) + 1).Nodup ∧
      ∀ v ∈ (List.range k).map (fun t => state.image (UInt64.ofNat t) + 1), 1 ≤ v.toNat ∧ v.toNat ≤ b := by
  have htoNat : ∀ t < k, (UInt64.ofNat t).toNat = t := fun t ht => UInt64.toNat_ofNat_of_lt' (lt_trans ht hk)
  constructor
  · refine List.Nodup.map_on ?_ List.nodup_range
    intro s hs t ht heq
    have himage : state.image (UInt64.ofNat s) = state.image (UInt64.ofNat t) := add_right_cancel heq
    have hst := congrArg UInt64.toNat (h.within.injective himage)
    rwa [htoNat s (List.mem_range.1 hs), htoNat t (List.mem_range.1 ht)] at hst
  · intro v hv
    obtain ⟨t, ht, rfl⟩ := List.mem_map.1 hv
    have htk : t < k := List.mem_range.1 ht
    have hmem : (state.image (UInt64.ofNat t)).toNat < b :=
      h.within.image_mem (show (UInt64.ofNat t).toNat < b by rw [htoNat t htk]; omega)
    have hadd : (state.image (UInt64.ofNat t) + 1).toNat = (state.image (UInt64.ofNat t)).toNat + 1 := by
      rw [UInt64.toNat_add, UInt64.toNat_one]
      exact Nat.mod_eq_of_lt (by omega)
    omega

/-! ## The sample -/

/-- A sample, with a bound for the positions the draws reach. -/
theorem fisherYates_sample (rand : ℕ → UInt64) {k : UInt64} (hk : k ≤ m) {b : ℕ} (hkb : k.toNat ≤ b) (hb : b < 2 ^ 64)
    (hdraws : ∀ t < k.toNat, min m.toNat (t + (rand t).toNat + 1) ≤ b) :
    ∃ result, fisherYates rand k m = .ok result ∧ result.length = k.toNat ∧ result.Nodup ∧
      ∀ v ∈ result, 1 ≤ v.toNat ∧ v.toNat ≤ b := by
  obtain ⟨state, hstate, heq⟩ := fisherYates_eq hk hdraws
  obtain ⟨hnodup, hrange⟩ := sample_distinct hstate k.toNat_lt hb hkb
  exact ⟨_, heq, by rw [List.length_map, List.length_range], hnodup, hrange⟩

/-- **Samples without repetition.** Whatever is drawn, a sample that is not larger than the
set it is taken from is `k` distinct numbers between 1 and `m`, and nothing is divided by
zero. -/
theorem fisherYates_distinct (rand : ℕ → UInt64) {k m : UInt64} (hk : k ≤ m) :
    ∃ result, fisherYates rand k m = .ok result ∧ result.length = k.toNat ∧ result.Nodup ∧
      ∀ v ∈ result, 1 ≤ v ∧ v ≤ m := by
  have hkm : k.toNat ≤ m.toNat := UInt64.le_iff_toNat_le.1 hk
  obtain ⟨result, h1, h2, h3, h4⟩ := fisherYates_sample rand hk hkm m.toNat_lt fun t _ => min_le_left _ _
  refine ⟨result, h1, h2, h3, fun v hv => ?_⟩
  obtain ⟨h5, h6⟩ := h4 v hv
  exact ⟨UInt64.le_iff_toNat_le.2 h5, UInt64.le_iff_toNat_le.2 h6⟩

/-- Three of five, where the second draw moves a number that was moved before. -/
theorem fisherYates_distinct_three : ∃ result, fisherYates (fun n => if n = 0 then 4 else 3) 3 5 = .ok result ∧
    result.length = 3 ∧ result.Nodup ∧ ∀ v ∈ result, 1 ≤ v ∧ v ≤ 5 :=
  fisherYates_distinct _ (by decide)

example : fisherYates (fun n => if n = 0 then 4 else 3) 3 5 = .ok [5, 1, 3] := by decide +kernel

/-- **A small generator** reaches only the front of a large set: `std::rand` is below
`RAND_MAX + 1`. -/
theorem fisherYates_le_of_draws {k r : UInt64} (hk : k ≤ m) (hr : ∀ t < k.toNat, (rand t).toNat < r.toNat)
    {result : List UInt64} (h : fisherYates rand k m = .ok result) : ∀ v ∈ result, v.toNat < k.toNat + r.toNat := by
  have hkm : k.toNat ≤ m.toNat := UInt64.le_iff_toNat_le.1 hk
  have hm : m.toNat < 2 ^ 64 := m.toNat_lt
  by_cases hk0 : k.toNat = 0
  · rw [fisherYates, hk0] at h
    obtain rfl := Except.ok.inj h
    simp [fisherYatesResult]
  · have hr0 := hr 0 (by omega)
    obtain ⟨result', h1, -, -, h4⟩ := fisherYates_sample rand (b := min m.toNat (k.toNat + r.toNat - 1)) hk (by omega)
      (by omega) fun t ht => by
        have := hr t ht
        omega
    obtain rfl := Except.ok.inj (h.symm.trans h1)
    intro v hv
    have hv' := h4 v hv
    omega

/-- After the rounds for all of the set there is one more. -/
theorem fisherYatesLoop_traps {i : UInt64} (hin : m.toNat < i.toNat + n) (hi : i ≤ m) :
    fisherYatesLoop rand m n i state = .error .divisionByZero := by
  induction n generalizing i state with
  | zero =>
    have := UInt64.le_iff_toNat_le.1 hi
    omega
  | succ n ih =>
    have hm : m.toNat < 2 ^ 64 := m.toNat_lt
    by_cases hlast : i = m
    · rw [fisherYatesLoop, hlast, fisherYatesRound_traps]
      rfl
    · have hlt : i < m := lt_of_le_of_ne hi hlast
      have hlt' : i.toNat < m.toNat := UInt64.lt_iff_toNat_lt.1 hlt
      have hnext : (i + 1).toNat = i.toNat + 1 := by
        rw [UInt64.toNat_add, UInt64.toNat_one]
        exact Nat.mod_eq_of_lt (by omega)
      obtain ⟨j, -, -, -, hround⟩ := fisherYatesRound_eq (rand i.toNat) hlt state
      rw [fisherYatesLoop, hround]
      exact ih (by omega) (UInt64.le_iff_toNat_le.2 (by omega))

/-- **A sample that is too large** is a division by zero, and no other is. -/
theorem fisherYates_traps_iff {k : UInt64} : fisherYates rand k m = .error .divisionByZero ↔ m < k := by
  constructor
  · intro h
    by_contra hle
    have hkm : k ≤ m := not_lt.1 hle
    obtain ⟨result, hok, -⟩ :=
      fisherYates_sample rand hkm (UInt64.le_iff_toNat_le.1 hkm) m.toNat_lt fun t _ => min_le_left _ _
    rw [h] at hok
    simp at hok
  · intro h
    have hmk : m.toNat < k.toNat := UInt64.lt_iff_toNat_lt.1 h
    have hloop : fisherYatesLoop rand m k.toNat 0 ∅ = .error .divisionByZero :=
      fisherYatesLoop_traps (by simpa using hmk) (UInt64.le_iff_toNat_le.2 (by simp))
    rw [fisherYates, hloop]
    rfl

/-! ## generate_random_dataset -/

theorem pairwise_lt_mergeSort {l : List UInt64} (h : l.Nodup) : l.mergeSort.Pairwise (· < ·) := by
  have hle : l.mergeSort.Pairwise fun a b => decide (a ≤ b) = true :=
    List.pairwise_mergeSort (fun a b c hab hbc => by simp only [decide_eq_true_eq] at *; exact le_trans hab hbc)
      (fun a b => by simpa using le_total a b) l
  have hne : l.mergeSort.Nodup := (List.mergeSort_perm l _).nodup_iff.2 h
  refine (hle.and hne).imp fun {a b} hab => ?_
  exact lt_of_le_of_ne (of_decide_eq_true hab.1) hab.2

/-- **What the generator chooses**: real ids in increasing order, as a `NodesSequence` needs
them, and increasing predicates between 1 and their number; all triples are planned. -/
structure RandomDatasetPlan.Sound (triplesNum resourcesNum : UInt64) (p : RandomDatasetPlan) : Prop where
  nodeIds_length : p.nodeIds.length = resourcesNum.toNat
  nodeIds_increasing : p.nodeIds.Pairwise (· < ·)
  nodeIds_range : ∀ v ∈ p.nodeIds, 1 ≤ v ∧ v ≤ (1 : UInt64) <<< 63
  predicateIds_pos : p.predicateIds ≠ []
  predicateIds_increasing : p.predicateIds.Pairwise (· < ·)
  predicateIds_range : ∀ v ∈ p.predicateIds, 1 ≤ v ∧ v ≤ resourcesNum
  triples : p.predicateIds.length * p.triplesPerPredicate.toNat + p.remaining.toNat = triplesNum.toNat

/-- A sorted sample. -/
theorem fisherYates_sorted (rand : ℕ → UInt64) {k m : UInt64} (hk : k ≤ m) :
    ∃ result, fisherYates rand k m = .ok result ∧ result.mergeSort.length = k.toNat ∧
      result.mergeSort.Pairwise (· < ·) ∧ ∀ v ∈ result.mergeSort, 1 ≤ v ∧ v ≤ m := by
  have hkm : k.toNat ≤ m.toNat := UInt64.le_iff_toNat_le.1 hk
  obtain ⟨result, h1, h2, h3, h4⟩ := fisherYates_sample rand hk hkm m.toNat_lt fun t _ => min_le_left _ _
  refine ⟨result, h1, by rw [List.length_mergeSort, h2], pairwise_lt_mergeSort h3, fun v hv => ?_⟩
  obtain ⟨h5, h6⟩ := h4 v (List.mem_mergeSort.1 hv)
  exact ⟨UInt64.le_iff_toNat_le.2 h5, UInt64.le_iff_toNat_le.2 h6⟩

/-- The number of predicates is no larger than that of the nodes. -/
theorem predicatesCount_le {size : UInt64} (h : size ≠ 0) :
    (if size > 10 then size / 10 else 1) ≤ size ∧ (if size > 10 then size / 10 else 1) ≠ 0 := by
  have hpos : size.toNat ≠ 0 := fun h0 => h (UInt64.toNat_inj.1 h0)
  have hten : (10 : UInt64).toNat = 10 := rfl
  split
  · rename_i hgt
    have hgt' : 10 < size.toNat := UInt64.lt_iff_toNat_lt.1 hgt
    have hdiv : (size / 10).toNat = size.toNat / 10 := by rw [UInt64.toNat_div, hten]
    constructor
    · rw [UInt64.le_iff_toNat_le, hdiv]
      omega
    · intro h0
      rw [h0, UInt64.toNat_zero] at hdiv
      omega
  · constructor
    · rw [UInt64.le_iff_toNat_le, UInt64.toNat_one]
      omega
    · decide

/-- **The plan of a dataset** with at least one node, and not more than there are real ids. -/
theorem planRandomDataset_sound (rand : ℕ → UInt64) (triplesNum : UInt64) {resourcesNum : UInt64} (h0 : resourcesNum ≠ 0)
    (h : resourcesNum ≤ (1 : UInt64) <<< 63) :
    ∃ p, planRandomDataset rand triplesNum resourcesNum = .ok p ∧ p.Sound triplesNum resourcesNum := by
  obtain ⟨chosen, h1, h2, h3, h4⟩ := fisherYates_sorted rand h
  have hsize : UInt64.ofNat chosen.mergeSort.length = resourcesNum := by rw [h2, UInt64.ofNat_toNat]
  obtain ⟨hcount, hne⟩ := predicatesCount_le h0
  set count := if resourcesNum > 10 then resourcesNum / 10 else 1 with hcountdef
  obtain ⟨selected, h5, h6, h7, h8⟩ := fisherYates_sorted (fun n => rand (resourcesNum.toNat + n)) hcount
  have hselected : UInt64.ofNat selected.mergeSort.length = count := by rw [h6, UInt64.ofNat_toNat]
  refine ⟨⟨chosen.mergeSort, selected.mergeSort, triplesNum / count, triplesNum % count⟩, ?_, h2, h3, h4, ?_, h7, h8, ?_⟩
  · have hquotient : quotient triplesNum count = .ok (triplesNum / count) := if_neg hne
    have hremainder : remainder triplesNum count = .ok (triplesNum % count) := if_neg hne
    have hbind : ∀ {α β : Type} (a : α) (f : α → Except Trap β), (Except.ok a >>= f) = f a := fun _ _ => rfl
    unfold planRandomDataset
    simp only [h1, hbind, hsize, ← hcountdef, h5, hselected, hquotient, hremainder]
    rfl
  · intro hnil
    have hlen : selected.mergeSort.length = 0 := List.length_eq_zero_iff.2 hnil
    exact hne (UInt64.toNat_inj.1 (h6.symm.trans hlen))
  · rw [h6, UInt64.toNat_div, UInt64.toNat_mod]
    exact Nat.div_add_mod _ _

/-- Without a node, or with more than there are real ids, the generator divides by zero. -/
theorem planRandomDataset_traps_iff (rand : ℕ → UInt64) (triplesNum resourcesNum : UInt64) :
    planRandomDataset rand triplesNum resourcesNum = .error .divisionByZero ↔
      resourcesNum = 0 ∨ (1 : UInt64) <<< 63 < resourcesNum := by
  constructor
  · intro h
    by_contra hnot
    rw [not_or, not_lt] at hnot
    obtain ⟨p, hp, -⟩ := planRandomDataset_sound rand triplesNum hnot.1 hnot.2
    rw [h] at hp
    simp at hp
  · rintro (rfl | h)
    · -- one predicate is to be chosen from no node
      have hselect : fisherYates (fun n => rand ((0 : UInt64).toNat + n)) 1 0 = .error .divisionByZero :=
        fisherYates_traps_iff.2 (by decide)
      have hchosen : fisherYates rand 0 ((1 : UInt64) <<< 63) = .ok [] := rfl
      have hbind : ∀ {α β : Type} (a : α) (f : α → Except Trap β), (Except.ok a >>= f) = f a := fun _ _ => rfl
      have hsize : UInt64.ofNat ([] : List UInt64).mergeSort.length = 0 := by simp
      unfold planRandomDataset
      simp only [hchosen, hbind, hsize]
      rw [if_neg (by decide), hselect]
      rfl
    · unfold planRandomDataset
      rw [fisherYates_traps_iff.2 h]
      rfl

/-- The nodes are the positions from 0 on, the predicates are chosen from 1 on: the last
number is no node. -/
theorem RandomDatasetPlan.Sound.getRealId_found_iff {triplesNum resourcesNum v : UInt64} {p : RandomDatasetPlan}
    (h : p.Sound triplesNum resourcesNum) (hv : v ∈ p.predicateIds) :
    ((NodesSequence.mk p.nodeIds).getRealId v).2 = none ↔ v ≠ resourcesNum := by
  have hle : v.toNat ≤ resourcesNum.toNat := UInt64.le_iff_toNat_le.1 (h.predicateIds_range v hv).2
  have hlen := h.nodeIds_length
  have hne : v ≠ resourcesNum ↔ v.toNat < resourcesNum.toNat := by
    rw [ne_eq, ← UInt64.toNat_inj]
    omega
  rw [hne]
  unfold NodesSequence.getRealId
  simp only
  by_cases hlt : v.toNat < resourcesNum.toNat
  · rw [List.getElem?_eq_getElem (by omega)]
    simp [hlt]
  · rw [List.getElem?_eq_none (by omega)]
    simp [hlt]

end K2Cache
