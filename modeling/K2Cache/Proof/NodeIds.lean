import K2Cache.Spec.NodeIds

/-!
# Node ids are a bijection

`Maps m r i`: real id `r` has id `i`, by its position in the sequence or by the map. A
manager is `Valid` if the two parts do not overlap and every id is below the next one to
be given; then `Maps` is a partial bijection that `get_id` and `get_real_id` compute, and
`get_id_or_create` adds at most one pair to it (`getIdOrCreate_spec`).

`nodeIds_bijective`: so it stays, in one process. A new process knows only what the files
of the sequence and the map say, since the constructor empties the counter file before it
reads it: `idsSurvive_iff`.
-/

namespace K2Cache

open Lib FileRWHandler

/-! ## The sequence and the map -/

namespace NodesSequence

theorem getId_of_getElem? {s : NodesSequence} (hs : s.values.Pairwise (· < ·)) {k : ℕ} {r : UInt64}
    (h : s.values[k]? = some r) : s.getId r = UInt64.ofNat k := by
  have hk : lowerBound s.values r = k := lowerBound_getElem? hs h
  simp only [getId, hk, h]
  simp

theorem getId_of_not_mem {s : NodesSequence} {r : UInt64} (h : r ∉ s.values) : s.getId r = notFoundNodeid := by
  unfold getId
  cases hv : s.values[lowerBound s.values r]? with
  | none => simp only [hv]
  | some v =>
    have hne : v ≠ r := by
      rintro rfl
      exact h (List.mem_of_getElem? hv)
    simp only [hv, if_pos hne]

end NodesSequence

/-- The two maps of a `NodesMap` are inverse to each other. -/
def NodesMap.Inverse (m : NodesMap) : Prop := ∀ i r, m.revMap.find? i = some r ↔ m.imap.find? r = some i

theorem NodesMap.construct_inverse {imap : OrdMap UInt64 UInt64}
    (hinj : ∀ r r' i, imap.find? r = some i → imap.find? r' = some i → r = r') : (construct imap).Inverse := by
  have hrev : (construct imap).revMap = (∅ : OrdMap UInt64 UInt64).insertAll (imap.entries.map fun p => (p.2, p.1)) := by
    rw [construct, OrdMap.insertAll, List.foldl_map]
  intro i r
  show (construct imap).revMap.find? i = some r ↔ imap.find? r = some i
  rw [hrev]
  constructor
  · intro h
    by_contra hne
    -- an entry of the reverse map comes from one of the map
    by_cases hex : ∃ r', imap.find? r' = some i
    · obtain ⟨r', hr'⟩ := hex
      have hmem : (i, r') ∈ imap.entries.map fun p => (p.2, p.1) :=
        List.mem_map.2 ⟨(r', i), imap.find?_eq_some.1 hr', rfl⟩
      have hfind := OrdMap.find?_insertAll_of_unique ∅ hmem fun r'' hr'' => by
        obtain ⟨p, hp, heq⟩ := List.mem_map.1 hr''
        cases heq
        exact hinj _ _ _ (imap.find?_eq_some.2 hp) hr'
      rw [hfind] at h
      cases h
      exact hne hr'
    · have hnone := OrdMap.find?_insertAll_of_not_mem (∅ : OrdMap UInt64 UInt64)
        (l := imap.entries.map fun p => (p.2, p.1)) (k := i) fun e he hei => by
          obtain ⟨p, hp, rfl⟩ := List.mem_map.1 he
          exact hex ⟨p.1, by rw [← hei]; exact imap.find?_eq_some.2 hp⟩
      rw [hnone] at h
      cases h
  · intro h
    have hmem : (i, r) ∈ imap.entries.map fun p => (p.2, p.1) :=
      List.mem_map.2 ⟨(r, i), imap.find?_eq_some.1 h, rfl⟩
    refine OrdMap.find?_insertAll_of_unique ∅ hmem fun r' hr' => ?_
    obtain ⟨p, hp, heq⟩ := List.mem_map.1 hr'
    cases heq
    exact hinj _ _ _ (imap.find?_eq_some.2 hp) h

theorem NodesMap.Inverse.add {m : NodesMap} (h : m.Inverse) {r i : UInt64} (hr : m.imap.find? r = none)
    (hi : m.revMap.find? i = none) : (m.add r i).Inverse := by
  intro i' r'
  simp only [NodesMap.add, OrdMap.find?_insert]
  by_cases hi' : i' = i
  · subst hi'
    by_cases hr' : r' = r
    · simp [hr']
    · have hnot : m.imap.find? r' ≠ some i' := by
        intro hf
        rw [(h i' r').2 hf] at hi
        cases hi
      simp [hr', hnot, Ne.symm hr']
  · by_cases hr' : r' = r
    · subst hr'
      have hnot : m.revMap.find? i' ≠ some r' := by
        intro hf
        rw [(h i' r').1 hf] at hr
        cases hr
      simp [hi', hnot, Ne.symm hi']
    · simp [hi', hr', h i' r']

/-! ## Managers -/

namespace NodeIdsManager

/-- Real id `r` has id `i`. -/
def Maps (m : NodeIdsManager) (r i : UInt64) : Prop :=
  m.nodesSequence.values[i.toNat]? = some r ∨ m.nodesMap.imap.find? r = some i

/-- The next id to be given. -/
def next (m : NodeIdsManager) : ℕ := (m.lastAssignedId + 1).toNat

/-- **A manager whose ids do not overlap**, with room for `n` more. -/
structure Valid (m : NodeIdsManager) (n : ℕ) : Prop where
  increasing : m.nodesSequence.values.Pairwise (· < ·)
  inverse : m.nodesMap.Inverse
  above : ∀ r i, m.nodesMap.imap.find? r = some i → m.nodesSequence.values.length ≤ i.toNat
  outside : ∀ r i, m.nodesMap.imap.find? r = some i → r ∉ m.nodesSequence.values
  below : ∀ r i, m.nodesMap.imap.find? r = some i → i.toNat < m.next
  length_le : m.nodesSequence.values.length ≤ m.next
  room : m.next + n < 2 ^ 64

variable {m : NodeIdsManager} {n : ℕ} {r r' i i' : UInt64}

theorem Maps.lt_next (h : m.Valid n) (hm : m.Maps r i) : i.toNat < m.next := by
  rcases hm with hm | hm
  · obtain ⟨hlt, -⟩ := List.getElem?_eq_some_iff.1 hm
    exact lt_of_lt_of_le hlt h.length_le
  · exact h.below r i hm

theorem toNat_notFoundNodeid : notFoundNodeid.toNat = 2 ^ 64 - 1 := by decide

theorem Maps.found (h : m.Valid n) (hm : m.Maps r i) : i ≠ notFoundNodeid := by
  rintro rfl
  have h1 := hm.lt_next h
  have h2 := h.room
  rw [toNat_notFoundNodeid] at h1
  omega

/-- A real id has one id. -/
theorem Maps.unique (h : m.Valid n) (hm : m.Maps r i) (hm' : m.Maps r i') : i = i' := by
  rcases hm with hm | hm <;> rcases hm' with hm' | hm'
  · have hi := lowerBound_getElem? h.increasing hm
    have hi' := lowerBound_getElem? h.increasing hm'
    exact UInt64.toNat_inj.1 (hi.symm.trans hi')
  · exact absurd (List.mem_of_getElem? hm) (h.outside r i' hm')
  · exact absurd (List.mem_of_getElem? hm') (h.outside r i hm)
  · exact Option.some.inj (hm.symm.trans hm')

/-- An id belongs to one real id. -/
theorem Maps.inj (h : m.Valid n) (hm : m.Maps r i) (hm' : m.Maps r' i) : r = r' := by
  rcases hm with hm | hm <;> rcases hm' with hm' | hm'
  · exact Option.some.inj (hm.symm.trans hm')
  · have h1 := (List.getElem?_eq_some_iff.1 hm).1
    have h2 := h.above r' i hm'
    omega
  · have h1 := (List.getElem?_eq_some_iff.1 hm').1
    have h2 := h.above r i hm
    omega
  · have h1 := (h.inverse i r).2 hm
    have h2 := (h.inverse i r').2 hm'
    exact Option.some.inj (h1.symm.trans h2)

theorem Maps.getId (h : m.Valid n) (hm : m.Maps r i) : m.getId r = i := by
  have hfound := hm.found h
  unfold NodeIdsManager.getId
  rcases hm with hm | hm
  · have hseq := NodesSequence.getId_of_getElem? h.increasing hm
    rw [UInt64.ofNat_toNat] at hseq
    simp only [hseq, if_pos hfound]
  · have hseq := NodesSequence.getId_of_not_mem (h.outside r i hm)
    simp [hseq, NodesMap.getId, hm]

theorem Valid.length_lt (h : m.Valid n) : m.nodesSequence.values.length < 2 ^ 64 := by
  have h1 := h.length_le
  have h2 := h.room
  omega

/-- A real id has an id exactly if it is in the sequence or in the map. -/
theorem not_maps_iff (hlen : m.nodesSequence.values.length < 2 ^ 64) :
    (∀ i, ¬ m.Maps r i) ↔ r ∉ m.nodesSequence.values ∧ m.nodesMap.imap.find? r = none := by
  constructor
  · intro hm
    constructor
    · intro hr
      obtain ⟨k, hk, hkr⟩ := List.getElem_of_mem hr
      have hto : (UInt64.ofNat k).toNat = k := UInt64.toNat_ofNat_of_lt' (by rw [UInt64.size]; omega)
      exact hm (UInt64.ofNat k) (.inl (by rw [hto, List.getElem?_eq_getElem hk, hkr]))
    · cases hf : m.nodesMap.imap.find? r with
      | none => rfl
      | some i => exact absurd (.inr hf) (hm i)
  · rintro ⟨hmem, hmap⟩ i (hm | hm)
    · exact hmem (List.mem_of_getElem? hm)
    · rw [hmap] at hm
      cases hm

theorem getId_of_not_maps (hm : ∀ i, ¬ m.Maps r i) (hlen : m.nodesSequence.values.length < 2 ^ 64) :
    m.getId r = notFoundNodeid := by
  obtain ⟨hmem, hmap⟩ := (not_maps_iff hlen).1 hm
  have hseq := NodesSequence.getId_of_not_mem hmem
  simp [NodeIdsManager.getId, hseq, NodesMap.getId, hmap]

/-- **`get_id` finds a real id exactly if it has an id.** -/
theorem getId_found_iff (h : m.Valid n) : m.getId r ≠ notFoundNodeid ↔ m.Maps r (m.getId r) := by
  constructor
  · intro hne
    by_contra hnot
    refine hne (getId_of_not_maps (fun i hi => hnot ?_) h.length_lt)
    rw [hi.getId h]
    exact hi
  · exact fun hm => hm.found h

theorem Maps.getRealId (h : m.Valid n) (hm : m.Maps r i) :
    (m.getRealId i).1 = r ∧ (m.getRealId i).2 ≠ some .notFound := by
  unfold NodeIdsManager.getRealId NodesSequence.getRealId
  rcases hm with hm | hm
  · simp [hm]
  · have hnone : m.nodesSequence.values[i.toNat]? = none := List.getElem?_eq_none (h.above r i hm)
    have hrev := (h.inverse i r).2 hm
    simp [hnone, NodesMap.getRealId, hrev]

/-- What `get_real_id` finds without an error has that id. -/
theorem maps_getRealId (hinv : m.nodesMap.Inverse) (hok : (m.getRealId i).2 ≠ some .notFound) :
    m.Maps (m.getRealId i).1 i := by
  unfold NodeIdsManager.getRealId NodesSequence.getRealId at hok ⊢
  cases hseq : m.nodesSequence.values[i.toNat]? with
  | some v => exact .inl (by simp [hseq])
  | none =>
    simp only [hseq, NodesMap.getRealId] at hok ⊢
    cases hrev : m.nodesMap.revMap.find? i with
    | none => simp [hrev] at hok
    | some v => exact .inr (by simpa [hrev] using (hinv i v).1 hrev)

end NodeIdsManager

/-! ## One process -/

namespace NodeIdsEnv

open NodeIdsManager

variable {e : NodeIdsEnv} {n : ℕ} {r : UInt64}

theorem getIdOrCreate_old (h : e.manager.getId r ≠ notFoundNodeid) :
    e.getIdOrCreate r = (e.manager.getId r, e) := by
  simp only [getIdOrCreate, if_pos h]

/-- A real id without an id gets the next one. -/
theorem getIdOrCreate_new (h : e.manager.Valid (n + 1)) (hnew : e.manager.getId r = notFoundNodeid) :
    (e.getIdOrCreate r).2.manager.Valid n ∧ ∀ r' i, (e.getIdOrCreate r).2.manager.Maps r' i ↔
      e.manager.Maps r' i ∨ r' = r ∧ i = (e.getIdOrCreate r).1 := by
  obtain ⟨d, m⟩ := e
  have h : m.Valid (n + 1) := h
  have hnot : ∀ i, ¬ m.Maps r i := fun i hi => hi.found h ((hi.getId h).symm.trans hnew)
  obtain ⟨hmem, hnone⟩ := (not_maps_iff h.length_lt).1 hnot
  have hrev : m.nodesMap.revMap.find? (m.lastAssignedId + 1) = none := by
    cases hf : m.nodesMap.revMap.find? (m.lastAssignedId + 1) with
    | none => rfl
    | some r' =>
      have := h.below r' _ ((h.inverse _ _).1 hf)
      exact absurd this (lt_irrefl _)
  have hnext : (m.lastAssignedId + 1 + 1).toNat = m.next + 1 := by
    have hroom := h.room
    have hval : (m.lastAssignedId + 1).toNat = m.next := rfl
    rw [UInt64.toNat_add, hval]
    exact Nat.mod_eq_of_lt (by simp only [UInt64.toNat_one]; omega)
  have hadd : ∀ r' i, (m.nodesMap.add r (m.lastAssignedId + 1)).imap.find? r' = some i →
      m.nodesMap.imap.find? r' = some i ∨ r' = r ∧ i = m.lastAssignedId + 1 := by
    intro r' i hf
    rw [NodesMap.add, OrdMap.find?_insert] at hf
    split at hf
    · rename_i heq
      exact .inr ⟨heq, (Option.some.inj hf).symm⟩
    · exact .inl hf
  have hstep : (getIdOrCreate ⟨d, m⟩ r).1 = m.lastAssignedId + 1 ∧ (getIdOrCreate ⟨d, m⟩ r).2.manager =
      ⟨m.nodesSequence, m.nodesMap.add r (m.lastAssignedId + 1), m.lastAssignedId + 1, m.logsNumber + 1⟩ := by
    have hif : ¬ (m.getId r ≠ notFoundNodeid) := fun hne => hne hnew
    simp only [getIdOrCreate, if_neg hif, logNewKv, and_self]
  obtain ⟨hid, hman⟩ := hstep
  rw [hid, hman]
  constructor
  · refine ⟨h.increasing, h.inverse.add hnone hrev, ?_, ?_, ?_, ?_, ?_⟩
    · intro r' i hf
      rcases hadd r' i hf with hf | ⟨-, rfl⟩
      · exact h.above r' i hf
      · exact h.length_le
    · intro r' i hf
      rcases hadd r' i hf with hf | ⟨rfl, -⟩
      · exact h.outside r' i hf
      · exact hmem
    · intro r' i hf
      show i.toNat < (m.lastAssignedId + 1 + 1).toNat
      rw [hnext]
      rcases hadd r' i hf with hf | ⟨-, rfl⟩
      · exact Nat.lt_succ_of_lt (h.below r' i hf)
      · exact Nat.lt_succ_self _
    · show _ ≤ (m.lastAssignedId + 1 + 1).toNat
      rw [hnext]
      exact Nat.le_succ_of_le h.length_le
    · show (m.lastAssignedId + 1 + 1).toNat + n < 2 ^ 64
      have hroom := h.room
      rw [hnext]
      omega
  · intro r' i
    constructor
    · rintro (hf | hf)
      · exact .inl (.inl hf)
      · exact (hadd r' i hf).imp .inr id
    · rintro (hf | ⟨rfl, rfl⟩)
      · rcases hf with hf | hf
        · exact .inl hf
        · refine .inr ?_
          show (m.nodesMap.add r (m.lastAssignedId + 1)).imap.find? r' = some i
          have hne : r' ≠ r := by
            rintro rfl
            rw [hnone] at hf
            cases hf
          rw [NodesMap.add, OrdMap.find?_insert_ne _ _ hne, hf]
      · exact .inr (OrdMap.find?_insert_self ..)

/-- **`get_id_or_create` adds at most the pair it answers.** -/
theorem getIdOrCreate_spec (h : e.manager.Valid (n + 1)) :
    (e.getIdOrCreate r).2.manager.Valid n ∧ ∀ r' i, (e.getIdOrCreate r).2.manager.Maps r' i ↔
      e.manager.Maps r' i ∨ r' = r ∧ i = (e.getIdOrCreate r).1 := by
  by_cases hnew : e.manager.getId r = notFoundNodeid
  · exact getIdOrCreate_new h hnew
  · rw [getIdOrCreate_old hnew]
    have hroom := h.room
    have hless : e.manager.next + n < 2 ^ 64 := by omega
    refine ⟨⟨h.increasing, h.inverse, h.above, h.outside, h.below, h.length_le, hless⟩, ?_⟩
    intro r' i
    refine ⟨.inl, ?_⟩
    rintro (hm | ⟨rfl, rfl⟩)
    · exact hm
    · exact (getId_found_iff h).1 hnew

/-- What some calls answer. -/
def answers (e : NodeIdsEnv) : List UInt64 → List (UInt64 × UInt64)
  | [] => []
  | r :: rs => (r, (e.getIdOrCreate r).1) :: (e.getIdOrCreate r).2.answers rs

/-- **After some calls, the pairs are those from before and those that were answered.** -/
theorem createAll_spec (rs : List UInt64) (h : e.manager.Valid rs.length) :
    (e.createAll rs).manager.Valid 0 ∧ ∀ r i, (e.createAll rs).manager.Maps r i ↔
      e.manager.Maps r i ∨ (r, i) ∈ e.answers rs := by
  induction rs generalizing e with
  | nil => exact ⟨h, fun r i => by simp [createAll, answers]⟩
  | cons r₀ rs ih =>
    obtain ⟨h1, h2⟩ := getIdOrCreate_spec (r := r₀) h
    obtain ⟨h3, h4⟩ := ih h1
    refine ⟨h3, fun r i => ?_⟩
    have hcons : e.createAll (r₀ :: rs) = (e.getIdOrCreate r₀).2.createAll rs := rfl
    rw [hcons, h4, h2, answers, List.mem_cons, Prod.mk.injEq, or_assoc]

theorem answers_append (e : NodeIdsEnv) (rs rs' : List UInt64) :
    e.answers (rs ++ rs') = e.answers rs ++ (e.createAll rs).answers rs' := by
  induction rs generalizing e with
  | nil => rfl
  | cons r rs ih => simp only [List.cons_append, answers, ih, createAll, List.foldl_cons]

theorem answers_fst (e : NodeIdsEnv) (rs : List UInt64) : (e.answers rs).map Prod.fst = rs := by
  induction rs generalizing e with
  | nil => rfl
  | cons r rs ih => simp only [answers, List.map_cons, ih]

end NodeIdsEnv

/-! ## The files -/

theorem NodesSequence.fromInputStream_serialize {s : NodesSequence} (hlen : s.values.length < 2 ^ 64) {is : IStream}
    (h : is.Ahead s.serialize) : fromInputStream is = s := by
  unfold serialize at h
  have hn : (UInt64.ofNat s.values.length).toNat = s.values.length :=
    UInt64.toNat_ofNat_of_lt' (by rw [UInt64.size]; omega)
  have h1 := IStream.reads_readU64 _ is h.left
  have h2 := IStream.Reads.many (fun a _ => IStream.reads_readU64 a) _ h.right
  simp only [fromInputStream, h1, hn, h2]

theorem NodesMap.readPair_reads (p : UInt64 × UInt64) : IStream.Reads readPair (u64Bytes p.1 ++ u64Bytes p.2) p := by
  intro is h
  have h1 := IStream.reads_readU64 _ is h.left
  have h2 := IStream.reads_readU64 _ _ h.right
  simp only [readPair, h1, h2, IStream.skip_skip, List.length_append]

theorem NodesMap.fromInputStream_serialize {m : NodesMap} (hsize : m.imap.size < 2 ^ 64) {is : IStream}
    (h : is.Ahead m.serialize) : fromInputStream is = .ok (construct m.imap) := by
  unfold serialize at h
  have hn : (UInt64.ofNat m.imap.size).toNat = m.imap.entries.length :=
    UInt64.toNat_ofNat_of_lt' (by rw [UInt64.size]; omega)
  have h1 := IStream.reads_readU32 _ is h.left
  have h2 := IStream.reads_readU64 _ _ h.right.left
  have h3 := IStream.Reads.many (fun a _ => readPair_reads a) _ h.right.right
  simp only [fromInputStream, h1, h2, hn, h3, OrdMap.ofList_entries]
  rw [if_neg (by decide)]

/-! ## The constructor -/

/-- **What is loaded is apart**: the sequence increases, the map is injective, its ids are
not below the length of the sequence and its real ids are not in it. `n` more ids do not
reach the end of the 64-bit integers, where `NOT_FOUND_NODEID` is. -/
structure NodesLoaded (s : NodesSequence) (m : NodesMap) (n : ℕ) : Prop where
  increasing : s.values.Pairwise (· < ·)
  injective : ∀ r r' i, m.imap.find? r = some i → m.imap.find? r' = some i → r = r'
  above : ∀ r i, m.imap.find? r = some i → s.values.length ≤ i.toNat
  outside : ∀ r i, m.imap.find? r = some i → r ∉ s.values
  sequence_room : s.values.length + n < 2 ^ 64
  map_room : ∀ r i, m.imap.find? r = some i → i.toNat + n < 2 ^ 64 - 1

/-- The manager of a new process. -/
def loadedManager (s : NodesSequence) (m : NodesMap) : NodeIdsManager :=
  ⟨s, m, NodeIdsManager.findLastAssigned s m, 0⟩

theorem fromInputStream_construct {is : IStream} {m : NodesMap} (h : NodesMap.fromInputStream is = .ok m) :
    m = .construct m.imap := by
  simp only [NodesMap.fromInputStream] at h
  split at h
  · cases h
  · cases h
    rfl

theorem NodesLoaded.valid {s : NodesSequence} {m : NodesMap} {n : ℕ} (h : NodesLoaded s m n)
    (hm : m = .construct m.imap) : (loadedManager s m).Valid n := by
  have hinv : m.Inverse := by
    rw [hm]
    exact NodesMap.construct_inverse h.injective
  -- the next id is the one after the last of the map, or else after the sequence
  have hnext : (loadedManager s m).next + n < 2 ^ 64 ∧ s.values.length ≤ (loadedManager s m).next ∧
      ∀ r i, m.imap.find? r = some i → i.toNat < (loadedManager s m).next := by
    have hroom := h.sequence_room
    unfold NodeIdsManager.next loadedManager NodeIdsManager.findLastAssigned NodesMap.getLastAssigned
    cases hlast : m.revMap.last? with
    | none =>
      have hempty := m.revMap.last?_eq_none.1 hlast
      have hlen : (s.getLastAssigned + 1).toNat = s.values.length := by
        rw [NodesSequence.getLastAssigned, UInt64.sub_add_cancel]
        exact UInt64.toNat_ofNat_of_lt' (by rw [UInt64.size]; omega)
      simp only [if_true, hlen]
      refine ⟨hroom, le_rfl, fun r i hf => ?_⟩
      have hrev := (hinv i r).2 hf
      rw [hempty] at hrev
      cases hrev
    | some p =>
      obtain ⟨i₀, r₀⟩ := p
      obtain ⟨hf, hmax⟩ := m.revMap.last?_spec hlast
      have h1 := h.map_room r₀ i₀ ((hinv i₀ r₀).1 hf)
      have h2 := h.above r₀ i₀ ((hinv i₀ r₀).1 hf)
      have hne : i₀ ≠ notFoundNodeid := by
        rintro rfl
        rw [NodeIdsManager.toNat_notFoundNodeid] at h1
        omega
      have hsucc : (i₀ + 1).toNat = i₀.toNat + 1 := by
        rw [UInt64.toNat_add]
        exact Nat.mod_eq_of_lt (by simp only [UInt64.toNat_one]; omega)
      simp only [if_neg hne, hsucc]
      refine ⟨by omega, by omega, fun r i hi => ?_⟩
      have hle := UInt64.le_iff_toNat_le.1 (hmax i r ((hinv i r).2 hi))
      omega
  exact ⟨h.increasing, hinv, h.above, h.outside, hnext.2.2, hnext.2.1, hnext.1⟩

/-- An emptied file is read as zero. -/
theorem readU64_getWriter (d : Disk) (h : FileId) :
    (getReader (getWriter d h .binary) h).readU64.1 = 0 ∧ ((getReader (getWriter d h .binary) h).seekg 0).readU64.1 = 0 := by
  have hr : getReader (getWriter d h .binary) h = .ofBytes [] := by
    simp [getReader, getWriter, Disk.openOut, OpenMode.binary]
  rw [hr]
  decide

/-- **A new process knows what the two files say**, and nothing of the log. -/
theorem construct_spec {d : Disk} {m : NodesMap} (hm : NodesMap.fromInputStream (getReader d .mappedNodeIds) = .ok m) :
    ∃ e, NodeIdsEnv.construct d = .ok e ∧
      e.manager = loadedManager (.fromInputStream (getReader d .nodeIds)) m ∧
      e.disk (file .nodeIds) = d (file .nodeIds) ∧ e.disk (file .mappedNodeIds) = d (file .mappedNodeIds) := by
  have hcounter := readU64_getWriter (getWriter d .nodeIdsLogs .binaryApp) .nodeIdsLogsCounter
  refine ⟨⟨getWriter (getWriter d .nodeIdsLogs .binaryApp) .nodeIdsLogsCounter .binary, loadedManager _ m⟩, ?_, rfl, ?_, ?_⟩
  · simp only [NodeIdsEnv.construct, hm, NodesMap.restore, hcounter.1, hcounter.2]
    rfl
  · simp [getWriter, Disk.openOut, OpenMode.binary, OpenMode.binaryApp, file]
  · simp [getWriter, Disk.openOut, OpenMode.binary, OpenMode.binaryApp, file]

open NodeIdsManager NodeIdsEnv in
/-- **Node ids stay a bijection in one process.** -/
theorem nodeIds_bijective (d : Disk) (nodesMap : NodesMap) (calls : List UInt64)
    (hmap : NodesMap.fromInputStream (getReader d .mappedNodeIds) = .ok nodesMap)
    (h : NodesLoaded (.fromInputStream (getReader d .nodeIds)) nodesMap calls.length) :
    ∃ e, NodeIdsEnv.construct d = .ok e ∧
      let m := (e.createAll calls).manager
      -- ids are kept, the loaded ones and those that were given
      (∀ r, e.manager.getId r ≠ notFoundNodeid → m.getId r = e.manager.getId r) ∧
      (∀ pre r post, calls = pre ++ r :: post → m.getId r = ((e.createAll pre).getIdOrCreate r).1) ∧
      (∀ r r', m.getId r ≠ notFoundNodeid → m.getId r = m.getId r' → r = r') ∧
      (∀ r, m.getId r ≠ notFoundNodeid → (m.getRealId (m.getId r)).1 = r) ∧
      (∀ i, (m.getRealId i).2 ≠ some .notFound → m.getId (m.getRealId i).1 = i) ∧
      ∀ r, m.getId r = notFoundNodeid ↔
        r ∉ calls ∧ r ∉ (NodesSequence.fromInputStream (getReader d .nodeIds)).values ∧ nodesMap.imap.find? r = none := by
  obtain ⟨e, hcon, hman, -, -⟩ := construct_spec hmap
  have hvalid : e.manager.Valid calls.length := hman ▸ h.valid (fromInputStream_construct hmap)
  obtain ⟨hvalid', hmaps⟩ := createAll_spec calls hvalid
  refine ⟨e, hcon, ?_, ?_, ?_, ?_, ?_, ?_⟩
  · intro r hr
    exact ((hmaps r _).2 (.inl ((getId_found_iff hvalid).1 hr))).getId hvalid'
  · intro pre r post hcalls
    refine ((hmaps r _).2 (.inr ?_)).getId hvalid'
    rw [hcalls, answers_append]
    exact List.mem_append_right _ List.mem_cons_self
  · intro r r' hr heq
    have hm := (getId_found_iff hvalid').1 hr
    have hm' := (getId_found_iff hvalid').1 (heq ▸ hr)
    rw [← heq] at hm'
    exact hm.inj hvalid' hm'
  · intro r hr
    exact (((getId_found_iff hvalid').1 hr).getRealId hvalid').1
  · intro i hi
    exact (maps_getRealId hvalid'.inverse hi).getId hvalid'
  · intro r
    have hnone : (e.createAll calls).manager.getId r = notFoundNodeid ↔ ∀ i, ¬ (e.createAll calls).manager.Maps r i := by
      constructor
      · intro hr i hi
        exact hi.found hvalid' ((hi.getId hvalid').symm.trans hr)
      · intro hr
        exact getId_of_not_maps hr hvalid'.length_lt
    have hcalls : (∀ i, (r, i) ∉ e.answers calls) ↔ r ∉ calls := by
      nth_rewrite 2 [← answers_fst e calls]
      simp
    have hloaded := not_maps_iff (r := r) hvalid.length_lt
    rw [hman] at hloaded
    simp only [hnone, hmaps, not_or, forall_and, hcalls]
    rw [hman, hloaded, and_comm]
    rfl

/-- A disk with a sequence and a map, and no log. -/
def idsDisk (s : NodesSequence) (m : NodesMap) : Disk := fun p =>
  if p = file .nodeIds then some s.serialize else if p = file .mappedNodeIds then some m.serialize else none

/-- Two real ids in a sequence, and one in a map. -/
def fewNodes : NodesSequence × NodesMap := (⟨[5, 9]⟩, .construct (OrdMap.ofList [(20, 4)]))

theorem fewNodes_loaded :
    NodesMap.fromInputStream (getReader (idsDisk fewNodes.1 fewNodes.2) .mappedNodeIds) = .ok fewNodes.2 ∧
      NodesSequence.fromInputStream (getReader (idsDisk fewNodes.1 fewNodes.2) .nodeIds) = fewNodes.1 ∧
      ∀ n < 1000, NodesLoaded fewNodes.1 fewNodes.2 n := by
  have hfind : ∀ r i, fewNodes.2.imap.find? r = some i → r = 20 ∧ i = 4 := by
    intro r i h
    have hmem := fewNodes.2.imap.find?_eq_some.1 h
    have hentries : fewNodes.2.imap.entries = [(20, 4)] := by decide
    rw [hentries] at hmem
    simpa using hmem
  refine ⟨?_, ?_, fun n hn => ⟨by decide, ?_, ?_, ?_, ?_, ?_⟩⟩
  · have hreader : getReader (idsDisk fewNodes.1 fewNodes.2) .mappedNodeIds = .ofBytes fewNodes.2.serialize := rfl
    rw [hreader, NodesMap.fromInputStream_serialize (by decide) (IStream.ahead_self _)]
    rfl
  · exact NodesSequence.fromInputStream_serialize (by decide) (IStream.ahead_self _)
  · intro r r' i h h'
    rw [(hfind r i h).1, (hfind r' i h').1]
  · intro r i h
    rw [(hfind r i h).2]
    decide
  · intro r i h
    rw [(hfind r i h).1]
    decide
  · show 2 + n < 2 ^ 64
    omega
  · intro r i h
    rw [(hfind r i h).2]
    show 4 + n < 2 ^ 64 - 1
    omega

/-- After calls with `7` and `5`, real id `7` has an id and `30` has none. -/
theorem nodeIds_bijective_few : ∃ e, NodeIdsEnv.construct (idsDisk fewNodes.1 fewNodes.2) = .ok e ∧
    (e.createAll [7, 5, 7]).manager.getId 7 ≠ notFoundNodeid ∧
    (e.createAll [7, 5, 7]).manager.getId 30 = notFoundNodeid := by
  obtain ⟨hmap, hseq, hloaded⟩ := fewNodes_loaded
  obtain ⟨e, hcon, -, -, -, -, -, hfound⟩ := nodeIds_bijective (idsDisk fewNodes.1 fewNodes.2) fewNodes.2 [7, 5, 7] hmap
    (hseq.symm ▸ hloaded 3 (by decide))
  rw [hseq] at hfound
  exact ⟨e, hcon, fun h => ((hfound 7).1 h).1 (by decide), (hfound 30).2 ⟨by decide, by decide, by decide⟩⟩

/-! ## Several processes -/

/-- **The ids a run has given are still there** at its end: `get_id` and
`get_id_or_create` answer them, and `get_real_id` inverts them. -/
def IdsKept (e : NodeIdsEnv) (cmds : List NodeIdsCmd) : Prop :=
  ∃ e', nodeIdsMachine.run cmds e = some e' ∧ ∀ r i, (r, i) ∈ nodeIdsGiven e cmds →
    e'.manager.getId r = i ∧ (e'.getIdOrCreate r).1 = i ∧
      (e'.manager.getRealId i).1 = r ∧ (e'.manager.getRealId i).2 ≠ some .notFound

section Restarts

variable {d : Disk} {nodesMap : NodesMap} (hmap : NodesMap.fromInputStream (getReader d .mappedNodeIds) = .ok nodesMap)

/-- The files of the sequence and the map are those of `d`. -/
def SameNodeFiles (d : Disk) (e : NodeIdsEnv) : Prop :=
  e.disk (file .nodeIds) = d (file .nodeIds) ∧ e.disk (file .mappedNodeIds) = d (file .mappedNodeIds)

/-- Real ids with an id in the files. -/
def NodeLoaded (d : Disk) (nodesMap : NodesMap) (r : UInt64) : Prop :=
  r ∈ (NodesSequence.fromInputStream (getReader d .nodeIds)).values ∨ ∃ i, nodesMap.imap.find? r = some i

theorem SameNodeFiles.getIdOrCreate {e : NodeIdsEnv} (h : SameNodeFiles d e) (r : UInt64) :
    SameNodeFiles d (e.getIdOrCreate r).2 := by
  by_cases hnew : e.manager.getId r = notFoundNodeid
  · have hif : ¬ (e.manager.getId r ≠ notFoundNodeid) := fun hne => hne hnew
    simp only [SameNodeFiles, NodeIdsEnv.getIdOrCreate, if_neg hif, NodeIdsEnv.logNewKv]
    simpa [Disk.append, Disk.writeAt, file, SameNodeFiles] using h
  · rw [NodeIdsEnv.getIdOrCreate_old hnew]
    exact h

include hmap in
theorem SameNodeFiles.restart {e : NodeIdsEnv} (h : SameNodeFiles d e) :
    ∃ e', NodeIdsEnv.construct e.disk = .ok e' ∧
      e'.manager = loadedManager (.fromInputStream (getReader d .nodeIds)) nodesMap ∧ SameNodeFiles d e' := by
  have h1 : getReader e.disk .nodeIds = getReader d .nodeIds := by simp only [getReader, h.1]
  have h2 : getReader e.disk .mappedNodeIds = getReader d .mappedNodeIds := by simp only [getReader, h.2]
  obtain ⟨e', hcon, hman, hf1, hf2⟩ := construct_spec (h2 ▸ hmap)
  exact ⟨e', hcon, h1 ▸ hman, hf1.trans h.1, hf2.trans h.2⟩

include hmap in
/-- Runs do not fail, keep the two files, and answer every call. -/
theorem SameNodeFiles.run (cmds : List NodeIdsCmd) {e : NodeIdsEnv} (h : SameNodeFiles d e) :
    ∃ e', nodeIdsMachine.run cmds e = some e' ∧ SameNodeFiles d e' ∧
      ∀ r, .getIdOrCreate r ∈ cmds → ∃ i, (r, i) ∈ nodeIdsGiven e cmds := by
  induction cmds generalizing e with
  | nil => exact ⟨e, rfl, h, by simp⟩
  | cons cmd cmds ih =>
    cases cmd with
    | getIdOrCreate r₀ =>
      obtain ⟨e', h1, h2, h3⟩ := ih (h.getIdOrCreate r₀)
      refine ⟨e', h1, h2, fun r hr => ?_⟩
      rcases List.mem_cons.1 hr with heq | hr
      · cases heq
        exact ⟨_, List.mem_cons_self⟩
      · obtain ⟨i, hi⟩ := h3 r hr
        exact ⟨i, List.mem_cons_of_mem _ hi⟩
    | restart =>
      obtain ⟨e₁, hcon, -, hfiles⟩ := h.restart hmap
      obtain ⟨e', h1, h2, h3⟩ := ih hfiles
      have hstep : nodeIdsMachine.step e .restart = some e₁ := by simp [nodeIdsMachine, hcon, Except.toOption]
      refine ⟨e', by rw [Machine.run, hstep]; exact h1, h2, fun r hr => ?_⟩
      have hr' : .getIdOrCreate r ∈ cmds := by simpa using hr
      obtain ⟨i, hi⟩ := h3 r hr'
      exact ⟨i, by simpa only [nodeIdsGiven, hcon] using hi⟩

include hmap in
theorem nodeIdsGiven_append {cmds : List NodeIdsCmd} (cmds' : List NodeIdsCmd) {e e' : NodeIdsEnv}
    (h : SameNodeFiles d e) (hrun : nodeIdsMachine.run cmds e = some e') :
    nodeIdsGiven e (cmds ++ cmds') = nodeIdsGiven e cmds ++ nodeIdsGiven e' cmds' := by
  induction cmds generalizing e with
  | nil =>
    cases hrun
    rfl
  | cons cmd cmds ih =>
    cases cmd with
    | getIdOrCreate r =>
      have htail := ih (h.getIdOrCreate r) hrun
      simp only [List.cons_append, nodeIdsGiven, htail]
    | restart =>
      obtain ⟨e₁, hcon, -, hfiles⟩ := h.restart hmap
      have hstep : nodeIdsMachine.step e .restart = some e₁ := by simp [nodeIdsMachine, hcon, Except.toOption]
      rw [Machine.run, hstep] at hrun
      have htail := ih hfiles hrun
      simp only [List.cons_append, nodeIdsGiven, hcon, htail]

theorem run_calls (calls : List UInt64) (e : NodeIdsEnv) :
    nodeIdsMachine.run (calls.map .getIdOrCreate) e = some (e.createAll calls) ∧
      nodeIdsGiven e (calls.map .getIdOrCreate) = e.answers calls := by
  induction calls generalizing e with
  | nil => exact ⟨rfl, rfl⟩
  | cons r calls ih =>
    obtain ⟨h1, h2⟩ := ih (e.getIdOrCreate r).2
    refine ⟨h1, ?_⟩
    simp only [List.map_cons, nodeIdsGiven, NodeIdsEnv.answers, h2]

/-- The commands of the last process. -/
theorem exists_last_process (cmds : List NodeIdsCmd) : ∃ (warm : List NodeIdsCmd) (calls : List UInt64),
    cmds = warm ++ calls.map .getIdOrCreate ∧
    (warm = [] ∨ ∃ w, warm = w ++ [.restart]) := by
  induction cmds using List.reverseRecOn with
  | nil => exact ⟨[], [], rfl, .inl rfl⟩
  | append_singleton cmds cmd ih =>
    cases cmd with
    | restart => exact ⟨cmds ++ [.restart], [], by simp, .inr ⟨cmds, rfl⟩⟩
    | getIdOrCreate r =>
      obtain ⟨warm, calls, h1, h2⟩ := ih
      exact ⟨warm, calls ++ [r], by simp [h1], h2⟩

open NodeIdsManager in
include hmap in
/-- While only loaded real ids are asked for, the managers know what the files say. -/
theorem run_loaded {n : ℕ} (h : NodesLoaded (.fromInputStream (getReader d .nodeIds)) nodesMap n)
    {cmds : List NodeIdsCmd} (hcmds : ∀ r, .getIdOrCreate r ∈ cmds → NodeLoaded d nodesMap r) {e : NodeIdsEnv}
    (hfiles : SameNodeFiles d e) (hman : e.manager = loadedManager (.fromInputStream (getReader d .nodeIds)) nodesMap) :
    ∃ e', nodeIdsMachine.run cmds e = some e' ∧ SameNodeFiles d e' ∧
      e'.manager = loadedManager (.fromInputStream (getReader d .nodeIds)) nodesMap ∧
      ∀ r i, (r, i) ∈ nodeIdsGiven e cmds → e'.manager.Maps r i := by
  induction cmds generalizing e with
  | nil => exact ⟨e, rfl, hfiles, hman, by simp [nodeIdsGiven]⟩
  | cons cmd cmds ih =>
    have hcmds' : ∀ r, .getIdOrCreate r ∈ cmds → NodeLoaded d nodesMap r :=
      fun r hr => hcmds r (List.mem_cons_of_mem _ hr)
    cases cmd with
    | getIdOrCreate r₀ =>
      have hvalid : e.manager.Valid n := hman ▸ h.valid (fromInputStream_construct hmap)
      have hfound : e.manager.getId r₀ ≠ notFoundNodeid := by
        intro hnone
        have hnot : ∀ i, ¬ e.manager.Maps r₀ i := fun i hi => hi.found hvalid ((hi.getId hvalid).symm.trans hnone)
        obtain ⟨hseq, hfind⟩ := (not_maps_iff hvalid.length_lt).1 hnot
        rw [hman] at hseq hfind
        rcases hcmds r₀ List.mem_cons_self with hr | ⟨i, hi⟩
        · exact hseq hr
        · rw [show nodesMap.imap.find? r₀ = none from hfind] at hi
          cases hi
      have hold := NodeIdsEnv.getIdOrCreate_old hfound
      obtain ⟨e', h1, h2, h3, h4⟩ := ih hcmds' hfiles hman
      refine ⟨e', ?_, h2, h3, fun r i hri => ?_⟩
      · simp only [Machine.run, nodeIdsMachine, hold, Option.bind_some]
        exact h1
      · simp only [nodeIdsGiven, hold, List.mem_cons, Prod.mk.injEq] at hri
        rcases hri with ⟨rfl, rfl⟩ | hri
        · rw [h3, ← hman]
          exact (getId_found_iff hvalid).1 hfound
        · exact h4 r i hri
    | restart =>
      obtain ⟨e₁, hcon, hman₁, hfiles₁⟩ := hfiles.restart hmap
      obtain ⟨e', h1, h2, h3, h4⟩ := ih hcmds' hfiles₁ hman₁
      have hstep : nodeIdsMachine.step e .restart = some e₁ := by simp [nodeIdsMachine, hcon, Except.toOption]
      refine ⟨e', by rw [Machine.run, hstep]; exact h1, h2, h3, fun r i hri => ?_⟩
      simp only [nodeIdsGiven, hcon] at hri
      exact h4 r i hri

open NodeIdsManager in
include hmap in
/-- What was asked for before a restart and is not in the files is lost. -/
theorem not_idsKept_restart {e : NodeIdsEnv} (hfiles : SameNodeFiles d e)
    (hinj : ∀ r r' i, nodesMap.imap.find? r = some i → nodesMap.imap.find? r' = some i → r = r')
    {pre : List NodeIdsCmd} {r : UInt64} (hr : NodeIdsCmd.getIdOrCreate r ∈ pre) (hnot : ¬ NodeLoaded d nodesMap r) :
    ¬ IdsKept e (pre ++ [.restart]) := by
  rintro ⟨e', hrun, hkept⟩
  obtain ⟨e₁, hpre, hfiles₁, hgiven⟩ := hfiles.run hmap pre
  obtain ⟨e₂, hcon, hman, -⟩ := hfiles₁.restart hmap
  have hlast : nodeIdsMachine.run [.restart] e₁ = some e₂ := by
    simp [Machine.run, nodeIdsMachine, hcon, Except.toOption]
  rw [Machine.run_append, hpre, Option.bind_some, hlast] at hrun
  cases hrun
  obtain ⟨i, hi⟩ := hgiven r hr
  obtain ⟨-, -, hreal, hok⟩ := hkept r i (by
    rw [nodeIdsGiven_append hmap _ hfiles hpre]
    exact List.mem_append_left _ hi)
  have hinv : e'.manager.nodesMap.Inverse := by
    rw [hman, loadedManager]
    show nodesMap.Inverse
    rw [fromInputStream_construct hmap]
    exact NodesMap.construct_inverse hinj
  have hmaps := maps_getRealId hinv hok
  rw [hreal, hman] at hmaps
  rcases hmaps with hmem | hfind
  · exact hnot (.inl (List.mem_of_getElem? hmem))
  · exact hnot (.inr ⟨i, hfind⟩)

open NodeIdsManager in
include hmap in
/-- A run that asks only for loaded real ids before a restart keeps its ids. -/
theorem idsKept_of_loaded {cmds : List NodeIdsCmd}
    (h : NodesLoaded (.fromInputStream (getReader d .nodeIds)) nodesMap cmds.length) {e : NodeIdsEnv}
    (hfiles : SameNodeFiles d e) (hman : e.manager = loadedManager (.fromInputStream (getReader d .nodeIds)) nodesMap)
    (hcond : ∀ pre post r, cmds = pre ++ .restart :: post → .getIdOrCreate r ∈ pre → NodeLoaded d nodesMap r) :
    IdsKept e cmds := by
  obtain ⟨warm, calls, hsplit, hwarm⟩ := exists_last_process cmds
  have hloaded : ∀ r, .getIdOrCreate r ∈ warm → NodeLoaded d nodesMap r := by
    intro r hr
    rcases hwarm with rfl | ⟨w, rfl⟩
    · simp at hr
    · refine hcond w (calls.map .getIdOrCreate) r (by simp [hsplit]) ?_
      simpa using hr
  obtain ⟨e₁, hrun₁, -, hman₁, hgiven₁⟩ := run_loaded hmap h hloaded hfiles hman
  obtain ⟨hcalls, hanswers⟩ := run_calls calls e₁
  have hlen : calls.length ≤ cmds.length := by
    rw [hsplit, List.length_append, List.length_map]
    omega
  have hvalid₁ : e₁.manager.Valid calls.length := by
    rw [hman₁]
    have hv := h.valid (fromInputStream_construct hmap)
    have hroom := hv.room
    exact ⟨hv.increasing, hv.inverse, hv.above, hv.outside, hv.below, hv.length_le, by omega⟩
  obtain ⟨hvalid', hmaps⟩ := NodeIdsEnv.createAll_spec calls hvalid₁
  refine ⟨e₁.createAll calls, ?_, fun r i hri => ?_⟩
  · rw [hsplit, Machine.run_append, hrun₁]
    exact hcalls
  · have hm : (e₁.createAll calls).manager.Maps r i := by
      rw [hsplit, nodeIdsGiven_append hmap _ hfiles hrun₁, hanswers] at hri
      refine (hmaps r i).2 ?_
      rcases List.mem_append.1 hri with hri | hri
      · exact .inl (hgiven₁ r i hri)
      · exact .inr hri
    have hid := hm.getId hvalid'
    have hfound := hm.found hvalid'
    rw [← hid] at hfound
    refine ⟨hid, ?_, hm.getRealId hvalid'⟩
    rw [NodeIdsEnv.getIdOrCreate_old hfound]
    exact hid

include hmap in
/-- **Ids survive exactly the restarts before which no id was created.** -/
theorem idsSurvive_iff (cmds : List NodeIdsCmd)
    (h : NodesLoaded (.fromInputStream (getReader d .nodeIds)) nodesMap cmds.length) (e : NodeIdsEnv)
    (hcon : NodeIdsEnv.construct d = .ok e) :
    (∀ reached rest, cmds = reached ++ rest → IdsKept e reached) ↔
      ∀ pre post r, cmds = pre ++ .restart :: post → .getIdOrCreate r ∈ pre → NodeLoaded d nodesMap r := by
  obtain ⟨e', hcon', hman, hfiles⟩ := construct_spec hmap
  rw [hcon] at hcon'
  cases hcon'
  constructor
  · intro hkept pre post r hsplit hr
    by_contra hnot
    refine not_idsKept_restart hmap hfiles h.injective hr hnot (hkept (pre ++ [.restart]) post ?_)
    rw [hsplit, List.append_assoc]
    rfl
  · rintro hcond reached rest rfl
    have hlen : reached.length ≤ (reached ++ rest).length := by simp
    have h' : NodesLoaded (.fromInputStream (getReader d .nodeIds)) nodesMap reached.length := by
      have hseq := h.sequence_room
      refine ⟨h.increasing, h.injective, h.above, h.outside, by omega, fun r i hi => ?_⟩
      have hroom := h.map_room r i hi
      omega
    refine idsKept_of_loaded hmap h' hfiles hman fun pre post r hsplit hr => hcond pre (post ++ rest) r ?_ hr
    rw [hsplit, List.append_assoc]
    rfl

/-- Real id `5` is in the sequence: it may be asked for before a restart. -/
theorem idsSurvive_iff_few : ∃ e, NodeIdsEnv.construct (idsDisk fewNodes.1 fewNodes.2) = .ok e ∧
    IdsKept e [.getIdOrCreate 5, .restart, .getIdOrCreate 7] := by
  obtain ⟨hmap, hseq, hloaded⟩ := fewNodes_loaded
  obtain ⟨e, hcon, -, -⟩ := construct_spec hmap
  refine ⟨e, hcon, (idsSurvive_iff hmap [.getIdOrCreate 5, .restart, .getIdOrCreate 7]
    (hseq.symm ▸ hloaded 3 (by decide)) e hcon).2 ?_ _ [] (List.append_nil _).symm⟩
  intro pre post r hsplit hr
  have hr5 : r = 5 := by
    rcases pre with _ | ⟨a, _ | ⟨b, pre⟩⟩
    · simp at hr
    · simp only [List.cons_append, List.nil_append, List.cons.injEq] at hsplit
      rw [← hsplit.1] at hr
      simpa using hr
    · simp only [List.cons_append, List.cons.injEq] at hsplit
      obtain ⟨-, -, hsplit⟩ := hsplit
      rcases pre with _ | ⟨c, pre⟩ <;> simp at hsplit
  rw [hr5]
  exact .inl (by rw [hseq]; decide)

/-- Real id `7` is given an id, and a restart later it has none. -/
theorem idsKept_fails : ∃ e, NodeIdsEnv.construct (idsDisk fewNodes.1 fewNodes.2) = .ok e ∧
    ¬ IdsKept e [.getIdOrCreate 7, .restart] := by
  obtain ⟨hmap, hseq, hloaded⟩ := fewNodes_loaded
  obtain ⟨e, hcon, -, hfiles⟩ := construct_spec hmap
  refine ⟨e, hcon, not_idsKept_restart hmap hfiles (hloaded 0 (by decide)).injective
    (List.mem_singleton_self (NodeIdsCmd.getIdOrCreate 7)) ?_⟩
  rintro (hmem | ⟨i, hi⟩)
  · rw [hseq] at hmem
    revert hmem
    decide
  · have hnone : fewNodes.2.imap.find? 7 = none := by decide
    rw [hnone] at hi
    cases hi

end Restarts

end K2Cache
