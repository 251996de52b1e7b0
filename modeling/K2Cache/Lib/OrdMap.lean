import Mathlib

/-!
# Ordered maps

A finite map kept as a list of entries with strictly increasing keys: what an
ordered associative container stores, in the order its iterators visit. The
order is a field of the structure, so every map that can be built is sorted and
has no key twice.

* `find?_insert`, `find?_erase`: lookups after an update.
* `ext_find?`: a map is determined by its lookups.
* `ofList_entries`: inserting a map's entries one by one rebuilds the map.
-/

namespace Lib

/-- Machine words as keys, in their unsigned order. -/
instance instLinearOrderUInt64 : LinearOrder UInt64 where
  le_refl := UInt64.le_refl
  le_trans _ _ _ := UInt64.le_trans
  lt_iff_le_not_ge a b := by
    rw [UInt64.not_le]; exact ⟨fun h => ⟨UInt64.le_of_lt h, h⟩, fun h => h.2⟩
  le_antisymm _ _ := UInt64.le_antisymm
  le_total := UInt64.le_total
  toDecidableLE := inferInstance
  toDecidableEq := inferInstance
  toDecidableLT := inferInstance

instance instLawfulBEqUInt64 : LawfulBEq UInt64 := inferInstance

/-- Entries with strictly increasing keys. -/
structure OrdMap (K V : Type*) [LinearOrder K] where
  entries : List (K × V)
  sorted : entries.Pairwise (fun a b => a.1 < b.1)

namespace OrdMap

variable {K V W : Type*} [LinearOrder K]

instance [DecidableEq V] : DecidableEq (OrdMap K V) := fun a b =>
  decidable_of_iff (a.entries = b.entries) (by cases a; cases b; simp)

/-- The map without entries. -/
def empty : OrdMap K V := ⟨[], List.Pairwise.nil⟩

instance : EmptyCollection (OrdMap K V) := ⟨empty⟩
instance : Inhabited (OrdMap K V) := ⟨empty⟩

/-- Lookup in a list of entries. -/
def lookup (k : K) : List (K × V) → Option V
  | [] => none
  | (k', v) :: l => if k = k' then some v else lookup k l

/-- Insertion into a sorted list of entries; an existing key gets the new value. -/
def place (k : K) (v : V) : List (K × V) → List (K × V)
  | [] => [(k, v)]
  | (k', v') :: l =>
    if k < k' then (k, v) :: (k', v') :: l
    else if k = k' then (k, v) :: l
    else (k', v') :: place k v l

theorem key_of_mem_place {k : K} {v : V} {l : List (K × V)} {e : K × V} (h : e ∈ place k v l) :
    e = (k, v) ∨ e ∈ l := by
  induction l with
  | nil => simpa [place] using h
  | cons e' l ih =>
    obtain ⟨k', v'⟩ := e'
    simp only [place] at h
    split at h
    · simpa using h
    split at h
    · rcases List.mem_cons.1 h with h | h
      · exact Or.inl h
      · exact Or.inr (List.mem_cons_of_mem _ h)
    · rcases List.mem_cons.1 h with h | h
      · exact Or.inr (h ▸ List.mem_cons_self)
      · rcases ih h with h | h
        · exact Or.inl h
        · exact Or.inr (List.mem_cons_of_mem _ h)

theorem place_sorted (k : K) (v : V) {l : List (K × V)} (h : l.Pairwise (fun a b => a.1 < b.1)) :
    (place k v l).Pairwise (fun a b => a.1 < b.1) := by
  induction l with
  | nil => simp [place]
  | cons e l ih =>
    obtain ⟨k', v'⟩ := e
    obtain ⟨h1, h2⟩ := List.pairwise_cons.1 h
    simp only [place]
    split
    · rename_i hlt
      refine List.pairwise_cons.2 ⟨?_, h⟩
      intro e he
      rcases List.mem_cons.1 he with rfl | he
      · exact hlt
      · exact lt_trans hlt (h1 e he)
    split
    · rename_i heq
      subst heq
      exact List.pairwise_cons.2 ⟨h1, h2⟩
    · rename_i hlt hne
      refine List.pairwise_cons.2 ⟨?_, ih h2⟩
      intro e he
      rcases key_of_mem_place he with rfl | he
      · exact lt_of_le_of_ne (not_lt.1 hlt) (Ne.symm hne)
      · exact h1 e he

/-- The value stored under a key. -/
def find? (m : OrdMap K V) (k : K) : Option V := lookup k m.entries

/-- Whether a key is stored. -/
def contains (m : OrdMap K V) (k : K) : Bool := (m.find? k).isSome

/-- The keys, in increasing order. -/
def keys (m : OrdMap K V) : List K := m.entries.map Prod.fst

/-- The number of entries. -/
def size (m : OrdMap K V) : ℕ := m.entries.length

/-- Stores a value under a key, over what was there. -/
def insert (m : OrdMap K V) (k : K) (v : V) : OrdMap K V := ⟨place k v m.entries, place_sorted k v m.sorted⟩

/-- Removes a key. -/
def erase (m : OrdMap K V) (k : K) : OrdMap K V :=
  ⟨m.entries.filter (fun e => e.1 ≠ k), m.sorted.filter _⟩

/-- Inserts the entries of a list from left to right. -/
def insertAll (m : OrdMap K V) (l : List (K × V)) : OrdMap K V := l.foldl (fun m e => m.insert e.1 e.2) m

/-- The map of a list of entries; a later entry replaces an earlier one with its key. -/
def ofList (l : List (K × V)) : OrdMap K V := insertAll empty l

/-- The first entry whose key is not below `k`: `lower_bound`. -/
def lowerBound? (m : OrdMap K V) (k : K) : Option (K × V) := m.entries.find? fun e => ¬ e.1 < k

/-- The entry with the largest key. -/
def last? (m : OrdMap K V) : Option (K × V) := m.entries.getLast?

theorem lookup_place (k k' : K) (v : V) (l : List (K × V)) :
    lookup k' (place k v l) = if k' = k then some v else lookup k' l := by
  induction l with
  | nil => simp [place, lookup]
  | cons e l ih =>
    obtain ⟨k₁, v₁⟩ := e
    simp only [place]
    split
    · simp [lookup]
    split
    · rename_i heq
      subst heq
      simp only [lookup]
      split <;> rfl
    · rename_i hne
      simp only [lookup, ih]
      by_cases h1 : k' = k₁
      · have h2 : k' ≠ k := fun h => hne (h ▸ h1)
        rw [if_pos h1, if_neg h2, if_pos h1]
      · simp [h1]

theorem lookup_filter (k k' : K) (l : List (K × V)) :
    lookup k' (l.filter (fun e => e.1 ≠ k)) = if k' = k then none else lookup k' l := by
  induction l with
  | nil => simp [lookup]
  | cons e l ih =>
    obtain ⟨k₁, v₁⟩ := e
    by_cases h1 : k₁ = k
    · subst h1
      rw [List.filter_cons_of_neg (by simp), ih]
      by_cases h2 : k' = k₁ <;> simp [lookup, h2]
    · rw [List.filter_cons_of_pos (by simpa using h1)]
      simp only [lookup, ih]
      by_cases h2 : k' = k₁
      · simp [h2, h1]
      · simp [h2]

@[simp]
theorem find?_empty (k : K) : (∅ : OrdMap K V).find? k = none := rfl

theorem find?_insert (m : OrdMap K V) (k k' : K) (v : V) :
    (m.insert k v).find? k' = if k' = k then some v else m.find? k' := lookup_place k k' v m.entries

@[simp]
theorem find?_insert_self (m : OrdMap K V) (k : K) (v : V) : (m.insert k v).find? k = some v := by
  simp [find?_insert]

theorem find?_insert_ne (m : OrdMap K V) {k k' : K} (v : V) (h : k' ≠ k) :
    (m.insert k v).find? k' = m.find? k' := by
  simp [find?_insert, h]

theorem find?_erase (m : OrdMap K V) (k k' : K) :
    (m.erase k).find? k' = if k' = k then none else m.find? k' := lookup_filter k k' m.entries

theorem lookup_eq_some {l : List (K × V)} (h : l.Pairwise (fun a b => a.1 < b.1)) {k : K} {v : V} :
    lookup k l = some v ↔ (k, v) ∈ l := by
  induction l with
  | nil => simp [lookup]
  | cons e l ih =>
    obtain ⟨k', v'⟩ := e
    obtain ⟨h1, h2⟩ := List.pairwise_cons.1 h
    simp only [lookup]
    split
    · rename_i heq
      subst heq
      constructor
      · intro hv
        simp_all
      · intro hm
        rcases List.mem_cons.1 hm with hm | hm
        · simp_all
        · exact absurd (h1 _ hm) (lt_irrefl _)
    · rename_i hne
      rw [ih h2]
      constructor
      · exact List.mem_cons_of_mem _
      · intro hm
        rcases List.mem_cons.1 hm with hm | hm
        · simp_all
        · exact hm

/-- A lookup succeeds exactly on the entries. -/
theorem find?_eq_some (m : OrdMap K V) {k : K} {v : V} : m.find? k = some v ↔ (k, v) ∈ m.entries :=
  lookup_eq_some m.sorted

theorem contains_iff (m : OrdMap K V) {k : K} : m.contains k = true ↔ ∃ v, m.find? k = some v := by
  simp [contains, Option.isSome_iff_exists]

theorem contains_eq_false (m : OrdMap K V) {k : K} : m.contains k = false ↔ m.find? k = none := by
  simp [contains]

theorem mem_keys (m : OrdMap K V) {k : K} : k ∈ m.keys ↔ ∃ v, m.find? k = some v := by
  simp only [keys, List.mem_map, Prod.exists, exists_and_right, exists_eq_right, find?_eq_some]

theorem keys_sorted (m : OrdMap K V) : m.keys.Pairwise (· < ·) := by
  rw [keys, List.pairwise_map]
  exact m.sorted

theorem keys_nodup (m : OrdMap K V) : m.keys.Nodup := m.keys_sorted.imp (fun h => ne_of_lt h)

theorem entries_eq_of_mem_iff {l l' : List (K × V)} (h : l.Pairwise (fun a b => a.1 < b.1))
    (h' : l'.Pairwise (fun a b => a.1 < b.1)) (hm : ∀ e, e ∈ l ↔ e ∈ l') : l = l' := by
  have hn : l.Nodup := h.imp (fun hlt he => absurd (he ▸ hlt) (lt_irrefl _))
  have hn' : l'.Nodup := h'.imp (fun hlt he => absurd (he ▸ hlt) (lt_irrefl _))
  have hp : l.Perm l' := (List.perm_ext_iff_of_nodup hn hn').2 hm
  refine hp.eq_of_pairwise ?_ h h'
  intro a b _ _ hab hba
  exact absurd (lt_trans hab hba) (lt_irrefl _)

/-- **A map is determined by its lookups.** -/
theorem ext_find? {m m' : OrdMap K V} (h : ∀ k, m.find? k = m'.find? k) : m = m' := by
  have he : m.entries = m'.entries := by
    apply entries_eq_of_mem_iff m.sorted m'.sorted
    rintro ⟨k, v⟩
    rw [← find?_eq_some, ← find?_eq_some, h]
  cases m
  cases m'
  simpa using he

theorem find?_insertAll_of_not_mem (m : OrdMap K V) {l : List (K × V)} {k : K} (h : ∀ e ∈ l, e.1 ≠ k) :
    (m.insertAll l).find? k = m.find? k := by
  induction l generalizing m with
  | nil => rfl
  | cons e l ih =>
    show ((m.insert e.1 e.2).insertAll l).find? k = m.find? k
    rw [ih _ (fun e' he' => h e' (List.mem_cons_of_mem _ he')),
      find?_insert_ne _ _ (h e List.mem_cons_self).symm]

/-- An entry whose key comes with no other value is found, in whatever order they come. -/
theorem find?_insertAll_of_unique (m : OrdMap K V) {l : List (K × V)} {k : K} {v : V} (h : (k, v) ∈ l)
    (hu : ∀ v', (k, v') ∈ l → v' = v) : (m.insertAll l).find? k = some v := by
  induction l generalizing m with
  | nil => simp at h
  | cons e l ih =>
    rw [insertAll, List.foldl_cons]
    by_cases hl : (k, v) ∈ l
    · exact ih (m.insert e.1 e.2) hl fun v' hv' => hu v' (List.mem_cons_of_mem _ hv')
    · have he : e = (k, v) := ((List.mem_cons.1 h).resolve_right hl).symm
      have hnot : ∀ e' ∈ l, e'.1 ≠ k := by
        rintro ⟨k', v'⟩ he' rfl
        exact hl (hu v' (List.mem_cons_of_mem _ he') ▸ he')
      rw [he]
      exact (find?_insertAll_of_not_mem _ hnot).trans (by simp)

/-- What is found was inserted, or was there before. -/
theorem find?_insertAll_eq_some (m : OrdMap K V) {l : List (K × V)} {k : K} {v : V} (h : (m.insertAll l).find? k = some v) :
    m.find? k = some v ∨ (k, v) ∈ l := by
  induction l generalizing m with
  | nil => exact .inl h
  | cons e l ih =>
    rcases ih (m.insert e.1 e.2) h with h' | h'
    · rw [find?_insert] at h'
      split at h'
      · rename_i hk
        obtain rfl := Option.some.inj h'
        exact .inr (by rw [hk]; exact List.mem_cons_self)
      · exact .inl h'
    · exact .inr (List.mem_cons_of_mem _ h')

/-- Inserting sorted entries answers each of their keys with its value. -/
theorem find?_insertAll_of_mem (m : OrdMap K V) {l : List (K × V)} (hl : l.Pairwise (fun a b => a.1 < b.1))
    {k : K} {v : V} (h : (k, v) ∈ l) : (m.insertAll l).find? k = some v := by
  refine find?_insertAll_of_unique m h fun v' hv' => ?_
  have h1 := (lookup_eq_some hl).2 h
  have h2 := (lookup_eq_some hl).2 hv'
  exact Option.some.inj (h2.symm.trans h1)

/-- **Inserting a map's entries one by one rebuilds the map.** -/
theorem ofList_entries (m : OrdMap K V) : ofList m.entries = m := by
  apply ext_find?
  intro k
  cases hk : m.find? k with
  | some v => exact find?_insertAll_of_mem _ m.sorted ((m.find?_eq_some).1 hk)
  | none =>
    refine (find?_insertAll_of_not_mem _ ?_).trans rfl
    rintro ⟨k', v⟩ he rfl
    rw [(m.find?_eq_some).2 he] at hk
    simp at hk

/-- The entries with a given key. -/
theorem filter_entries (m : OrdMap K V) (k : K) :
    m.entries.filter (fun e => e.1 = k) = ((m.find? k).map fun v => (k, v)).toList := by
  obtain ⟨l, hl⟩ := m
  show l.filter _ = ((lookup k l).map fun v => (k, v)).toList
  induction l with
  | nil => rfl
  | cons e l ih =>
    obtain ⟨k', v⟩ := e
    obtain ⟨h1, h2⟩ := List.pairwise_cons.1 hl
    by_cases hk : k' = k
    · subst hk
      have hnil : l.filter (fun e => e.1 = k') = [] := by
        refine List.filter_eq_nil_iff.2 fun e he => ?_
        have hlt : k' < e.1 := h1 e he
        simp [ne_of_gt hlt]
      simp [lookup, hnil]
    · rw [List.filter_cons_of_neg (by simpa using hk), ih h2, lookup, if_neg (Ne.symm hk)]

theorem lowerBound?_eq_none (m : OrdMap K V) {k : K} :
    m.lowerBound? k = none ↔ ∀ k' v', m.find? k' = some v' → k' < k := by
  unfold lowerBound?
  rw [List.find?_eq_none]
  constructor
  · intro h k' v' hf
    simpa using h _ ((find?_eq_some m).1 hf)
  · rintro h ⟨k', v'⟩ he
    simpa using h k' v' ((find?_eq_some m).2 he)

/-- **The lower bound of a key** is the least key stored that is not below it. -/
theorem lowerBound?_spec (m : OrdMap K V) {k k' : K} {v : V} (h : m.lowerBound? k = some (k', v)) :
    m.find? k' = some v ∧ k ≤ k' ∧ ∀ k'' v'', m.find? k'' = some v'' → k ≤ k'' → k' ≤ k'' := by
  obtain ⟨hk, as, bs, he, has⟩ := List.find?_eq_some_iff_append.1 h
  have hs := m.sorted
  rw [he] at hs
  refine ⟨(find?_eq_some m).2 (by simp [he]), by simpa using hk, fun k'' v'' hf hle => ?_⟩
  have hm := (find?_eq_some m).1 hf
  rw [he] at hm
  rcases List.mem_append.1 hm with hm | hm
  · have hbelow : k'' < k := by simpa using has _ hm
    exact absurd hle (not_le.2 hbelow)
  rcases List.mem_cons.1 hm with hm | hm
  · exact (Prod.mk.inj hm).1.ge
  · exact ((List.pairwise_cons.1 (List.pairwise_append.1 hs).2.1).1 _ hm).le

theorem last?_eq_none (m : OrdMap K V) : m.last? = none ↔ m = ∅ := by
  cases m with
  | mk l h =>
    simp only [last?, List.getLast?_eq_none_iff]
    constructor
    · rintro rfl; rfl
    · intro he; exact congrArg OrdMap.entries he

/-- The last entry is one of the map and no key is above its key. -/
theorem last?_spec (m : OrdMap K V) {k : K} {v : V} (h : m.last? = some (k, v)) :
    m.find? k = some v ∧ ∀ k' v', m.find? k' = some v' → k' ≤ k := by
  obtain ⟨l, hs⟩ := m
  obtain ⟨l', rfl⟩ := List.getLast?_eq_some_iff.1 h
  refine ⟨(find?_eq_some _).2 (by simp), ?_⟩
  intro k' v' hf
  have hm := (find?_eq_some _).1 hf
  simp only [List.mem_append, List.mem_singleton, Prod.mk.injEq] at hm
  rcases hm with hm | ⟨rfl, -⟩
  · exact ((List.pairwise_append.1 hs).2.2 _ hm _ (List.mem_singleton_self _)).le
  · exact le_rfl

end OrdMap

end Lib
