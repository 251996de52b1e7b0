import Mathlib

/-!
# Merging sorted runs

* `Comparator`: a strict weak order, as `std::sort` asks for; `Comparator.le` is the order it
  sorts by.
* `StdSort`, `PriorityQueue`: what is relied on of `std::sort` and `std::priority_queue`. The
  queue is said to give an element that no other one comes before, also for a comparison that
  is true of equal elements.
* `Merges`: a merge takes the head of one of the runs, one that no other head comes before. What
  it gives is a permutation of the runs (`Merges.perm`), sorted if they are (`Merges.sorted`).
-/

namespace Lib

/-- A strict weak order. -/
structure Comparator (α : Type) where
  lt : α → α → Bool
  asymm : ∀ {a b}, lt a b = true → lt b a = false
  cotrans : ∀ {a b} (c), lt a b = true → lt a c = true ∨ lt c b = true

namespace Comparator

variable {α : Type} (C : Comparator α)

/-- Not behind. -/
def le (a b : α) : Prop := C.lt b a = false

instance : DecidableRel C.le := fun a b => decEq (C.lt b a) false

variable {C} {a b c : α}

theorem le_refl (a : α) : C.le a a := by
  unfold le
  by_contra h
  have h1 : C.lt a a = true := by simpa using h
  rw [C.asymm h1] at h1
  cases h1

theorem le_total (a b : α) : C.le a b ∨ C.le b a := by
  unfold le
  by_cases h : C.lt b a = true
  · exact .inr (C.asymm h)
  · exact .inl (by simpa using h)

theorem le_trans (h1 : C.le a b) (h2 : C.le b c) : C.le a c := by
  unfold le at *
  by_contra h
  rcases C.cotrans b (by simpa using h : C.lt c a = true) with h3 | h3
  · rw [h2] at h3
    cases h3
  · rw [h1] at h3
    cases h3

end Comparator

/-- `std::sort`. -/
structure StdSort {α : Type} (C : Comparator α) where
  sort : List α → List α
  perm : ∀ l, (sort l).Perm l
  sorted : ∀ l, (sort l).Pairwise C.le

/-- A stable sort is one. -/
def StdSort.mergeSort {α : Type} (C : Comparator α) : StdSort C where
  sort l := l.mergeSort fun a b => !C.lt b a
  perm l := List.mergeSort_perm l _
  sorted l := by
    have h : (l.mergeSort fun a b => !C.lt b a).Pairwise fun a b => (!C.lt b a) = true := List.pairwise_mergeSort
      (fun a b c hab hbc => by
        have h : C.le a c := Comparator.le_trans (b := b) (by simpa [Comparator.le] using hab)
          (by simpa [Comparator.le] using hbc)
        simpa [Comparator.le] using h)
      (fun a b => by simpa [Comparator.le] using Comparator.le_total (C := C) a b) l
    exact h.imp fun hab => by simpa [Comparator.le] using hab

/-- `std::priority_queue` of elements that compare by `comp`. -/
structure PriorityQueue (α : Type) (comp : α → α → Bool) where
  Queue : Type
  items : Queue → List α
  empty : Queue
  push : Queue → α → Queue
  pop : Queue → Option (α × Queue)
  items_empty : items empty = []
  items_push : ∀ q a, (items (push q a)).Perm (a :: items q)
  pop_eq_none : ∀ q, pop q = none → items q = []
  pop_perm : ∀ {q a q'}, pop q = some (a, q') → (items q).Perm (a :: items q')
  top : ∀ {q a q'}, pop q = some (a, q') → ∀ b ∈ items q', comp a b = true → comp b a = true

/-! ## Merges -/

/-- `out` comes from the runs by always taking a head that no other head comes before. -/
inductive Merges {α : Type} (C : Comparator α) : Multiset (List α) → List α → Prop where
  | nil : Merges C 0 []
  | drop {runs : Multiset (List α)} {out : List α} (h : Merges C runs out) : Merges C ([] ::ₘ runs) out
  | pick {runs : Multiset (List α)} {out : List α} (a : α) (l : List α)
      (hmin : ∀ m ∈ runs, ∀ b ∈ m.head?, C.le a b) (h : Merges C (l ::ₘ runs) out) :
      Merges C ((a :: l) ::ₘ runs) (a :: out)

namespace Merges

variable {α : Type} {C : Comparator α} {runs : Multiset (List α)} {out : List α}

/-- Empty runs do not matter. -/
theorem add_replicate (h : Merges C runs out) (n : ℕ) : Merges C (runs + Multiset.replicate n []) out := by
  induction n with
  | zero => simpa using h
  | succ n ih =>
    rw [Multiset.replicate_succ, Multiset.add_cons]
    exact .drop ih

/-- **A merge keeps the elements.** -/
theorem perm (h : Merges C runs out) : (out : Multiset α) = runs.bind fun l => (l : Multiset α) := by
  induction h with
  | nil => rfl
  | drop _ ih => simpa using ih
  | pick a l _ _ ih =>
    rw [← Multiset.cons_coe, ih]
    simp [← Multiset.cons_coe]

/-- **A merge of sorted runs is sorted.** -/
theorem sorted (h : Merges C runs out) (hruns : ∀ l ∈ runs, l.Pairwise C.le) : out.Pairwise C.le := by
  induction h with
  | nil => exact .nil
  | drop _ ih => exact ih fun l hl => hruns l (Multiset.mem_cons_of_mem hl)
  | pick a l hmin h ih =>
    rename_i runs out
    have hal := List.pairwise_cons.1 (hruns (a :: l) (Multiset.mem_cons_self _ _))
    have hrest : ∀ m ∈ l ::ₘ runs, m.Pairwise C.le := by
      intro m hm
      rcases Multiset.mem_cons.1 hm with rfl | hm
      · exact hal.2
      · exact hruns m (Multiset.mem_cons_of_mem hm)
    refine List.pairwise_cons.2 ⟨fun b hb => ?_, ih hrest⟩
    -- what comes out later is in the rest of the run, or behind the head of another one
    have hb' : b ∈ (l ::ₘ runs).bind fun l => (l : Multiset α) := by
      rw [← h.perm]
      exact hb
    obtain ⟨m, hm, hbm⟩ := Multiset.mem_bind.1 hb'
    rcases Multiset.mem_cons.1 hm with rfl | hm
    · exact hal.1 b hbm
    · cases m with
      | nil => cases hbm
      | cons c m =>
        have hac : C.le a c := hmin _ hm c rfl
        have hcm := List.pairwise_cons.1 (hruns _ (Multiset.mem_cons_of_mem hm))
        rcases List.mem_cons.1 hbm with rfl | hbm
        · exact hac
        · exact Comparator.le_trans hac (hcm.1 b hbm)

end Merges

end Lib
