import Mathlib

/-!
# Binary search in a sorted list

The lower bound of a value in a sorted list: the first position whose element is not
below it, found by halving the range. In a strictly increasing list the lower bound of
an element is its position (`lowerBound_getElem?`).
-/

namespace Lib

/-- The halving loop: `below` says whether the element at a position is below the value. -/
def lowerBoundLoop (below : ℕ → Bool) (first len : ℕ) : ℕ :=
  if len = 0 then first
  else
    let half := len / 2
    if below (first + half) then lowerBoundLoop below (first + half + 1) (len - half - 1)
    else lowerBoundLoop below first half
termination_by len

/-- **The loop stops between what is below and what is not.** -/
theorem lowerBoundLoop_spec {below : ℕ → Bool} (hmono : ∀ i j, i ≤ j → below j = true → below i = true)
    (first len : ℕ) (hlow : ∀ i < first, below i = true) (hhigh : ∀ i, first + len ≤ i → below i = false) :
    ∀ i, below i = true ↔ i < lowerBoundLoop below first len := by
  induction len using Nat.strong_induction_on generalizing first with
  | h len ih =>
    unfold lowerBoundLoop
    split
    · rename_i hzero
      intro i
      constructor
      · intro hi
        by_contra hge
        rw [hhigh i (by omega)] at hi
        cases hi
      · exact hlow i
    · rename_i hlen
      simp only
      split
      · rename_i hmid
        refine ih _ (by omega) (first + len / 2 + 1) ?_ ?_
        · intro i hi
          exact hmono i _ (by omega) hmid
        · intro i hi
          exact hhigh i (by omega)
      · rename_i hmid
        refine ih _ (by omega) first hlow ?_
        intro i hi
        by_contra hbelow
        exact hmid (hmono _ i hi (by simpa using hbelow))

variable {α : Type*} [LinearOrder α]

/-- Whether the element at a position is below a value. -/
def belowAt (xs : List α) (a : α) (i : ℕ) : Bool :=
  match xs[i]? with
  | none => false
  | some x => decide (x < a)

/-- The lower bound of a value in a list. -/
def lowerBound (xs : List α) (a : α) : ℕ := lowerBoundLoop (belowAt xs a) 0 xs.length

theorem belowAt_eq_true {xs : List α} {a : α} {i : ℕ} : belowAt xs a i = true ↔ ∃ x, xs[i]? = some x ∧ x < a := by
  unfold belowAt
  cases xs[i]? <;> simp

theorem lowerBound_spec {xs : List α} (hs : xs.Pairwise (· < ·)) (a : α) (i : ℕ) :
    belowAt xs a i = true ↔ i < lowerBound xs a := by
  refine lowerBoundLoop_spec ?_ 0 xs.length (by simp) ?_ i
  · intro i j hij hj
    obtain ⟨y, hy, hya⟩ := belowAt_eq_true.1 hj
    obtain ⟨hlt, rfl⟩ := List.getElem?_eq_some_iff.1 hy
    refine belowAt_eq_true.2 ⟨xs[i], List.getElem?_eq_getElem (by omega), ?_⟩
    rcases Nat.eq_or_lt_of_le hij with rfl | hij
    · exact hya
    · exact lt_trans (List.pairwise_iff_getElem.1 hs i j (by omega) hlt hij) hya
  · intro i hi
    have hnone : xs[i]? = none := List.getElem?_eq_none (by omega)
    simp [belowAt, hnone]

/-- **In an increasing list the lower bound of an element is its position.** -/
theorem lowerBound_getElem? {xs : List α} (hs : xs.Pairwise (· < ·)) {a : α} {i : ℕ} (h : xs[i]? = some a) :
    lowerBound xs a = i := by
  have hi : ¬ i < lowerBound xs a := by
    rw [← lowerBound_spec hs, belowAt_eq_true]
    rintro ⟨x, hx, hlt⟩
    rw [h] at hx
    exact absurd hlt (by rw [Option.some.inj hx]; exact lt_irrefl _)
  have hlt : ∀ j < i, j < lowerBound xs a := by
    intro j hj
    obtain ⟨hlen, rfl⟩ := List.getElem?_eq_some_iff.1 h
    rw [← lowerBound_spec hs, belowAt_eq_true]
    exact ⟨xs[j], List.getElem?_eq_getElem (by omega), List.pairwise_iff_getElem.1 hs j i (by omega) hlen hj⟩
  by_contra hne
  have := hlt (lowerBound xs a) (by omega)
  omega

end Lib
