import K2Cache.Lib.OrdMap
import Mathlib

/-!
# Sparse permutations

A map stands for a function on its keys that is the identity where there is no entry.
Exchanging the values at two positions composes it with a transposition, so what starts as
the empty map stays a permutation; positions that were never exchanged keep their own
value, and the others are permuted among themselves (`Within`).
-/

namespace Lib.OrdMap

variable {K : Type*} [LinearOrder K]

/-- The value at a position; without an entry, the position. -/
def image (m : OrdMap K K) (k : K) : K := (m.find? k).getD k

/-- The values at two positions, which may be one, are exchanged. -/
def exchange (m : OrdMap K K) (i j : K) : OrdMap K K := (m.insert i (m.image j)).insert j (m.image i)

@[simp]
theorem image_empty (k : K) : (∅ : OrdMap K K).image k = k := rfl

theorem image_eq (m : OrdMap K K) {k v : K} (h : m.find? k = some v) : m.image k = v := by
  unfold image
  rw [h]
  rfl

theorem image_exchange (m : OrdMap K K) (i j : K) : (m.exchange i j).image = m.image ∘ Equiv.swap i j := by
  funext k
  unfold exchange
  by_cases hj : k = j
  · subst hj
    rw [image_eq _ (find?_insert_self _ _ _), Function.comp_apply, Equiv.swap_apply_right]
  · by_cases hi : k = i
    · subst hi
      rw [image_eq _ ((find?_insert_ne _ _ hj).trans (find?_insert_self _ _ _)), Function.comp_apply,
        Equiv.swap_apply_left]
    · rw [Function.comp_apply, Equiv.swap_apply_of_ne_of_ne hi hj]
      unfold image
      rw [find?_insert_ne _ _ hj, find?_insert_ne _ _ hi]

theorem isSome_exchange (m : OrdMap K K) (i j k : K) :
    ((m.exchange i j).find? k).isSome = true ↔ (k = i ∨ k = j) ∨ (m.find? k).isSome = true := by
  unfold exchange
  rw [find?_insert, find?_insert]
  split
  · simp [*]
  · split <;> simp [*]

/-- **A permutation of the positions in `S`**, the identity elsewhere. -/
structure Within (S : Set K) (m : OrdMap K K) : Prop where
  injective : Function.Injective m.image
  fixes : ∀ k ∉ S, m.image k = k

namespace Within

variable {S : Set K} {m : OrdMap K K}

theorem empty (S : Set K) : (∅ : OrdMap K K).Within S := ⟨fun _ _ h => h, fun _ _ => rfl⟩

theorem exchange (h : m.Within S) {i j : K} (hi : i ∈ S) (hj : j ∈ S) : (m.exchange i j).Within S := by
  constructor
  · rw [image_exchange]
    exact h.injective.comp (Equiv.swap i j).injective
  · intro k hk
    have hki : k ≠ i := fun he => hk (he ▸ hi)
    have hkj : k ≠ j := fun he => hk (he ▸ hj)
    rw [image_exchange, Function.comp_apply, Equiv.swap_apply_of_ne_of_ne hki hkj]
    exact h.fixes k hk

/-- A value from outside is at its own position. -/
theorem image_mem (h : m.Within S) {k : K} (hk : k ∈ S) : m.image k ∈ S := by
  by_contra hout
  have hfix : m.image (m.image k) = m.image k := h.fixes _ hout
  have hself : m.image k = k := h.injective hfix
  rw [hself] at hout
  exact hout hk

end Within

end Lib.OrdMap
