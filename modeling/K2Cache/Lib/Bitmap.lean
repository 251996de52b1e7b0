import Mathlib

/-!
# Bitmaps in 32-bit words

A bitmap kept in a list of 32-bit words, the first bit of each word the most
significant one. `bit_setBit`: setting a bit changes that bit only.
-/

namespace Lib.Bitmap

/-- The word with one bit set, counted from the least significant. -/
def mask (k : ℕ) : UInt32 := 1 <<< UInt32.ofNat k

/-- Whether a word has a bit. -/
def hasBit (w : UInt32) (k : ℕ) : Bool := w &&& mask k ≠ 0

/-- The bit at a position. -/
def bit (data : List UInt32) (p : ℕ) : Bool := hasBit (data.getD (p / 32) 0) (31 - p % 32)

/-- Sets the bit at a position. -/
def setBit (data : List UInt32) (p : ℕ) : List UInt32 := data.modify (p / 32) (· ||| mask (31 - p % 32))

theorem mask_toNat {k : ℕ} (hk : k < 32) : (mask k).toNat = 2 ^ k := by
  have hk' : (UInt32.ofNat k).toNat = k := UInt32.toNat_ofNat_of_lt' (by rw [UInt32.size]; omega)
  have hpow : 2 ^ k < 2 ^ 32 := Nat.pow_lt_pow_right (by decide) hk
  rw [mask, UInt32.toNat_shiftLeft, hk', Nat.mod_eq_of_lt hk, UInt32.toNat_one, Nat.shiftLeft_eq, one_mul,
    Nat.mod_eq_of_lt hpow]

theorem hasBit_eq (w : UInt32) {k : ℕ} (hk : k < 32) : hasBit w k = w.toNat.testBit k := by
  have h : w &&& mask k ≠ 0 ↔ w.toNat &&& 2 ^ k ≠ 0 := by
    rw [← mask_toNat hk, ← UInt32.toNat_and, ← UInt32.toNat_zero, Ne, Ne, UInt32.toNat_inj]
  rw [Nat.and_two_pow] at h
  rw [Bool.eq_iff_iff, hasBit, decide_eq_true_eq, h]
  cases w.toNat.testBit k <;> simp

theorem hasBit_or (w : UInt32) {j k : ℕ} (hj : j < 32) (hk : k < 32) :
    hasBit (w ||| mask j) k = (decide (k = j) || hasBit w k) := by
  rw [hasBit_eq _ hk, hasBit_eq _ hk, UInt32.toNat_or, Nat.testBit_or, mask_toNat hj, Nat.testBit_two_pow, Bool.or_comm]
  congr 1
  exact decide_eq_decide.2 eq_comm

@[simp] theorem setBit_length (data : List UInt32) (p : ℕ) : (setBit data p).length = data.length := by
  simp [setBit]

/-- **Setting a bit changes that bit only.** -/
theorem bit_setBit {data : List UInt32} {p : ℕ} (hp : p < 32 * data.length) (q : ℕ) :
    bit (setBit data p) q = (decide (q = p) || bit data q) := by
  unfold bit setBit
  rw [List.getD_eq_getElem?_getD, List.getD_eq_getElem?_getD, List.getElem?_modify]
  by_cases hw : p / 32 = q / 32
  · have hlt : q / 32 < data.length := by omega
    rw [List.getElem?_eq_getElem hlt, Option.map_eq_map, Option.map_some, Option.getD_some, Option.getD_some,
      if_pos hw, hasBit_or _ (by omega) (by omega)]
    congr 1
    exact decide_eq_decide.2 (by omega)
  · have hne : q ≠ p := by
      rintro rfl
      exact hw rfl
    simp [hw, hne]

theorem bit_zero (n p : ℕ) : bit (List.replicate n 0) p = false := by
  have h : (List.replicate n (0 : UInt32)).getD (p / 32) 0 = 0 := by
    rw [List.getD_eq_getElem?_getD]
    by_cases hp : p / 32 < n
    · simp [hp]
    · simp [hp]
  rw [bit, h, hasBit]
  simp

end Lib.Bitmap
