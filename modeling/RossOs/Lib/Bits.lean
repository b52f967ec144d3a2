import Mathlib.Data.Nat.Bitwise

/-!
# Masks, shifts and flags on natural numbers

Machine words are natural numbers here, and the source's masks and shifts are the bitwise
operations on them. These lemmas turn each into the arithmetic a proof works with: a mask of low
bits is a remainder, a mask of high bits rounds down, and setting flags below an alignment is an
addition.
-/

namespace Bits

/-- Keeping the low `k` bits is the remainder. -/
theorem and_low_mask (e k : ℕ) : e &&& (2 ^ k - 1) = e % 2 ^ k := Nat.and_two_pow_sub_one_eq_mod e k

/-- Keeping the bits from `k` on, of a word of `w` bits, rounds down to a multiple of `2 ^ k`. -/
theorem and_high_mask {e k w : ℕ} (hkw : k ≤ w) (he : e < 2 ^ w) :
    e &&& (2 ^ w - 2 ^ k) = e / 2 ^ k * 2 ^ k := by
  have hmask : 2 ^ w - 2 ^ k = (2 ^ (w - k) - 1) <<< k := by
    rw [Nat.shiftLeft_eq, Nat.sub_mul, ← Nat.pow_add, Nat.sub_add_cancel hkw, Nat.one_mul]
  have hdiv : e / 2 ^ k * 2 ^ k = (e >>> k) <<< k := by
    rw [Nat.shiftLeft_eq, Nat.shiftRight_eq_div_pow]
  rw [hmask, hdiv]
  refine Nat.eq_of_testBit_eq fun j => ?_
  simp only [Nat.testBit_and, Nat.testBit_shiftLeft, Nat.testBit_two_pow_sub_one,
    Nat.testBit_shiftRight]
  rcases Nat.lt_or_ge j k with hj | hj
  · simp [Nat.not_le.2 hj]
  · rw [Nat.add_sub_cancel' hj]
    rcases Nat.lt_or_ge j w with hw | hw
    · simp [hj, show j - k < w - k by omega]
    · have : e.testBit j = false :=
        Nat.testBit_lt_two_pow (Nat.lt_of_lt_of_le he (Nat.pow_le_pow_right (by decide) hw))
      simp [this]

/-- Setting bits below the alignment of a number adds them. -/
theorem or_eq_add {p f k : ℕ} (hp : 2 ^ k ∣ p) (hf : f < 2 ^ k) : p ||| f = p + f := by
  obtain ⟨q, rfl⟩ := hp
  exact (Nat.two_pow_add_eq_or_of_lt hf q).symm

/-- Testing one bit of a number. -/
theorem and_bit_eq_zero {e k : ℕ} : e &&& 2 ^ k = 0 ↔ e.testBit k = false := by
  rw [Nat.and_two_pow]
  cases e.testBit k <;> simp

end Bits
