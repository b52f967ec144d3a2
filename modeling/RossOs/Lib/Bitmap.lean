import Mathlib.Data.UInt
import Mathlib.Data.Nat.Bitwise
import Mathlib.Data.Finset.Card
import Mathlib.Logic.Function.Basic

/-!
# Bitmaps over byte arrays

A byte array read as an array of bits: bit `i` is bit `i % 8` of byte `i / 8`. The three
operations are the ones a byte-wise allocator performs (test against a mask, set with `|`,
clear with `& !`), and the two laws `getBit_setBit` and `getBit_clearBit` are all a client
needs: it never looks at a byte again.
-/

namespace Bitmap

/-- A byte array, indexed from `0`. -/
abbrev Bytes := ℕ → UInt8

/-- The mask that selects bit `k` of a byte. -/
def mask (k : ℕ) : UInt8 := 1 <<< UInt8.ofNat k

/-- Bit `i` of the array is set. -/
def getBit (bm : Bytes) (i : ℕ) : Bool := bm (i / 8) &&& mask (i % 8) != 0

/-- Set bit `i` of the array. -/
def setBit (bm : Bytes) (i : ℕ) : Bytes :=
  Function.update bm (i / 8) (bm (i / 8) ||| mask (i % 8))

/-- Clear bit `i` of the array. -/
def clearBit (bm : Bytes) (i : ℕ) : Bytes :=
  Function.update bm (i / 8) (bm (i / 8) &&& ~~~mask (i % 8))

/-! ## Bits of one byte -/

/-- The mask of a bit position inside a byte is the power of two. -/
theorem toNat_mask {k : ℕ} (hk : k < 8) : (mask k).toNat = 2 ^ k := by
  have hlt : 2 ^ k < 256 := Nat.pow_lt_pow_right (by decide) hk
  have hmod : k % 256 % 8 = k := by omega
  rw [mask, UInt8.toNat_shiftLeft, UInt8.toNat_ofNat']
  simp only [hmod, Nat.shiftLeft_eq, UInt8.toNat_one, Nat.one_mul]
  exact Nat.mod_eq_of_lt hlt

/-- Testing a byte against a mask tests that bit. -/
theorem and_mask_ne_zero (b : UInt8) {k : ℕ} (hk : k < 8) :
    (b &&& mask k != 0) = b.toNat.testBit k := by
  have hz : b &&& mask k = 0 ↔ b.toNat &&& 2 ^ k = 0 := by
    rw [← UInt8.toNat_inj, UInt8.toNat_and, toNat_mask hk]; rfl
  have hpos : 0 < 2 ^ k := Nat.two_pow_pos k
  cases hb : b.toNat.testBit k with
  | false =>
    have : b &&& mask k = 0 := hz.2 (by rw [Nat.and_two_pow, hb]; simp)
    simp [this]
  | true =>
    have : b &&& mask k ≠ 0 := fun h => by
      have := hz.1 h
      rw [Nat.and_two_pow, hb] at this
      simp at this
    simp [this]

/-- Setting a bit of a byte sets that bit and no other. -/
theorem testBit_or_mask (b : UInt8) {k : ℕ} (hk : k < 8) (j : ℕ) :
    (b ||| mask k).toNat.testBit j = (decide (k = j) || b.toNat.testBit j) := by
  rw [UInt8.toNat_or, toNat_mask hk, Nat.testBit_or, Nat.testBit_two_pow, Bool.or_comm]

/-- Clearing a bit of a byte clears that bit and no other. -/
theorem testBit_and_not_mask (b : UInt8) {k j : ℕ} (hk : k < 8) (hj : j < 8) :
    (b &&& ~~~mask k).toNat.testBit j = (!decide (k = j) && b.toNat.testBit j) := by
  have hm : (~~~mask k).toNat.testBit j = !decide (k = j) := by
    have h1 : (~~~mask k).toNat.testBit j = (~~~(mask k).toBitVec).getLsbD j := by
      rw [← BitVec.testBit_toNat]; rfl
    rw [h1, BitVec.getLsbD_not, ← BitVec.testBit_toNat]
    have h2 : (mask k).toBitVec.toNat = 2 ^ k := toNat_mask hk
    rw [h2, Nat.testBit_two_pow]
    simp [hj]
  rw [UInt8.toNat_and, Nat.testBit_and, hm, Bool.and_comm]

/-- A byte is `0xFF` when all its bits are set. -/
theorem testBit_ff {k : ℕ} (hk : k < 8) : (0xFF : UInt8).toNat.testBit k = true := by
  have h : ∀ k < 8, (0xFF : UInt8).toNat.testBit k = true := by decide
  exact h k hk

/-! ## Bits of the array -/

/-- `getBit` as a bit of the byte that holds it. -/
theorem getBit_eq (bm : Bytes) (i : ℕ) : getBit bm i = (bm (i / 8)).toNat.testBit (i % 8) :=
  and_mask_ne_zero _ (Nat.mod_lt _ (by decide))

/-- Two bit numbers are equal when byte and position in the byte are. -/
theorem index_eq_iff {i j : ℕ} : i = j ↔ i / 8 = j / 8 ∧ i % 8 = j % 8 := by omega

/-- Setting bit `i` sets bit `i` and changes no other. -/
@[simp] theorem getBit_setBit (bm : Bytes) (i j : ℕ) :
    getBit (setBit bm i) j = (decide (i = j) || getBit bm j) := by
  rw [getBit_eq, getBit_eq, setBit]
  by_cases hb : j / 8 = i / 8
  · rw [hb, Function.update_self, testBit_or_mask _ (Nat.mod_lt _ (by decide))]
    have : (i % 8 = j % 8) ↔ i = j := by rw [index_eq_iff (i := i)]; simp [hb]
    simp [this]
  · rw [Function.update_of_ne hb]
    have : i ≠ j := fun h => hb (by rw [h])
    simp [this]

/-- Clearing bit `i` clears bit `i` and changes no other. -/
@[simp] theorem getBit_clearBit (bm : Bytes) (i j : ℕ) :
    getBit (clearBit bm i) j = (!decide (i = j) && getBit bm j) := by
  rw [getBit_eq, getBit_eq, clearBit]
  by_cases hb : j / 8 = i / 8
  · rw [hb, Function.update_self,
      testBit_and_not_mask _ (Nat.mod_lt _ (by decide)) (Nat.mod_lt _ (by decide))]
    have : (i % 8 = j % 8) ↔ i = j := by rw [index_eq_iff (i := i)]; simp [hb]
    simp [this]
  · rw [Function.update_of_ne hb]
    have : i ≠ j := fun h => hb (by rw [h])
    simp [this]

/-! ## The clear bits -/

/-- The numbers of the clear bits among the first `n`. -/
def clearBits (bm : Bytes) (n : ℕ) : Finset ℕ :=
  (Finset.range n).filter (fun i => getBit bm i = false)

/-- The clear bits below a bound, by membership. -/
@[simp] theorem mem_clearBits {bm : Bytes} {n i : ℕ} :
    i ∈ clearBits bm n ↔ i < n ∧ getBit bm i = false := by
  simp [clearBits]

/-- Setting a bit removes it from the clear bits. -/
theorem clearBits_setBit (bm : Bytes) (n i : ℕ) :
    clearBits (setBit bm i) n = (clearBits bm n).erase i := by
  ext j
  simp only [mem_clearBits, getBit_setBit, Finset.mem_erase, Bool.or_eq_false_iff,
    decide_eq_false_iff_not]
  constructor
  · rintro ⟨hj, hne, hb⟩
    exact ⟨fun h => hne h.symm, hj, hb⟩
  · rintro ⟨hne, hj, hb⟩
    exact ⟨hj, fun h => hne h.symm, hb⟩

/-- Clearing a bit in range adds it to the clear bits. -/
theorem clearBits_clearBit (bm : Bytes) {n i : ℕ} (hi : i < n) :
    clearBits (clearBit bm i) n = insert i (clearBits bm n) := by
  ext j
  simp only [mem_clearBits, getBit_clearBit, Finset.mem_insert, Bool.and_eq_false_iff,
    Bool.not_eq_false', decide_eq_true_eq]
  constructor
  · rintro ⟨hj, rfl | hb⟩
    · exact .inl rfl
    · exact .inr ⟨hj, hb⟩
  · rintro (rfl | ⟨hj, hb⟩)
    · exact ⟨hi, .inl rfl⟩
    · exact ⟨hj, .inr hb⟩

end Bitmap
