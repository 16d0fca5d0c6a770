import CPractice.Base
import Mathlib.Order.Bounds.Defs
import Mathlib.Tactic.Ring

/-!
# `is_pow_of_2` and `next_pow_of_2` of `lisk_math.c`

`next_pow_of_2` fills all bits below the highest one by shifts of 1, 2, 4, 8 and 16 places and adds one.
Below `2 ^ 32` that is the next power of two, which is less than twice the argument.  A bit is filled only
from one of the 31 bits above it, so for an argument of 64 bits it is so just if no 32 zero bits follow
one another below the highest one.
-/

namespace CPractice.PowerOfTwo

/-- `is_pow_of_2`: zero for a power of two, and for zero. -/
def isPowOf2 (x : ℕ) : ℕ := if x &&& u8Sub x 1 = 0 then 0 else 1

/-- `x |= x >> count`. -/
def fill (x count : ℕ) : ℕ := x ||| x >>> count

def nextPowOf2 (x : ℕ) : ℕ :=
  if isPowOf2 x = 0 then x
  else fill (fill (fill (fill (fill x 1) 2) 4) 8) 16 + 1

/-- The rounding of sizes as its callers write it, with the cut to `u4`. -/
def roundUp (size : ℕ) : ℕ := if isPowOf2 size ≠ 0 then u4 (nextPowOf2 size) else size

/-! ## The shifts -/

variable {x y width : ℕ}

/-- A bit is set if one of the bits from there on is set in the argument. -/
def Filled (width x y : ℕ) : Prop :=
  ∀ i, y.testBit i = true ↔ ∃ j, i ≤ j ∧ j < i + width ∧ x.testBit j = true

theorem filled_one : Filled 1 x x := by
  intro i
  constructor
  · intro h
    exact ⟨i, le_refl i, by omega, h⟩
  · rintro ⟨j, hle, hlt, hj⟩
    rwa [show i = j by omega]

theorem Filled.fill (h : Filled width x y) : Filled (width + width) x (fill y width) := by
  intro i
  rw [PowerOfTwo.fill, Nat.testBit_or, Nat.testBit_shiftRight, Bool.or_eq_true, h i, h (width + i)]
  constructor
  · rintro (⟨j, hle, hlt, hj⟩ | ⟨j, hle, hlt, hj⟩)
    · exact ⟨j, hle, by omega, hj⟩
    · exact ⟨j, by omega, by omega, hj⟩
  · rintro ⟨j, hle, hlt, hj⟩
    by_cases hnear : j < i + width
    · exact .inl ⟨j, hle, hnear, hj⟩
    · exact .inr ⟨j, by omega, by omega, hj⟩

/-- Any 32 bits in a row below the highest one have a one among them. -/
def GapFree (x : ℕ) : Prop := ∀ i, i + 32 ≤ x.log2 → ∃ j, i ≤ j ∧ j < i + 32 ∧ x.testBit j = true

theorem Filled.lt (hpos : x ≠ 0) (h : Filled width x y) : y < 2 ^ (x.log2 + 1) := by
  apply Nat.lt_pow_two_of_testBit
  intro i hi
  rw [← Bool.not_eq_true, h i]
  rintro ⟨j, hle, -, hj⟩
  have hsmall : x < 2 ^ j := (Nat.log2_lt hpos).mp (by omega)
  rw [Nat.testBit_eq_false_of_lt hsmall] at hj
  cases hj

/-- After all the shifts the bits up to the highest one are set, if there is no gap. -/
theorem filled_eq_iff (hpos : x ≠ 0) (h : Filled 32 x y) : y + 1 = 2 ^ (x.log2 + 1) ↔ GapFree x := by
  have htwo := Nat.two_pow_pos (x.log2 + 1)
  have hall : y + 1 = 2 ^ (x.log2 + 1) ↔ y = 2 ^ (x.log2 + 1) - 1 := by omega
  rw [hall]
  constructor
  · intro hy i hi
    have hset : y.testBit i = true := by
      rw [hy, Nat.testBit_two_pow_sub_one]
      exact decide_eq_true (by omega)
    exact (h i).mp hset
  · intro hfree
    apply Nat.eq_of_testBit_eq
    intro i
    rw [Nat.testBit_two_pow_sub_one, Bool.eq_iff_iff, decide_eq_true_eq]
    constructor
    · intro hset
      by_contra hgt
      have hlarge : 2 ^ (x.log2 + 1) ≤ 2 ^ i := Nat.pow_le_pow_right (by decide) (by omega)
      rw [Nat.testBit_eq_false_of_lt ((h.lt hpos).trans_le hlarge)] at hset
      cases hset
    · intro hi
      rw [h i]
      by_cases hnear : i + 32 ≤ x.log2
      · exact hfree i hnear
      · exact ⟨x.log2, by omega, by omega, Nat.testBit_log2 hpos⟩

theorem filled_eq (hpos : x ≠ 0) (hlt : x < 4294967296) (h : Filled 32 x y) :
    y + 1 = 2 ^ (x.log2 + 1) := by
  have hlog : x.log2 < 32 := (Nat.log2_lt hpos).mpr hlt
  exact (filled_eq_iff hpos h).mpr fun i hi ↦ by omega

/-! ## The next power of two -/

theorem isPowOf2_eq_zero_iff (hpos : 0 < x) (hlt : x < 18446744073709551616) :
    isPowOf2 x = 0 ↔ ∃ k, x = 2 ^ k := by
  have hsub : u8Sub x 1 = x - 1 := u8Sub_of_le hpos hlt
  have hand := Nat.and_sub_one_eq_zero_iff_isPowerOfTwo (Nat.pos_iff_ne_zero.mp hpos)
  rw [isPowOf2, hsub]
  split
  · rename_i h
    exact iff_of_true rfl (hand.mp h)
  · rename_i h
    exact iff_of_false (by decide) fun hpow ↦ h (hand.mpr hpow)

theorem nextPowOf2_spec (hpos : 0 < x) (hlt : x < 4294967296) :
    (∃ k, nextPowOf2 x = 2 ^ k) ∧ x ≤ nextPowOf2 x ∧ nextPowOf2 x < 2 * x := by
  rw [nextPowOf2]
  split
  · rename_i hpow
    exact ⟨(isPowOf2_eq_zero_iff hpos (by omega)).mp hpow, le_refl x, by omega⟩
  · rename_i hpow
    have hfilled := filled_eq (Nat.pos_iff_ne_zero.mp hpos) hlt filled_one.fill.fill.fill.fill.fill
    have hupper : x < 2 ^ (x.log2 + 1) := Nat.lt_log2_self
    have hlower : 2 ^ x.log2 ≤ x := Nat.log2_self_le (Nat.pos_iff_ne_zero.mp hpos)
    have hne : x ≠ 2 ^ x.log2 := fun h ↦
      hpow ((isPowOf2_eq_zero_iff hpos (by omega)).mpr ⟨x.log2, h⟩)
    have hdouble : 2 ^ (x.log2 + 1) = 2 * 2 ^ x.log2 := by ring
    rw [hfilled]
    exact ⟨⟨x.log2 + 1, rfl⟩, hupper.le, by omega⟩

theorem roundUp_lt (h : x < 4294967296) : roundUp x < 4294967296 := by
  rw [roundUp]
  split
  · exact u4_lt _
  · exact h

theorem roundUp_eq (h : nextPowOf2 x < 4294967296) : roundUp x = nextPowOf2 x := by
  rw [roundUp]
  split
  · exact u4_of_lt h
  · rename_i hpow
    rw [nextPowOf2, if_pos (not_not.mp hpow)]

/-- Up to `2 ^ 31` nothing is cut off. -/
theorem nextPowOf2_le (hpos : 0 < x) (hle : x ≤ 2147483648) : nextPowOf2 x ≤ 2147483648 := by
  rcases nextPowOf2_spec hpos (by omega) with ⟨⟨k, hk⟩, -, hlt⟩
  rcases Nat.lt_or_ge k 32 with hsmall | hlarge
  · have hpow : 2 ^ k ≤ 2 ^ 31 := Nat.pow_le_pow_right (by decide) (by omega)
    omega
  · have hpow : 2 ^ 32 ≤ 2 ^ k := Nat.pow_le_pow_right (by decide) hlarge
    omega

/-- For every argument up to `2 ^ 63`: `next_pow_of_2` is the least power of two that is not below it,
just if the argument is one itself or has no gap of 32 zero bits. -/
theorem nextPowOf2_least_iff (hpos : 0 < x) (hle : x ≤ 9223372036854775808) :
    IsLeast {p | (∃ k, p = 2 ^ k) ∧ x ≤ p} (nextPowOf2 x) ↔ (∃ k, x = 2 ^ k) ∨ GapFree x := by
  have hne : x ≠ 0 := Nat.pos_iff_ne_zero.mp hpos
  have htest := isPowOf2_eq_zero_iff hpos (by omega)
  by_cases hpow : ∃ k, x = 2 ^ k
  · rw [nextPowOf2, if_pos (htest.mpr hpow)]
    exact iff_of_true ⟨⟨hpow, le_refl x⟩, fun p hp ↦ hp.2⟩ (.inl hpow)
  · have hfilled : Filled 32 x (fill (fill (fill (fill (fill x 1) 2) 4) 8) 16) :=
      filled_one.fill.fill.fill.fill.fill
    have hlower : 2 ^ x.log2 < x :=
      lt_of_le_of_ne (Nat.log2_self_le hne) fun h ↦ hpow ⟨x.log2, h.symm⟩
    rw [or_iff_right hpow, ← filled_eq_iff hne hfilled, nextPowOf2, if_neg fun h ↦ hpow (htest.mp h)]
    have hupper := hfilled.lt hne
    generalize fill (fill (fill (fill (fill x 1) 2) 4) 8) 16 = y at hupper ⊢
    have hpowers : ∀ k, 2 ^ x.log2 < 2 ^ k → 2 ^ (x.log2 + 1) ≤ 2 ^ k := fun k hk ↦
      Nat.pow_le_pow_right (by decide) ((Nat.pow_lt_pow_iff_right (by decide)).mp hk)
    constructor
    · rintro ⟨⟨⟨k, hk⟩, hge⟩, -⟩
      have hlarge := hpowers k (by omega)
      omega
    · intro heq
      rw [heq]
      have habove : x < 2 ^ (x.log2 + 1) := Nat.lt_log2_self
      refine ⟨⟨⟨_, rfl⟩, habove.le⟩, ?_⟩
      rintro p ⟨⟨k, rfl⟩, hp⟩
      exact hpowers k (hlower.trans_le hp)

theorem nextPowOf2_least_iff_five : IsLeast {p | (∃ k, p = 2 ^ k) ∧ 5 ≤ p} (nextPowOf2 5) := by
  have hfree : GapFree 5 := by
    intro i hi
    have hlog : Nat.log2 5 = 2 := by decide
    omega
  exact (nextPowOf2_least_iff (by decide) (by decide)).mpr (.inr hfree)

/-- The argument `2 ^ 33 + 1`: bit 1 is not filled. -/
theorem nextPowOf2_gap :
    nextPowOf2 8589934593 = 17179869182 ∧
      ¬ IsLeast {p | (∃ k, p = 2 ^ k) ∧ 8589934593 ≤ p} (nextPowOf2 8589934593) := by
  have hvalue : nextPowOf2 8589934593 = 17179869182 := by with_unfolding_all decide
  refine ⟨hvalue, fun h ↦ ?_⟩
  rw [hvalue] at h
  rcases h.1.1 with ⟨k, hk⟩
  have hsmall : 33 < k := by
    by_contra hle
    have hpow : 2 ^ k ≤ 2 ^ 33 := Nat.pow_le_pow_right (by decide) (by omega)
    omega
  have hpow : 2 ^ 34 ≤ 2 ^ k := Nat.pow_le_pow_right (by decide) hsmall
  omega

end CPractice.PowerOfTwo
