import Mathlib.Algebra.Group.Basic
import Mathlib.Data.BitVec

/-!
# `qintpow` of `lisk_math.c`

The first loop takes the exponent to its odd part and squares `x` on the way.  The second one squares
`x` for every further bit of the exponent and multiplies it into the result where the bit is one.
Products wrap in two's complement, so the result is the power in the ring of 32-bit words.  Each loop
tests its condition once for every bit of the exponent at most.
-/

namespace CPractice.QuickPower

/-- `while ((n & 1) == 0)`; `none` when it does not end within `turns` tests. -/
def evenLoop : ℕ → BitVec 32 → BitVec 32 → Option (BitVec 32 × BitVec 32)
  | 0, _, _ => none
  | turns + 1, x, n =>
      if n &&& 1 = 0 then evenLoop turns (x * x) (n >>> 1) else some (x, n)

/-- `while (n != 0)`. -/
def bitLoop : ℕ → BitVec 32 → BitVec 32 → BitVec 32 → Option (BitVec 32)
  | 0, _, _, _ => none
  | turns + 1, result, x, n =>
      if n ≠ 0 then
        let x := x * x
        bitLoop turns (if n &&& 1 ≠ 0 then result * x else result) x (n >>> 1)
      else some result

/-- `qintpow`, with 32 turns for each loop. -/
def qintpow (x n : BitVec 32) : Option (BitVec 32) :=
  if n = 0 then some 1
  else do
    let (x, n) ← evenLoop 32 x n
    bitLoop 32 x x (n >>> 1)

/-! ## Halving the exponent -/

section Monoid

variable {M : Type*} [Monoid M] (x : M) {k : ℕ}

theorem sq_pow_half_of_even (h : k % 2 = 0) : (x * x) ^ (k / 2) = x ^ k := by
  have hk : 2 * (k / 2) = k := by omega
  rw [← pow_two, ← pow_mul, hk]

theorem mul_sq_pow_half_of_odd (h : k % 2 = 1) : x * (x * x) ^ (k / 2) = x ^ k := by
  have hk : 2 * (k / 2) + 1 = k := by omega
  rw [← pow_two, ← pow_mul, ← pow_succ', hk]

end Monoid

variable {x n result : BitVec 32} {turns : ℕ}

theorem toNat_half (n : BitVec 32) : (n >>> 1).toNat = n.toNat / 2 := by
  rw [BitVec.toNat_ushiftRight, Nat.shiftRight_one]

theorem and_one_eq_zero_iff (n : BitVec 32) : n &&& 1 = 0 ↔ n.toNat % 2 = 0 := by
  rw [← BitVec.toNat_inj, BitVec.toNat_and]
  exact Eq.congr_left (Nat.and_one_is_mod _)

theorem eq_zero_iff (n : BitVec 32) : n = 0 ↔ n.toNat = 0 := BitVec.toNat_inj.symm

/-! ## The loops -/

/-- The first loop keeps the power, and ends with an odd exponent. -/
theorem evenLoop_eq (hpos : 0 < n.toNat) (hlt : n.toNat < 2 ^ turns) :
    ∃ x' n', evenLoop turns x n = some (x', n') ∧ n'.toNat % 2 = 1 ∧ x' ^ n'.toNat = x ^ n.toNat := by
  induction turns generalizing x n with
  | zero => exact absurd hpos (Nat.not_lt.mpr (Nat.le_of_lt_succ hlt))
  | succ turns ih =>
      by_cases heven : n.toNat % 2 = 0
      · have hhalf := toNat_half n
        rw [pow_succ] at hlt
        obtain ⟨x', n', hloop, hodd, hpow⟩ := ih (x := x * x) (n := n >>> 1) (by omega) (by omega)
        refine ⟨x', n', ?_, hodd, ?_⟩
        · rw [evenLoop, if_pos ((and_one_eq_zero_iff n).mpr heven), hloop]
        · rw [hpow, hhalf]
          exact sq_pow_half_of_even x heven
      · refine ⟨x, n, ?_, by omega, rfl⟩
        rw [evenLoop, if_neg (heven ∘ (and_one_eq_zero_iff n).mp)]

/-- The second loop multiplies by the power of the square. -/
theorem bitLoop_eq (hlt : n.toNat < 2 ^ turns) :
    bitLoop (turns + 1) result x n = some (result * (x * x) ^ n.toNat) := by
  induction turns generalizing result x n with
  | zero =>
      have hzero : n.toNat = 0 := Nat.lt_one_iff.mp hlt
      rw [bitLoop, if_neg (not_not.mpr ((eq_zero_iff n).mpr hzero)), hzero, pow_zero, mul_one]
  | succ turns ih =>
      rw [bitLoop]
      by_cases hzero : n.toNat = 0
      · rw [if_neg (not_not.mpr ((eq_zero_iff n).mpr hzero)), hzero, pow_zero, mul_one]
      have hhalf : (n >>> 1).toNat < 2 ^ turns := by
        rw [toNat_half]
        rw [pow_succ] at hlt
        omega
      rw [if_pos (hzero ∘ (eq_zero_iff n).mp), ih hhalf, toNat_half]
      by_cases heven : n.toNat % 2 = 0
      · rw [if_neg (not_not.mpr ((and_one_eq_zero_iff n).mpr heven)),
          sq_pow_half_of_even (x * x) heven]
      · rw [if_pos (heven ∘ (and_one_eq_zero_iff n).mp), mul_assoc,
          mul_sq_pow_half_of_odd (x * x) (Nat.mod_two_ne_zero.mp heven)]

/-- A power of words is that of the integers, wrapped once. -/
theorem ofInt_toInt_pow (x : BitVec 32) (k : ℕ) : BitVec.ofInt 32 (x.toInt ^ k) = x ^ k := by
  induction k with
  | zero =>
      rw [pow_zero, pow_zero]
      rfl
  | succ k ih => rw [pow_succ, pow_succ, BitVec.ofInt_mul, ih, BitVec.ofInt_toInt]

/-- `qintpow` ends, and computes the power modulo 2^32 in two's complement. -/
theorem qintpow_eq_pow (x n : BitVec 32) :
    qintpow x n = some (BitVec.ofInt 32 (x.toInt ^ n.toNat)) := by
  rw [ofInt_toInt_pow]
  by_cases hzero : n = 0
  · rw [qintpow, if_pos hzero, hzero]
    rfl
  have hpos : 0 < n.toNat := Nat.pos_of_ne_zero (hzero ∘ (eq_zero_iff n).mpr)
  obtain ⟨x', n', hloop, hodd, hpow⟩ := evenLoop_eq (x := x) hpos n.isLt
  have hhalf : (n' >>> 1).toNat < 2 ^ 31 := by
    have hlt := n'.isLt
    rw [toNat_half]
    omega
  calc qintpow x n = bitLoop 32 x' x' (n' >>> 1) := by
        rw [qintpow, if_neg hzero, hloop]
        rfl
    _ = some (x' * (x' * x') ^ (n'.toNat / 2)) := by rw [bitLoop_eq hhalf, toNat_half]
    _ = some (x ^ n.toNat) := by rw [mul_sq_pow_half_of_odd x' hodd, hpow]

/-- An odd power of a negative number, wrapped. -/
example : qintpow (-3) 21 = some (BitVec.ofInt 32 (-10460353203)) := by decide

end CPractice.QuickPower
