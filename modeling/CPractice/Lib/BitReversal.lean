import Mathlib.Data.Nat.Bitwise

/-!
# Words in the order of their reversed bits

A counter that carries from the highest bit down runs through the words in the order of their reversals.
With the low bits of a mask it visits one residue after another: a step covers exactly the words of the
residue that it leaves.
-/

namespace CPractice.Lib

variable {w k l : ℕ} {v v' x : BitVec w}

/-- The word of the lowest bits. -/
def lowMask (w k : ℕ) : BitVec w := BitVec.ofNat w (2 ^ k - 1)

@[simp]
theorem getLsbD_lowMask (w k i : ℕ) : (lowMask w k).getLsbD i = (decide (i < w) && decide (i < k)) := by
  rw [lowMask, BitVec.getLsbD_ofNat, Nat.testBit_two_pow_sub_one]

/-- A round of the reversal by masks and shifts exchanges the bits at a distance. -/
theorem getLsbD_swap {s : ℕ} {mask : BitVec w}
    (hmask : ∀ i < w, if mask.getLsbD i then i ^^^ s = s + i else s ≤ i ∧ i ^^^ s = i - s) {i : ℕ}
    (hi : i < w) :
    (((v >>> s) &&& mask) ||| ((v <<< s) &&& ~~~mask)).getLsbD i = v.getLsbD (i ^^^ s) := by
  have hthis := hmask i hi
  rw [BitVec.getLsbD_or, BitVec.getLsbD_and, BitVec.getLsbD_and, BitVec.getLsbD_ushiftRight,
    BitVec.getLsbD_shiftLeft, BitVec.getLsbD_not]
  cases hbit : mask.getLsbD i with
  | true =>
      rw [hbit, if_pos rfl] at hthis
      rw [hthis]
      simp
  | false =>
      rw [hbit, if_neg Bool.false_ne_true] at hthis
      rw [hthis.2]
      simp [hi, hthis.1]

theorem testBit_reverse (v : BitVec w) (i : ℕ) :
    v.reverse.toNat.testBit i = (decide (i < w) && v.toNat.testBit (w - 1 - i)) := by
  rw [BitVec.testBit_toNat, BitVec.getLsbD_reverse, BitVec.getMsbD_eq_getLsbD, BitVec.testBit_toNat]

/-- The leading bits of the reversal are the residue. -/
theorem reverse_div_eq_iff (hk : k ≤ w) (x y : BitVec w) :
    x.reverse.toNat / 2 ^ (w - k) = y.reverse.toNat / 2 ^ (w - k) ↔ x.toNat % 2 ^ k = y.toNat % 2 ^ k := by
  have hbits : ∀ v : BitVec w, ∀ i < k,
      (v.reverse.toNat / 2 ^ (w - k)).testBit (k - 1 - i) = (v.toNat % 2 ^ k).testBit i := by
    intro v i hi
    have hin : k - 1 - i + (w - k) < w := by omega
    have hback : w - 1 - (k - 1 - i + (w - k)) = i := by omega
    rw [Nat.testBit_div_two_pow, testBit_reverse, Nat.testBit_mod_two_pow, hback, decide_eq_true hin,
      decide_eq_true hi]
  constructor
  · intro heq
    apply Nat.eq_of_testBit_eq
    intro i
    by_cases hi : i < k
    · rw [← hbits x i hi, ← hbits y i hi, heq]
    · rw [Nat.testBit_mod_two_pow, Nat.testBit_mod_two_pow, decide_eq_false hi, Bool.false_and, Bool.false_and]
  · intro heq
    apply Nat.eq_of_testBit_eq
    intro j
    by_cases hj : j < k
    · have hback : k - 1 - (k - 1 - j) = j := by omega
      have hx := hbits x (k - 1 - j) (by omega)
      have hy := hbits y (k - 1 - j) (by omega)
      rw [hback] at hx hy
      rw [hx, hy, heq]
    · have hout : ¬ j + (w - k) < w := by omega
      rw [Nat.testBit_div_two_pow, Nat.testBit_div_two_pow, testBit_reverse, testBit_reverse,
        decide_eq_false hout, Bool.false_and, Bool.false_and]

/-- Where the high bits are set, the reversal ends in ones. -/
theorem reverse_fill (hk : k ≤ w) (v : BitVec w) :
    (v ||| ~~~lowMask w k).reverse.toNat =
      2 ^ (w - k) * (v.reverse.toNat / 2 ^ (w - k)) + (2 ^ (w - k) - 1) := by
  have hpos : 2 ^ (w - k) - 1 < 2 ^ (w - k) := Nat.sub_one_lt (Nat.two_pow_pos _).ne'
  apply Nat.eq_of_testBit_eq
  intro i
  rw [testBit_reverse, Nat.testBit_two_pow_mul_add _ hpos, BitVec.testBit_toNat, BitVec.getLsbD_or,
    BitVec.getLsbD_not, getLsbD_lowMask, Nat.testBit_div_two_pow, Nat.testBit_two_pow_sub_one,
    testBit_reverse, BitVec.testBit_toNat]
  by_cases hi : i < w - k
  · have hw : i < w := by omega
    have hin : w - 1 - i < w := by omega
    have hhigh : ¬ w - 1 - i < k := by omega
    rw [if_pos hi, decide_eq_true hw, decide_eq_true hin, decide_eq_false hhigh, decide_eq_true hi]
    simp
  · rw [if_neg hi]
    have hback : i - (w - k) + (w - k) = i := by omega
    rw [hback]
    by_cases hw : i < w
    · have hin : w - 1 - i < w := by omega
      have hlow : w - 1 - i < k := by omega
      rw [decide_eq_true hw, decide_eq_true hin, decide_eq_true hlow]
      simp
    · rw [decide_eq_false hw]
      simp

theorem fill_eq_of_mod_eq (hmod : v.toNat % 2 ^ k = x.toNat % 2 ^ k) :
    v ||| ~~~lowMask w k = x ||| ~~~lowMask w k := by
  apply BitVec.eq_of_getLsbD_eq
  intro i hi
  rw [BitVec.getLsbD_or, BitVec.getLsbD_or, BitVec.getLsbD_not, getLsbD_lowMask, decide_eq_true hi]
  by_cases hik : i < k
  · have hbit := congrArg (fun n ↦ n.testBit i) hmod
    simp only [Nat.testBit_mod_two_pow, hik, decide_true, Bool.true_and, BitVec.testBit_toNat] at hbit
    rw [hbit]
  · simp [hik]

/-- The counter after a step. -/
theorem reverse_next (hk : k ≤ w) (v : BitVec w) :
    ((v ||| ~~~lowMask w k).reverse + 1).toNat =
      2 ^ (w - k) * (v.reverse.toNat / 2 ^ (w - k) + 1) % 2 ^ w := by
  have hpos : 0 < 2 ^ (w - k) := Nat.two_pow_pos _
  have hone : (1 : BitVec w).toNat = 1 % 2 ^ w := BitVec.toNat_ofNat 1 w
  rw [BitVec.toNat_add, hone, Nat.add_mod_mod, reverse_fill hk, Nat.mul_add, Nat.mul_one]
  congr 1
  omega

/-- A step of the counter covers the words of the residue that it leaves. -/
theorem mod_eq_of_covered (hk : k ≤ w) (hnext : v'.reverse = (v ||| ~~~lowMask w k).reverse + 1)
    (hle : v.reverse.toNat ≤ x.reverse.toNat) (hlt : v' ≠ 0 → x.reverse.toNat < v'.reverse.toNat) :
    x.toNat % 2 ^ k = v.toNat % 2 ^ k := by
  rw [← reverse_div_eq_iff hk]
  have hpos : 0 < 2 ^ (w - k) := Nat.two_pow_pos _
  have hbound : x.reverse.toNat < 2 ^ (w - k) * (v.reverse.toNat / 2 ^ (w - k) + 1) := by
    have hfits : 2 ^ (w - k) * (v.reverse.toNat / 2 ^ (w - k) + 1) ≤ 2 ^ w := by
      have hsplit : 2 ^ w = 2 ^ (w - k) * 2 ^ k := by rw [← Nat.pow_add, Nat.sub_add_cancel hk]
      have hdiv : v.reverse.toNat / 2 ^ (w - k) < 2 ^ k := by
        rw [Nat.div_lt_iff_lt_mul hpos, Nat.mul_comm, ← hsplit]
        exact v.reverse.isLt
      rw [hsplit]
      exact Nat.mul_le_mul_left _ hdiv
    rcases Nat.lt_or_eq_of_le hfits with hless | heq
    · have hval := reverse_next hk v
      rw [Nat.mod_eq_of_lt hless, ← hnext] at hval
      have hne : v' ≠ 0 := by
        rintro rfl
        have hzero : (0#w).reverse.toNat = 0 := by
          rw [BitVec.reverse_eq_zero_iff.mpr rfl, BitVec.toNat_zero]
        exact absurd (hval.symm.trans hzero) (Nat.mul_pos hpos (Nat.succ_pos _)).ne'
      rw [← hval]
      exact hlt hne
    · rw [heq]
      exact x.reverse.isLt
  apply le_antisymm
  · apply Nat.le_of_lt_succ
    rw [Nat.div_lt_iff_lt_mul hpos, Nat.mul_comm]
    exact hbound
  · exact Nat.div_le_div_right hle

/-- The counter after a step has no bits above the mask. -/
theorem toNat_lt_of_next (hk : k ≤ w) (hnext : v'.reverse = (v ||| ~~~lowMask w k).reverse + 1) :
    v'.toNat < 2 ^ k := by
  have hsplit : 2 ^ w = 2 ^ (w - k) * 2 ^ k := by rw [← Nat.pow_add, Nat.sub_add_cancel hk]
  have hval := reverse_next hk v
  rw [← hnext, hsplit, Nat.mul_mod_mul_left] at hval
  apply Nat.lt_pow_two_of_testBit
  intro i hi
  have hback := testBit_reverse v'.reverse i
  rw [BitVec.reverse_reverse_eq] at hback
  rw [hback]
  by_cases hw : i < w
  · have hlow : ¬ w - 1 - i ≥ w - k := by omega
    rw [hval, Nat.testBit_two_pow_mul, decide_eq_false hlow]
    simp
  · simp [hw]

/-! ## Counting above the mask -/

theorem toNat_and_lowMask (hk : k ≤ w) (v : BitVec w) : (v &&& lowMask w k).toNat = v.toNat % 2 ^ k := by
  apply Nat.eq_of_testBit_eq
  intro i
  rw [BitVec.testBit_toNat, BitVec.getLsbD_and, getLsbD_lowMask, Nat.testBit_mod_two_pow,
    BitVec.testBit_toNat]
  by_cases hi : i < k
  · have hw : i < w := by omega
    simp [hi, hw]
  · simp [hi]

/-- The bits between two masks. -/
theorem and_xor_eq_zero_iff (hkl : k ≤ l) (hl : l ≤ w) (v : BitVec w) :
    v &&& (lowMask w k ^^^ lowMask w l) = 0 ↔ v.toNat / 2 ^ k % 2 ^ (l - k) = 0 := by
  have hbit : ∀ i, (v.toNat / 2 ^ k % 2 ^ (l - k)).testBit i =
      (decide (i < l - k) && v.getLsbD (i + k)) := by
    intro i
    rw [Nat.testBit_mod_two_pow, Nat.testBit_div_two_pow, BitVec.testBit_toNat]
  have hmask : ∀ i, (v &&& (lowMask w k ^^^ lowMask w l)).getLsbD i =
      (v.getLsbD i && (decide (k ≤ i) && decide (i < l))) := by
    intro i
    rw [BitVec.getLsbD_and, BitVec.getLsbD_xor, getLsbD_lowMask, getLsbD_lowMask]
    congr 1
    by_cases hik : i < k
    · have hil : i < l := by omega
      simp [hik, hil]
    · have hki : k ≤ i := by omega
      by_cases hil : i < l
      · have hw : i < w := by omega
        simp [hik, hki, hil, hw]
      · simp [hik, hil]
  constructor
  · intro hzero
    apply Nat.eq_of_testBit_eq
    intro i
    rw [hbit, Nat.zero_testBit]
    by_cases hi : i < l - k
    · have hthis := hmask (i + k)
      have hil : i + k < l := by omega
      rw [hzero, decide_eq_true (Nat.le_add_left k i), decide_eq_true hil] at hthis
      simp only [Bool.and_true] at hthis
      rw [← hthis]
      simp
    · simp [hi]
  · intro hzero
    apply BitVec.eq_of_getLsbD_eq
    intro i hi
    rw [hmask]
    by_cases hik : k ≤ i
    · by_cases hil : i < l
      · have hthis := hbit (i - k)
        have hin : i - k < l - k := by omega
        have hback : i - k + k = i := by omega
        rw [hzero, Nat.zero_testBit, decide_eq_true hin, hback, Bool.true_and] at hthis
        rw [← hthis]
        simp
      · simp [hil]
    · simp [hik]

/-- The bits above a mask are counted up, and those under it stay. -/
theorem toNat_countAbove (hk : k ≤ w) (v : BitVec w) :
    ((((v ||| lowMask w k) + 1) &&& ~~~lowMask w k) ||| (v &&& lowMask w k)).toNat =
      2 ^ k * ((v.toNat / 2 ^ k + 1) % 2 ^ (w - k)) + v.toNat % 2 ^ k := by
  have hpos : 0 < 2 ^ k := Nat.two_pow_pos k
  have hlast : 2 ^ k - 1 < 2 ^ k := Nat.sub_one_lt hpos.ne'
  have hsplit : 2 ^ w = 2 ^ k * 2 ^ (w - k) := by rw [← Nat.pow_add, Nat.add_sub_cancel' hk]
  have hfill : (v ||| lowMask w k).toNat = 2 ^ k * (v.toNat / 2 ^ k) + (2 ^ k - 1) := by
    apply Nat.eq_of_testBit_eq
    intro i
    rw [BitVec.testBit_toNat, BitVec.getLsbD_or, getLsbD_lowMask, Nat.testBit_two_pow_mul_add _ hlast,
      Nat.testBit_two_pow_sub_one, Nat.testBit_div_two_pow, BitVec.testBit_toNat]
    by_cases hi : i < k
    · have hw : i < w := by omega
      simp [hi, hw]
    · have hback : i - k + k = i := by omega
      simp [hi, hback]
  have hone : (1 : BitVec w).toNat = 1 % 2 ^ w := BitVec.toNat_ofNat 1 w
  have hnext : ((v ||| lowMask w k) + 1).toNat = 2 ^ k * ((v.toNat / 2 ^ k + 1) % 2 ^ (w - k)) := by
    rw [BitVec.toNat_add, hone, Nat.add_mod_mod, hfill, hsplit]
    have hsum : 2 ^ k * (v.toNat / 2 ^ k) + (2 ^ k - 1) + 1 = 2 ^ k * (v.toNat / 2 ^ k + 1) := by
      rw [Nat.mul_add, Nat.mul_one]
      omega
    rw [hsum, Nat.mul_mod_mul_left]
  have hmod : v.toNat % 2 ^ k < 2 ^ k := Nat.mod_lt _ hpos
  apply Nat.eq_of_testBit_eq
  intro i
  rw [BitVec.testBit_toNat, BitVec.getLsbD_or, BitVec.getLsbD_and, BitVec.getLsbD_and, BitVec.getLsbD_not,
    getLsbD_lowMask, ← BitVec.testBit_toNat, hnext, Nat.testBit_two_pow_mul_add _ hmod,
    Nat.testBit_mod_two_pow, BitVec.testBit_toNat, Nat.testBit_two_pow_mul]
  by_cases hi : i < k
  · have hw : i < w := by omega
    simp [hi, hw]
  · have hki : k ≤ i := by omega
    by_cases hw : i < w
    · simp [hi, hw, hki]
    · have hout : w - k ≤ i - k := by omega
      have hzero : ((v.toNat / 2 ^ k + 1) % 2 ^ (w - k)).testBit (i - k) = false :=
        Nat.testBit_lt_two_pow (lt_of_lt_of_le (Nat.mod_lt _ (Nat.two_pow_pos _))
          (Nat.pow_le_pow_right (by decide) hout))
      simp [hi, hzero]

end CPractice.Lib
