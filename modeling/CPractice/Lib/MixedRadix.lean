import Mathlib.Algebra.Order.Group.Nat
import Mathlib.Data.Nat.ModEq

/-!
# Mixed radix notation

A number of units of the first place, written with a radix for each place.  A sum is found place by
place, each place handing its carry to the next one.
-/

namespace CPractice.Lib

/-- The weights of `count` places and their radices. -/
structure MixedRadix (count : ℕ) where
  weight : ℕ → ℕ
  radix : ℕ → ℕ
  weight_zero : weight 0 = 1
  weight_succ : ∀ i, i + 1 < count → weight (i + 1) = weight i * radix i
  radix_pos : ∀ i < count, 0 < radix i

namespace MixedRadix

variable {count : ℕ} (m : MixedRadix count) (a b : ℕ) {i : ℕ}

def digit (a i : ℕ) : ℕ := a / m.weight i % m.radix i

/-- The carry into a place. -/
def carry (i : ℕ) : ℕ := if m.weight i ≤ a % m.weight i + b % m.weight i then 1 else 0

theorem weight_pos (hi : i < count) : 0 < m.weight i := by
  induction i with
  | zero =>
      rw [m.weight_zero]
      exact Nat.one_pos
  | succ i ih =>
      rw [m.weight_succ i hi]
      exact Nat.mul_pos (ih (Nat.lt_of_succ_lt hi)) (m.radix_pos i (Nat.lt_of_succ_lt hi))

theorem weight_dvd {j : ℕ} (hij : i ≤ j) (hj : j < count) : m.weight i ∣ m.weight j := by
  induction j, hij using Nat.le_induction with
  | base => exact dvd_rfl
  | succ j _ ih =>
      rw [m.weight_succ j hj]
      exact (ih (Nat.lt_of_succ_lt hj)).mul_right _

theorem digit_lt (hi : i < count) : m.digit a i < m.radix i := Nat.mod_lt _ (m.radix_pos i hi)

@[simp]
theorem carry_zero : m.carry a b 0 = 0 := by
  simp [carry, m.weight_zero, Nat.mod_one]

theorem div_add (hi : i < count) :
    (a + b) / m.weight i = a / m.weight i + b / m.weight i + m.carry a b i :=
  Nat.add_div (m.weight_pos hi)

/-- A place of a sum, from a place of one number and all higher places of the other. -/
theorem digit_add (hi : i < count) :
    m.digit (a + b) i = (m.digit a i + b / m.weight i + m.carry a b i) % m.radix i := by
  rw [digit, digit, m.div_add a b hi, Nat.add_assoc, Nat.add_assoc, Nat.mod_add_mod]

/-- The places of `a` up to the place `i`. -/
theorem mod_weight_succ (hi : i + 1 < count) :
    a % m.weight (i + 1) = a % m.weight i + m.weight i * m.digit a i := by
  rw [m.weight_succ i hi, Nat.mod_mul, digit]

theorem mod_div_weight (hi : i + 1 < count) :
    a % m.weight (i + 1) / m.weight i = m.digit a i := by
  rw [m.weight_succ i hi, Nat.mod_mul_right_div_self, digit]

/-- A place does not depend on the higher ones. -/
theorem digit_mod {j : ℕ} (hij : i < j) (hj : j < count) :
    m.digit (a % m.weight j) i = m.digit a i := by
  have hi : i + 1 < count := Nat.lt_of_le_of_lt hij hj
  rw [← m.mod_div_weight _ hi, Nat.mod_mod_of_dvd a (m.weight_dvd hij hj), m.mod_div_weight a hi]

theorem div_weight_succ (hi : i + 1 < count) :
    a / m.weight (i + 1) = a / m.weight i / m.radix i := by
  rw [m.weight_succ i hi, Nat.div_div_eq_div_mul]

/-- The carry into the next place. -/
theorem carry_succ (hi : i + 1 < count) :
    m.carry a b (i + 1) = (m.digit a i + m.digit b i + m.carry a b i) / m.radix i := by
  have hradix := m.radix_pos i (Nat.lt_of_succ_lt hi)
  have hsum := m.div_add a b hi
  have ha := Nat.mod_add_div (a / m.weight i) (m.radix i)
  have hb := Nat.mod_add_div (b / m.weight i) (m.radix i)
  have hsplit : (a + b) / m.weight i = m.digit a i + m.digit b i + m.carry a b i +
      m.radix i * (a / m.weight i / m.radix i + b / m.weight i / m.radix i) := by
    rw [m.div_add a b (Nat.lt_of_succ_lt hi), digit, digit, Nat.mul_add]
    omega
  have hquotient : (a + b) / m.weight (i + 1) =
      (m.digit a i + m.digit b i + m.carry a b i) / m.radix i +
        (a / m.weight i / m.radix i + b / m.weight i / m.radix i) := by
    rw [m.div_weight_succ _ hi, hsplit, Nat.add_mul_div_left _ _ hradix]
  rw [hquotient, m.div_weight_succ a hi, m.div_weight_succ b hi] at hsum
  omega

/-- Where the places below `i` have room for `b`, none from there on changes. -/
theorem div_add_of_room (hi : i < count) (h : a % m.weight i + b < m.weight i) :
    (a + b) / m.weight i = a / m.weight i := by
  calc (a + b) / m.weight i
      = (a % m.weight i + b + m.weight i * (a / m.weight i)) / m.weight i := by
        rw [Nat.add_right_comm, Nat.mod_add_div]
    _ = (a % m.weight i + b) / m.weight i + a / m.weight i :=
        Nat.add_mul_div_left _ _ (m.weight_pos hi)
    _ = a / m.weight i := by rw [Nat.div_eq_of_lt h, Nat.zero_add]

end MixedRadix

end CPractice.Lib
