import Mathlib.Order.Lattice
import Mathlib.Data.Nat.Bitwise

/-!
# Types and macros shared by the data structures

`lisk_type.h` and `lisk_public.h` give the fixed-width names (`u4`, `u8`), the key and value records
(a size and a byte buffer), and the comparison callback.  Buffers are byte lists; a callback is a
function to `Int` of which only the sign is read (`IS_ZR`, `IS_MN`, `IS_PN`).
-/

namespace CPractice

/-- `u4`: reduction to 32 bits. -/
@[irreducible] def u4 (n : ℕ) : ℕ := n % 4294967296

/-- `u8`: reduction to 64 bits. -/
@[irreducible] def u8 (n : ℕ) : ℕ := n % 18446744073709551616

/-- Subtraction on `u4`. -/
def u4Sub (a b : ℕ) : ℕ := u4 (a + 4294967296 - u4 b)

/-- Subtraction on `u8`. -/
def u8Sub (a b : ℕ) : ℕ := u8 (a + 18446744073709551616 - u8 b)

theorem u4_of_lt {n : ℕ} (h : n < 4294967296) : u4 n = n := by
  unfold u4
  exact Nat.mod_eq_of_lt h

theorem u4_lt (n : ℕ) : u4 n < 4294967296 := by
  unfold u4
  exact Nat.mod_lt _ (by decide)

theorem u4_add (a b : ℕ) : u4 (u4 a + b) = u4 (a + b) := by
  unfold u4
  omega

theorem u4Sub_lt (a b : ℕ) : u4Sub a b < 4294967296 := u4_lt _

theorem u4Sub_of_le {a b : ℕ} (h : b ≤ a) (ha : a < 4294967296) : u4Sub a b = a - b := by
  unfold u4Sub u4
  omega

theorem u8_of_lt {n : ℕ} (h : n < 18446744073709551616) : u8 n = n := by
  unfold u8
  exact Nat.mod_eq_of_lt h

theorem u8Sub_of_le {a b : ℕ} (h : b ≤ a) (ha : a < 18446744073709551616) :
    u8Sub a b = a - b := by
  unfold u8Sub u8
  omega

/-- The content of a `key_t` or `value_t`. -/
abbrev Bytes := List UInt8

/-- A `compare` callback that decides a linear order on the keys: negative below, positive above,
hence zero exactly on equal keys. -/
structure TotalOrderCmp {κ : Type*} [LinearOrder κ] (cmp : κ → κ → ℤ) : Prop where
  neg_iff : ∀ a b, cmp a b < 0 ↔ a < b
  pos_iff : ∀ a b, 0 < cmp a b ↔ b < a

namespace TotalOrderCmp

variable {κ : Type*} [LinearOrder κ] {cmp : κ → κ → ℤ}

theorem zero_iff (h : TotalOrderCmp cmp) (a b : κ) : cmp a b = 0 ↔ a = b := by
  have hneg := h.neg_iff a b
  have hpos := h.pos_iff a b
  constructor
  · intro hzero
    rcases lt_trichotomy a b with hlt | heq | hgt
    · exact absurd (hneg.mpr hlt) (by omega)
    · exact heq
    · exact absurd (hpos.mpr hgt) (by omega)
  · rintro rfl
    have hnotNeg : ¬ cmp a a < 0 := fun hlt ↦ lt_irrefl a (hneg.mp hlt)
    have hnotPos : ¬ 0 < cmp a a := fun hlt ↦ lt_irrefl a (hpos.mp hlt)
    omega

end TotalOrderCmp

end CPractice
