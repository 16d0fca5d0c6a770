import CPractice.Base

/-!
# The string hash of `lisk_hash.c`

The hash that the tables use, and a comparison of keys to use them with.
-/

namespace CPractice.Hash

/-- `bkdr64`: a polynomial in the bytes on `u8`, without its top bit. -/
def bkdr64 (data : Bytes) : ℕ :=
  data.foldl (fun hash byte ↦ u8 (hash * 131313131 + byte.toNat)) 0 % 9223372036854775808

/-- Comparison of keys that only tells equal from different. -/
def bytesCmp (a b : Bytes) : ℤ := if a = b then 0 else 1

theorem bytesCmp_zero_iff (a b : Bytes) : bytesCmp a b = 0 ↔ a = b := by
  unfold bytesCmp
  split <;> simp_all

end CPractice.Hash
