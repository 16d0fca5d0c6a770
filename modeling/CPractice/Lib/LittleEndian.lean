import Mathlib.Data.BitVec
import Mathlib.Data.List.Basic

/-!
# Words in the memory of a little-endian machine

Memory is a byte at every address.  A word of `size` bytes lies at an address with its lowest byte
first; it is the same as another one if all its bytes are.
-/

namespace CPractice.Lib

/-- The byte at a place of a word, counted from the lowest one. -/
def byteOf {width : ℕ} (v : BitVec width) (i : ℕ) : BitVec 8 := v.extractLsb' (8 * i) 8

/-- The bytes of a word at ascending addresses. -/
def bytesInMemory (size : ℕ) (v : BitVec (8 * size)) : List (BitVec 8) :=
  (List.range size).map (byteOf v)

/-- The bytes of a word, highest one first. -/
def bigEndian (size : ℕ) (v : BitVec (8 * size)) : List (BitVec 8) :=
  (List.range size).map fun i ↦ byteOf v (size - 1 - i)

abbrev ByteMemory := ℕ → BitVec 8

namespace ByteMemory

def store {size : ℕ} (m : ByteMemory) (addr : ℕ) (v : BitVec (8 * size)) : ByteMemory :=
  fun p ↦ if addr ≤ p ∧ p < addr + size then byteOf v (p - addr) else m p

def load (m : ByteMemory) (addr : ℕ) : (size : ℕ) → BitVec (8 * size)
  | 0 => 0
  | size + 1 => load m (addr + 1) size ++ m addr

/-- The sum, modulo two in each bit, of the words at `a` and `b` stored at an address. -/
def xorWord (size : ℕ) (m : ByteMemory) (addr a b : ℕ) : ByteMemory :=
  m.store addr (m.load a size ^^^ m.load b size)

/-- Two ranges of `size` bytes with their contents exchanged. -/
def exchange (size : ℕ) (m : ByteMemory) (a b : ℕ) : ByteMemory := fun p ↦
  if a ≤ p ∧ p < a + size then m (b + (p - a))
  else if b ≤ p ∧ p < b + size then m (a + (p - b))
  else m p

end ByteMemory

/-! ## Bytes -/

variable {size width i : ℕ}

theorem bigEndian_eq_reverse (size : ℕ) (v : BitVec (8 * size)) :
    bigEndian size v = (bytesInMemory size v).reverse := by
  apply List.ext_getElem
  · simp [bigEndian, bytesInMemory]
  · intro i hi hi'
    simp [bigEndian, bytesInMemory]

@[simp]
theorem byteOf_xor (v w : BitVec width) (i : ℕ) : byteOf (v ^^^ w) i = byteOf v i ^^^ byteOf w i :=
  BitVec.extractLsb'_xor

theorem byteOf_append_zero (high : BitVec width) (low : BitVec 8) : byteOf (high ++ low) 0 = low := by
  apply BitVec.eq_of_getLsbD_eq
  intro j hj
  rw [byteOf, BitVec.getLsbD_extractLsb', BitVec.getLsbD_append, Nat.mul_zero, Nat.zero_add, if_pos hj,
    decide_eq_true hj, Bool.true_and]

theorem byteOf_append_succ (high : BitVec width) (low : BitVec 8) (i : ℕ) :
    byteOf (high ++ low) (i + 1) = byteOf high i := by
  apply BitVec.eq_of_getLsbD_eq
  intro j hj
  have hhigh : ¬ 8 * (i + 1) + j < 8 := by omega
  have hsub : 8 * (i + 1) + j - 8 = 8 * i + j := by omega
  rw [byteOf, byteOf, BitVec.getLsbD_extractLsb', BitVec.getLsbD_extractLsb', BitVec.getLsbD_append,
    if_neg hhigh, hsub]

theorem getLsbD_eq_byteOf (v : BitVec width) (k : ℕ) :
    v.getLsbD k = (byteOf v (k / 8)).getLsbD (k % 8) := by
  have hlt : k % 8 < 8 := Nat.mod_lt k (by decide)
  rw [byteOf, BitVec.getLsbD_extractLsb', Nat.div_add_mod, decide_eq_true hlt, Bool.true_and]

/-- A word is determined by its bytes. -/
theorem eq_of_byteOf_eq {v w : BitVec (8 * size)} (h : ∀ i < size, byteOf v i = byteOf w i) : v = w := by
  apply BitVec.eq_of_getLsbD_eq
  intro k hk
  rw [getLsbD_eq_byteOf v, getLsbD_eq_byteOf w, h (k / 8) (Nat.div_lt_of_lt_mul hk)]

namespace ByteMemory

variable {m : ByteMemory} {a b : ℕ}

theorem byteOf_load (m : ByteMemory) (addr : ℕ) (hi : i < size) :
    byteOf (m.load addr size) i = m (addr + i) := by
  induction size generalizing addr i with
  | zero => exact absurd hi (Nat.not_lt_zero i)
  | succ size ih =>
      cases i with
      | zero => exact byteOf_append_zero _ _
      | succ i =>
          calc byteOf (m.load addr (size + 1)) (i + 1)
              = byteOf (m.load (addr + 1) size) i := byteOf_append_succ _ _ _
            _ = m (addr + 1 + i) := ih _ (Nat.lt_of_succ_lt_succ hi)
            _ = m (addr + (i + 1)) := by rw [Nat.add_assoc, Nat.add_comm 1 i]

theorem load_store (m : ByteMemory) (addr : ℕ) (v : BitVec (8 * size)) :
    (m.store addr v).load addr size = v := by
  apply eq_of_byteOf_eq
  intro i hi
  rw [byteOf_load _ _ hi, store, if_pos ⟨Nat.le_add_right _ _, Nat.add_lt_add_left hi _⟩,
    Nat.add_sub_cancel_left]

/-! ## Exchanges -/

theorem xorWord_apply (m : ByteMemory) (size addr a b p : ℕ) :
    xorWord size m addr a b p =
      if addr ≤ p ∧ p < addr + size then m (a + (p - addr)) ^^^ m (b + (p - addr)) else m p := by
  rw [xorWord, store]
  by_cases hp : addr ≤ p ∧ p < addr + size
  · have hlt : p - addr < size := by omega
    rw [if_pos hp, if_pos hp, byteOf_xor, byteOf_load m a hlt, byteOf_load m b hlt]
  · rw [if_neg hp, if_neg hp]

/-- Ranges of `size` bytes that do not overlap. -/
def Apart (size a b : ℕ) : Prop := a + size ≤ b ∨ b + size ≤ a

theorem exchange_left (m : ByteMemory) (b : ℕ) (hi : i < size) :
    exchange size m a b (a + i) = m (b + i) := by
  rw [exchange, if_pos ⟨Nat.le_add_right _ _, Nat.add_lt_add_left hi _⟩, Nat.add_sub_cancel_left]

theorem exchange_right (m : ByteMemory) (h : Apart size a b) (hi : i < size) :
    exchange size m a b (b + i) = m (a + i) := by
  have hout : ¬ (a ≤ b + i ∧ b + i < a + size) := by
    unfold Apart at h
    omega
  rw [exchange, if_neg hout, if_pos ⟨Nat.le_add_right _ _, Nat.add_lt_add_left hi _⟩,
    Nat.add_sub_cancel_left]

theorem exchange_other (m : ByteMemory) {p : ℕ} (ha : ¬ (a ≤ p ∧ p < a + size))
    (hb : ¬ (b ≤ p ∧ p < b + size)) : exchange size m a b p = m p := by
  rw [exchange, if_neg ha, if_neg hb]

/-- A memory is the exchange if it has the bytes of each range in the other one. -/
theorem eq_exchange {m' : ByteMemory} (hleft : ∀ i < size, m' (a + i) = m (b + i))
    (hright : ∀ i < size, m' (b + i) = m (a + i))
    (hother : ∀ p, ¬ (a ≤ p ∧ p < a + size) → ¬ (b ≤ p ∧ p < b + size) → m' p = m p) :
    m' = exchange size m a b := by
  funext p
  rw [exchange]
  split
  · next ha =>
      calc m' p = m' (a + (p - a)) := by rw [Nat.add_sub_cancel' ha.1]
        _ = m (b + (p - a)) := hleft _ (by omega)
  · next ha =>
      split
      · next hb =>
          calc m' p = m' (b + (p - b)) := by rw [Nat.add_sub_cancel' hb.1]
            _ = m (a + (p - b)) := hright _ (by omega)
      · next hb => exact hother p ha hb

/-- The sum of two words is stored in one, then in the other and in the first again. -/
theorem xor_exchange {m₁ m₂ : ByteMemory} (h : Apart size a b) (hm₁ : m₁ = xorWord size m a a b)
    (hm₂ : m₂ = xorWord size m₁ b a b) : xorWord size m₂ a a b = exchange size m a b := by
  have hin (c i : ℕ) (hi : i < size) : c ≤ c + i ∧ c + i < c + size := by omega
  have hab (i : ℕ) (hi : i < size) : ¬ (a ≤ b + i ∧ b + i < a + size) := by
    unfold Apart at h
    omega
  have hba (i : ℕ) (hi : i < size) : ¬ (b ≤ a + i ∧ a + i < b + size) := by
    unfold Apart at h
    omega
  have hfirst (i : ℕ) (hi : i < size) : m₁ (a + i) = m (a + i) ^^^ m (b + i) := by
    rw [hm₁, xorWord_apply, if_pos (hin a i hi), Nat.add_sub_cancel_left]
  have hkept (i : ℕ) (hi : i < size) : m₁ (b + i) = m (b + i) := by
    rw [hm₁, xorWord_apply, if_neg (hab i hi)]
  have hsecond (i : ℕ) (hi : i < size) : m₂ (b + i) = m (a + i) := by
    rw [hm₂, xorWord_apply, if_pos (hin b i hi), Nat.add_sub_cancel_left, hfirst i hi, hkept i hi,
      BitVec.xor_assoc, BitVec.xor_self, BitVec.xor_zero]
  have hsum (i : ℕ) (hi : i < size) : m₂ (a + i) = m (a + i) ^^^ m (b + i) := by
    rw [hm₂, xorWord_apply, if_neg (hba i hi), hfirst i hi]
  apply eq_exchange
  · intro i hi
    rw [xorWord_apply, if_pos (hin a i hi), Nat.add_sub_cancel_left, hsum i hi, hsecond i hi,
      BitVec.xor_comm, ← BitVec.xor_assoc, BitVec.xor_self, BitVec.zero_xor]
  · intro i hi
    rw [xorWord_apply, if_neg (hab i hi), hsecond i hi]
  · intro p ha hb
    rw [xorWord_apply, if_neg ha, hm₂, xorWord_apply, if_neg hb, hm₁, xorWord_apply, if_neg ha]

/-- An exchange of adjoining ranges, one after the other. -/
theorem exchange_exchange {size' : ℕ} (m : ByteMemory) (h : Apart (size + size') a b) :
    exchange size' (exchange size m a b) (a + size) (b + size) = exchange (size + size') m a b := by
  have hfront : Apart size a b := by
    unfold Apart at h ⊢
    omega
  have hback : Apart size' (a + size) (b + size) := by
    unfold Apart at h ⊢
    omega
  apply eq_exchange
  · intro i hi
    by_cases hlow : i < size
    · rw [exchange_other _ (by omega) (by unfold Apart at h; omega), exchange_left m b hlow]
    · obtain ⟨j, rfl⟩ := Nat.exists_eq_add_of_le (Nat.not_lt.mp hlow)
      rw [← Nat.add_assoc, ← Nat.add_assoc, exchange_left _ _ (by omega),
        exchange_other m (by unfold Apart at h; omega) (by omega)]
  · intro i hi
    by_cases hlow : i < size
    · rw [exchange_other _ (by unfold Apart at h; omega) (by omega), exchange_right m hfront hlow]
    · obtain ⟨j, rfl⟩ := Nat.exists_eq_add_of_le (Nat.not_lt.mp hlow)
      rw [← Nat.add_assoc, ← Nat.add_assoc, exchange_right _ hback (by omega),
        exchange_other m (by omega) (by unfold Apart at h; omega)]
  · intro p ha hb
    rw [exchange_other _ (by omega) (by omega), exchange_other _ (by omega) (by omega)]

end ByteMemory

end CPractice.Lib
