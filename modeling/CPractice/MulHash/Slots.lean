import CPractice.MulHash.Unique

/-!
# Slots never overlap

A slot is a row and a position in it; an insert writes the headers, the key and the value from the
slot's root on.  The element size is a `u4` sum of the limits on keys and values.  Where it does not
wrap, and the size of the area is computed in range, slot number `j`, counted over the rows, has the
bytes from `j * elem_size` to `(j + 1) * elem_size`.
-/

namespace CPractice.MulHash

open Hash Lib Math

variable {mh : MulHashT} {row col maxKeySize maxValueSize : ℕ}

/-- `mul_hash_init` when shared memory of the size it asks for is granted. -/
def mulHashRequest (row col maxKeySize maxValueSize : ℕ) : Option (Option MulHashT) :=
  if row ≤ 1 ∨ maxHashRow ≤ row ∨ col < 1 ∨ maxKeySize = 0 ∨ maxValueSize = 0 then some none
  else do
    let primes ← getPrimeArr col row
    if primes.getLastD 0 < row then some none
    else do
      let elemNum ← n8 primes.sum
      let shmSize ← n8 (elemNum * elemSize maxKeySize maxValueSize)
      some (some ⟨maxKeySize, maxValueSize, primes.map Int.toNat, shmSize.toNat, fun _ ↦ .zero⟩)

/-- The root of a position in a row, as the walks compute it for a hash value with that remainder. -/
def MulHashT.slotRoot (mh : MulHashT) (row pos : ℕ) : Option ℕ := (mh.roots pos)[row]?

/-- The bytes that inserts write for different slots are disjoint and inside the area. -/
structure SlotsApart (mh : MulHashT) : Prop where
  inside : ∀ row pos root, pos < mh.prime.getD row 0 → mh.slotRoot row pos = some root →
    ∀ keySize valueSize, 0 < keySize → keySize ≤ mh.maxKeySize → 0 < valueSize →
      valueSize ≤ mh.maxValueSize → root + (headerSize + keySize + valueSize) ≤ mh.area
  disjoint : ∀ row pos root row' pos' root', pos < mh.prime.getD row 0 →
    pos' < mh.prime.getD row' 0 → (row, pos) ≠ (row', pos') →
    mh.slotRoot row pos = some root → mh.slotRoot row' pos' = some root' →
    ∀ keySize valueSize keySize' valueSize', 0 < keySize → keySize ≤ mh.maxKeySize →
      0 < valueSize → valueSize ≤ mh.maxValueSize → 0 < keySize' → keySize' ≤ mh.maxKeySize →
      0 < valueSize' → valueSize' ≤ mh.maxValueSize →
      root + (headerSize + keySize + valueSize) ≤ root' ∨
        root' + (headerSize + keySize' + valueSize') ≤ root

/-! ## The number of a slot -/

/-- The number of a slot, counted over the rows. -/
def slotIndex (primes : List ℕ) (row pos : ℕ) : ℕ := (primes.take row).sum + pos

theorem sum_take_add_getD (primes : List ℕ) (row : ℕ) :
    (primes.take row).sum + primes.getD row 0 = (primes.take (row + 1)).sum := by
  induction primes generalizing row with
  | nil => simp
  | cons prime primes ih =>
      cases row with
      | zero => simp
      | succ row =>
          have hrest := ih row
          simp only [List.take_succ_cons, List.sum_cons, List.getD_cons_succ]
          omega

theorem sum_take_mono (primes : List ℕ) {row row' : ℕ} (h : row ≤ row') :
    (primes.take row).sum ≤ (primes.take row').sum := by
  induction h with
  | refl => exact le_refl _
  | step _ ih =>
      rw [← sum_take_add_getD]
      omega

theorem slotIndex_lt_sum {primes : List ℕ} {row pos : ℕ} (hpos : pos < primes.getD row 0) :
    slotIndex primes row pos < primes.sum := by
  have hle : (primes.take (row + 1)).sum ≤ primes.sum := by
    have hsplit := congrArg List.sum (List.take_append_drop (row + 1) primes)
    rw [List.sum_append] at hsplit
    omega
  have hsum := sum_take_add_getD primes row
  rw [slotIndex]
  omega

theorem slotIndex_injective {primes : List ℕ} {row pos row' pos' : ℕ}
    (hpos : pos < primes.getD row 0) (hpos' : pos' < primes.getD row' 0)
    (heq : slotIndex primes row pos = slotIndex primes row' pos') : (row, pos) = (row', pos') := by
  have hsum := sum_take_add_getD primes row
  have hsum' := sum_take_add_getD primes row'
  rw [slotIndex, slotIndex] at heq
  rcases Nat.lt_trichotomy row row' with hlt | rfl | hgt
  · have hmono : (primes.take (row + 1)).sum ≤ (primes.take row').sum := sum_take_mono primes hlt
    omega
  · rw [Nat.add_left_cancel heq]
  · have hmono : (primes.take (row' + 1)).sum ≤ (primes.take row).sum := sum_take_mono primes hgt
    omega

/-- The walk computes the root of a slot from its number while nothing wraps. -/
theorem rootsFrom_getElem {size hashKey : ℕ} (hsize : 0 < size) {primes : List ℕ} {startPos row : ℕ}
    (hlt : (startPos + primes.sum) * size < 18446744073709551616)
    (hrow : hashKey < primes.getD row 0) :
    (rootsFrom size hashKey primes startPos)[row]? =
      some ((startPos + slotIndex primes row hashKey) * size) := by
  induction primes generalizing startPos row with
  | nil => simp at hrow
  | cons prime primes ih =>
      have hbound : startPos + (prime :: primes).sum < 18446744073709551616 :=
        (Nat.le_mul_of_pos_right _ hsize).trans_lt hlt
      rw [List.sum_cons] at hlt hbound
      cases row with
      | zero =>
          have hprime : hashKey < prime := hrow
          have hpos : startPos + hashKey < 18446744073709551616 := by omega
          have hroot : (startPos + hashKey) * size < 18446744073709551616 :=
            (Nat.mul_le_mul_right _ (by omega)).trans_lt hlt
          rw [rootsFrom, List.getElem?_cons_zero, Nat.mod_eq_of_lt hprime, u8_of_lt hpos,
            u8_of_lt hroot, slotIndex, List.take_zero, List.sum_nil, Nat.zero_add]
      | succ row =>
          rw [rootsFrom, List.getElem?_cons_succ, u8_of_lt (by omega),
            ih (by rw [Nat.add_assoc]; exact hlt) hrow]
          congr 2
          rw [slotIndex, slotIndex, List.take_succ_cons, List.sum_cons]
          omega

/-! ## When slots are apart -/

/-- The tables `mul_hash_init` sets up, and when it does not refuse. -/
theorem mulHashRequest_eq_some {out : Option MulHashT}
    (h : mulHashRequest row col maxKeySize maxValueSize = some out) (haccept : out ≠ none) :
    ∃ primes, (1 < row ∧ 1 ≤ col ∧ 0 < maxKeySize ∧ 0 < maxValueSize) ∧
      getPrimeArr col row = some primes ∧
      primes.sum * elemSize maxKeySize maxValueSize < 9223372036854775808 ∧
      out = some ⟨maxKeySize, maxValueSize, primes.map Int.toNat,
        (primes.sum * elemSize maxKeySize maxValueSize).toNat, fun _ ↦ .zero⟩ := by
  unfold mulHashRequest at h
  split at h
  · rename_i hguard
    exact absurd (Option.some.inj h).symm haccept
  · rename_i hguard
    rcases Option.bind_eq_some_iff.mp h with ⟨primes, hprimes, h⟩
    split at h
    · exact absurd (Option.some.inj h).symm haccept
    · rcases Option.bind_eq_some_iff.mp h with ⟨elemNum, helem, h⟩
      rcases Option.bind_eq_some_iff.mp h with ⟨shmSize, hshm, h⟩
      obtain rfl := eq_of_n8 helem
      obtain rfl := eq_of_n8 hshm
      refine ⟨primes, by omega, hprimes, ?_, (Option.some.inj h).symm⟩
      exact (Option.ite_none_right_eq_some.mp hshm).1.2

theorem mulHashRequest_of_lt {primes : List ℤ}
    (haccept : mulHashRequest row col maxKeySize maxValueSize ≠ some none)
    (hprimes : getPrimeArr col row = some primes) (hnonneg : 0 ≤ primes.sum)
    (hsize : 0 < elemSize maxKeySize maxValueSize)
    (hlt : primes.sum * elemSize maxKeySize maxValueSize < 9223372036854775808) :
    mulHashRequest row col maxKeySize maxValueSize =
      some (some ⟨maxKeySize, maxValueSize, primes.map Int.toNat,
        (primes.sum * elemSize maxKeySize maxValueSize).toNat, fun _ ↦ .zero⟩) := by
  have hproduct : 0 ≤ primes.sum * elemSize maxKeySize maxValueSize :=
    Int.mul_nonneg hnonneg (Int.natCast_nonneg _)
  have hsum : primes.sum < 9223372036854775808 := by
    have hle : primes.sum * 1 ≤ primes.sum * elemSize maxKeySize maxValueSize :=
      Int.mul_le_mul_of_nonneg_left (by exact_mod_cast hsize) hnonneg
    omega
  unfold mulHashRequest at haccept ⊢
  split at haccept
  · exact absurd rfl haccept
  · rename_i hguard
    rw [hprimes, Option.bind_eq_bind, Option.bind_some] at haccept
    rw [if_neg hguard, hprimes, Option.bind_eq_bind, Option.bind_some]
    split at haccept
    · exact absurd rfl haccept
    · rename_i hlast
      rw [if_neg hlast, n8_of_range hnonneg hsum, Option.bind_eq_bind, Option.bind_some,
        n8_of_range hproduct hlt]
      rfl

/-- Slot number `j` has the bytes from `j * elem_size` on. -/
theorem slotRoot_eq {primes : List ℕ} {row pos root area : ℕ} {cells : ℕ → Cell}
    (hsize : 0 < elemSize maxKeySize maxValueSize)
    (hlt : primes.sum * elemSize maxKeySize maxValueSize < 18446744073709551616)
    (hpos : pos < primes.getD row 0)
    (hroot : MulHashT.slotRoot ⟨maxKeySize, maxValueSize, primes, area, cells⟩ row pos = some root) :
    root = slotIndex primes row pos * elemSize maxKeySize maxValueSize := by
  have heq : (rootsFrom (elemSize maxKeySize maxValueSize) pos primes 0)[row]? =
      some ((0 + slotIndex primes row pos) * elemSize maxKeySize maxValueSize) :=
    rootsFrom_getElem hsize (by rw [Nat.zero_add]; exact hlt) hpos
  rw [Nat.zero_add] at heq
  exact Option.some.inj (hroot.symm.trans heq)

theorem slotsApart_of_fits {primes : List ℕ} {cells : ℕ → Cell}
    (hfits : headerSize + maxKeySize + maxValueSize < 4294967296)
    (hlt : primes.sum * elemSize maxKeySize maxValueSize < 18446744073709551616) :
    SlotsApart ⟨maxKeySize, maxValueSize, primes,
      primes.sum * elemSize maxKeySize maxValueSize, cells⟩ := by
  have hunit : elemSize maxKeySize maxValueSize = headerSize + maxKeySize + maxValueSize :=
    u4_of_lt hfits
  have hsize : 0 < elemSize maxKeySize maxValueSize := by
    rw [hunit, headerSize]
    omega
  constructor
  · intro row pos root hpos hroot keySize valueSize _ hkey _ hvalue
    rw [slotRoot_eq hsize hlt hpos hroot]
    calc
      slotIndex primes row pos * elemSize maxKeySize maxValueSize +
            (headerSize + keySize + valueSize)
          ≤ slotIndex primes row pos * elemSize maxKeySize maxValueSize +
            elemSize maxKeySize maxValueSize := by
        rw [hunit]
        exact Nat.add_le_add_left (Nat.add_le_add (Nat.add_le_add_left hkey _) hvalue) _
      _ = (slotIndex primes row pos + 1) * elemSize maxKeySize maxValueSize :=
        (Nat.succ_mul _ _).symm
      _ ≤ primes.sum * elemSize maxKeySize maxValueSize :=
        Nat.mul_le_mul_right _ (slotIndex_lt_sum hpos)
  · intro row pos root row' pos' root' hpos hpos' hne hroot hroot' keySize valueSize keySize'
      valueSize' _ hkey _ hvalue _ hkey' _ hvalue'
    have hslots := Layout.apart (elemSize maxKeySize maxValueSize)
      (mt (slotIndex_injective hpos hpos') hne)
    rw [← slotRoot_eq hsize hlt hpos hroot, ← slotRoot_eq hsize hlt hpos' hroot', hunit] at hslots
    simp only at hkey hvalue hkey' hvalue'
    omega

/-- With a wrapped element size the second slot of the first row begins inside an element stored in
the first one. -/
theorem not_slotsApart_of_wraps {prime area : ℕ} {primes : List ℕ} {cells : ℕ → Cell}
    (hkey : maxKeySize < 65536) (hvalue : maxValueSize < 4294967296) (hpos : 0 < maxKeySize)
    (hprime : 1 < prime) (hwraps : 4294967296 ≤ headerSize + maxKeySize + maxValueSize) :
    ¬ SlotsApart ⟨maxKeySize, maxValueSize, prime :: primes, area, cells⟩ := by
  intro h
  have hsize : elemSize maxKeySize maxValueSize =
      headerSize + maxKeySize + maxValueSize - 4294967296 := by
    rw [elemSize, u4, headerSize] at *
    omega
  have hfirst : MulHashT.slotRoot ⟨maxKeySize, maxValueSize, prime :: primes, area, cells⟩ 0 0 =
      some 0 := by
    simp [MulHashT.slotRoot, MulHashT.roots, rootsFrom, u8]
  have hsecond : MulHashT.slotRoot ⟨maxKeySize, maxValueSize, prime :: primes, area, cells⟩ 0 1 =
      some (elemSize maxKeySize maxValueSize) := by
    have hlt : elemSize maxKeySize maxValueSize < 18446744073709551616 := by
      rw [hsize, headerSize]
      omega
    rw [MulHashT.slotRoot, MulHashT.roots, rootsFrom, List.getElem?_cons_zero,
      Nat.mod_eq_of_lt hprime, Nat.zero_add, u8_of_lt (show 1 < 18446744073709551616 by decide),
      Nat.one_mul, u8_of_lt hlt]
  have hslots := h.disjoint 0 0 0 0 1 _ (by simpa using Nat.zero_lt_of_lt hprime) (by simpa)
    (by simp) hfirst hsecond 1 maxValueSize 1 maxValueSize (by decide) hpos
    (by simp only [headerSize] at hwraps; omega) (le_refl _) (by decide) hpos
    (by simp only [headerSize] at hwraps; omega) (le_refl _)
  rw [hsize, headerSize] at hslots
  rw [headerSize] at hwraps
  omega

theorem request_small : mulHashRequest 2 3 4 4 = some (some twoRows) := by
  have hprimes : getPrimeArr 3 2 = some [5, 7] := by decide
  have hsize : elemSize 4 4 = 32 := u4_of_lt (by decide)
  rw [mulHashRequest, if_neg (by decide)]
  simp [hprimes, n8, hsize, twoRows]

theorem request_wrapped :
    mulHashRequest 2 3 1 4294967295 =
      some (some ⟨1, 4294967295, [5, 7], 288, fun _ ↦ .zero⟩) := by
  have hprimes : getPrimeArr 3 2 = some [5, 7] := by decide
  have hsize : elemSize 1 4294967295 = 24 := by
    unfold elemSize u4
    decide
  rw [mulHashRequest, if_neg (by decide)]
  simp [hprimes, n8, hsize]

end CPractice.MulHash
