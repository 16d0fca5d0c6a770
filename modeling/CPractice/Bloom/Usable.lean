import CPractice.Bloom.Serialization

/-!
# Filters with no bits

`create_bloom` multiplies the number of items by twenty in 32 bits, and `build_bloom` compares the
version tag and subtracts its length whatever the length of the buffer.  So some filters are smaller
than asked for, and some have no bits at all: `bloom_add` and `bloom_find` then take a remainder by
zero.
-/

namespace CPractice.Bloom

open Lib

/-- Every sequence of `bloom_add` and `bloom_find` works on the filter. -/
def Usable (bf : BloomT) : Prop := ∀ calls, (machine.execAll bf calls).isSome

/-- What `create_bloom` owes: twenty bits an item. -/
def Roomy (size : BitVec 32) : Prop :=
  20 * size.toNat ≤ (createBloom size).size ∧ Usable (createBloom size)

/-- What `build_bloom` owes: it reads inside the buffer, and what it makes has a byte. -/
def WellBuilt (buf : List Byte) : Prop :=
  ∃ ret, buildBloom buf = some ret ∧ ∀ bf, ret = some bf → 1 ≤ bf.filter.length ∧ Usable bf

theorem Made.covered {bf : BloomT} (h : Made bf) (hpos : 0 < bf.size) : Covered bf.size bf.filter := by
  have hsize := h.size_eq
  exact ⟨hpos, by omega, by omega⟩

/-- A filter with bits keeps them under every call. -/
theorem exec_covered {bf : BloomT} (h : Covered bf.size bf.filter) (call : FilterCall (List Byte)) :
    ∃ out, machine.exec bf call = some out ∧ Covered out.2.size out.2.filter := by
  cases call with
  | add str =>
      rcases filterLaws.add bf str h with ⟨bf', hexec, hcovered, -⟩
      exact ⟨_, hexec, hcovered⟩
  | find str => exact ⟨_, filterLaws.find bf str h, h⟩

theorem Covered.usable {bf : BloomT} (h : Covered bf.size bf.filter) : Usable bf := by
  intro calls
  induction calls generalizing bf with
  | nil => rfl
  | cons call calls ih =>
      rcases exec_covered h call with ⟨out, hexec, hnext⟩
      rw [Machine.execAll, hexec, Option.bind_some, Option.isSome_map]
      exact ih hnext

/-- Every call on a filter without bits takes a remainder by zero. -/
theorem exec_no_bits {bf : BloomT} (h : bf.size = 0) (call : FilterCall (List Byte)) :
    machine.exec bf call = none := by
  have hpos : ∀ hash, hashPos bf.size hash = none := fun _ ↦ by rw [hashPos, if_pos h]
  cases call with
  | add str =>
      change (bloomAdd bf str).map _ = none
      rw [bloomAdd, gHash, List.foldlM_cons, hpos]
      rfl
  | find str =>
      change (bloomFind bf str).map _ = none
      rw [bloomFind, gHash, findLoop, hpos]
      rfl

/-- Exactly the filters with bits are usable. -/
theorem Made.usable_iff {bf : BloomT} (h : Made bf) : Usable bf ↔ 0 < bf.size := by
  constructor
  · intro husable
    by_contra hnot
    have hcall := husable [.find []]
    rw [Machine.execAll, exec_no_bits (by omega)] at hcall
    cases hcall
  · intro hpos
    exact (h.covered hpos).usable

/-! ## `create_bloom` -/

/-- The number of bits: the product in 32 bits, rounded up to bytes. -/
theorem createBloom_size (size : BitVec 32) :
    (createBloom size).size = (20 * size.toNat % 4294967296 + 7) / 8 * 8 := by
  have hproduct : (size * 20#32).toNat = 20 * size.toNat % 4294967296 := by
    rw [BitVec.toNat_mul, Nat.mul_comm]
    rfl
  have hrest : (size * 20#32 % 8#32).toNat = 20 * size.toNat % 4294967296 % 8 := by
    rw [BitVec.toNat_umod, hproduct]
    rfl
  have hround : (if size * 20#32 % 8#32 ≠ 0#32 then 1#32 else 0#32).toNat =
      if 20 * size.toNat % 4294967296 % 8 ≠ 0 then 1 else 0 := by
    rw [← hrest, apply_ite BitVec.toNat]
    simp only [ne_eq, BitVec.toNat_eq, BitVec.toNat_ofNat, Nat.zero_mod, Nat.reducePow, Nat.reduceMod]
  change ((size * 20#32) >>> 3 + if size * 20#32 % 8#32 ≠ 0#32 then 1#32 else 0#32).toNat * 8 = _
  rw [BitVec.toNat_add, BitVec.toNat_ushiftRight, Nat.shiftRight_eq_div_pow, hproduct, hround]
  split
  · omega
  · omega

theorem createBloom_size_ge_iff (size : BitVec 32) :
    20 * size.toNat ≤ (createBloom size).size ↔ 20 * size.toNat < 4294967296 := by
  rw [createBloom_size]
  have hlt := size.isLt
  omega

theorem createBloom_usable_iff (size : BitVec 32) :
    Usable (createBloom size) ↔ size.toNat % 1073741824 ≠ 0 := by
  have hproduct : 20 * size.toNat % 4294967296 = 4 * (5 * size.toNat % 1073741824) := by
    rw [show 20 * size.toNat = 4 * (5 * size.toNat) by omega]
    exact Nat.mul_mod_mul_left 4 (5 * size.toNat) 1073741824
  calc
    Usable (createBloom size) ↔ 0 < (createBloom size).size := (Made.create size).usable_iff
    _ ↔ 5 * size.toNat % 1073741824 ≠ 0 := by
      rw [createBloom_size, hproduct]
      generalize 5 * size.toNat % 1073741824 = rest
      omega
    _ ↔ size.toNat % 1073741824 ≠ 0 := by
      rw [ne_eq, ne_eq, ← Nat.dvd_iff_mod_eq_zero, ← Nat.dvd_iff_mod_eq_zero,
        Nat.Coprime.dvd_mul_left (by decide)]

theorem roomy_iff {size : BitVec 32} (h : 1 ≤ size.toNat) :
    Roomy size ↔ 20 * size.toNat < 4294967296 := by
  rw [Roomy, createBloom_size_ge_iff, createBloom_usable_iff]
  refine and_iff_left_of_imp fun hlt ↦ ?_
  rw [Nat.mod_eq_of_lt (by omega)]
  omega

/-! ## `build_bloom` -/

theorem wellBuilt_iff (buf : Buffer) :
    WellBuilt buf.bytes ↔
      buf.bytes = [] ∨ bloomVersion.length ≤ buf.bytes.length ∧ buf.bytes ≠ bloomVersion := by
  by_cases hnil : buf.bytes = []
  · exact iff_of_true ⟨none, if_pos hnil, by simp⟩ (.inl hnil)
  by_cases hshort : buf.bytes.length < bloomVersion.length
  · have hfault : buildBloom buf.bytes = none := by
      rw [buildBloom, if_neg hnil, if_pos hshort]
    refine iff_of_false ?_ (by simp [hnil, hshort])
    rintro ⟨ret, hret, -⟩
    rw [hfault] at hret
    cases hret
  by_cases htag : buf.bytes.take bloomVersion.length = bloomVersion
  · have haccept : ∃ bf, buildBloom buf.bytes = some (some bf) := by
      rw [buildBloom, if_neg hnil, if_neg hshort, if_neg (not_not.mpr htag)]
      exact ⟨_, rfl⟩
    rcases haccept with ⟨bf, hbuild⟩
    have hbytes := (buildBloom_eq_some_iff.mp hbuild).1
    have hmade := Made.build hbuild
    have hempty : buf.bytes = bloomVersion ↔ bf.filter = [] := by
      rw [hbytes, List.append_right_eq_self]
    have hpos : 1 ≤ bf.filter.length ↔ bf.filter ≠ [] := List.length_pos_iff
    calc
      WellBuilt buf.bytes ↔ 1 ≤ bf.filter.length ∧ Usable bf := by
        simp [WellBuilt, hbuild]
      _ ↔ bf.filter ≠ [] := by
        rw [hmade.usable_iff, hmade.size_eq, ← hpos]
        omega
      _ ↔ buf.bytes = [] ∨ bloomVersion.length ≤ buf.bytes.length ∧ buf.bytes ≠ bloomVersion := by
        simp [hnil, not_lt.mp hshort, hempty]
  · have hreject : buildBloom buf.bytes = some none := by
      rw [buildBloom, if_neg hnil, if_neg hshort, if_pos htag]
    have hne : buf.bytes ≠ bloomVersion := by
      intro heq
      rw [heq, List.take_length] at htag
      exact htag rfl
    exact iff_of_true ⟨none, hreject, by simp⟩ (.inr ⟨not_lt.mp hshort, hne⟩)

/-- `create_bloom` keeps its promise just if the number of bits does not wrap, and `build_bloom` just
if the buffer is empty, or not shorter than the version tag and not the tag alone.  What
`create_bloom` makes is unusable just for the multiples of `2 ^ 30`. -/
theorem bloom_usable_iff (size : BitVec 32) (h : 1 ≤ size.toNat) (buf : Buffer) :
    (Roomy size ↔ 20 * size.toNat < 4294967296) ∧
      (Usable (createBloom size) ↔ size.toNat % 1073741824 ≠ 0) ∧
      (WellBuilt buf.bytes ↔
        buf.bytes = [] ∨ bloomVersion.length ≤ buf.bytes.length ∧ buf.bytes ≠ bloomVersion) :=
  ⟨roomy_iff h, createBloom_usable_iff size, wellBuilt_iff buf⟩

theorem bloom_usable_iff_small :
    Roomy 214748364 ∧ Usable (createBloom 214748364) ∧ WellBuilt (bloomVersion ++ [5]) := by
  have husable := bloom_usable_iff 214748364 (by decide) ⟨bloomVersion ++ [5], by decide⟩
  exact ⟨husable.1.mpr (by decide), husable.2.1.mpr (by decide), husable.2.2.mpr (by decide)⟩

/-- `2 ^ 30` items make a filter without bits, and so does the version tag alone; behind a single byte
`build_bloom` reads on. -/
theorem bloom_without_bits :
    ¬ Roomy 1073741824 ∧ ¬ WellBuilt bloomVersion ∧ ¬ WellBuilt [99] ∧
      (createBloom 1073741824).size = 0 ∧ bloomAdd (createBloom 1073741824) [97] = none ∧
      buildBloom bloomVersion = some (some ⟨0, []⟩) ∧ bloomFind ⟨0, []⟩ [97] = none ∧
      buildBloom [99] = none := by
  refine ⟨?_, ?_, ?_, ?_⟩
  · exact fun h ↦ absurd ((roomy_iff (by decide)).mp h) (by decide)
  · exact fun h ↦ absurd ((wellBuilt_iff ⟨bloomVersion, by decide⟩).mp h) (by decide)
  · exact fun h ↦ absurd ((wellBuilt_iff ⟨[99], by decide⟩).mp h) (by decide)
  · with_unfolding_all decide

end CPractice.Bloom
