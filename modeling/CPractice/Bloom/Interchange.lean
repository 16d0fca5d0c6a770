import CPractice.Bloom.NoFalseNegatives
import Mathlib.Data.List.TakeWhile

/-!
# Dictionaries of the other implementation

A dictionary is the version tag and the bytes of a filter, and both implementations number the bits of
the bytes alike.  But they have their own lists of hash functions.  Four functions give the same value
for every ASCII string; the others are in one list only, have another seed, or shift a value with its
sign.  So a string that one implementation added is found by the other just if the positions of those
other functions happen to be set as well.
-/

namespace CPractice.Bloom

open Lib

/-- An ASCII string, as the C functions see it. -/
def IsAscii (str : List Byte) : Prop := ∀ c ∈ str, c ≠ 0 ∧ c.toNat < 128

/-- The same string in Java. -/
def javaString (str : List Byte) : Java.Chars := str.map (·.setWidth 16)

/-- The functions of both lists that compute the same. -/
def sharedHashes : List ((List Byte → BitVec 32) × (Java.Chars → BitVec 32)) :=
  [(simpleHash, Java.bkdr), (rsHash, Java.rs), (sdbmHash, Java.sdbm), (djbHash, Java.djb)]

/-- The other functions of `g_hash`. -/
def otherHashes : List (List Byte → BitVec 32) := [jsHash, pjwHash, bkdrHash, apHash]

/-- The other functions of `hash_calc`. -/
def Java.otherHashes : List (Java.Chars → BitVec 32) :=
  [Java.fnv1, Java.js, Java.pjw, Java.elf, Java.ap, Java.dek, Java.bernstein, Java.rotate, Java.mix]

/-! ## The shared functions -/

theorem chars_ascii {str : List Byte} (h : IsAscii str) : chars str = str :=
  List.takeWhile_eq_self_iff.mpr fun c hc ↦ decide_eq_true (h c hc).1

theorem signExtend_ascii {c : Byte} (h : c.toNat < 128) :
    c.signExtend 32 = (c.setWidth 16).setWidth 32 := by
  have hmsb : c.msb = false := BitVec.msb_eq_false_iff_two_mul_lt.mpr (by omega)
  rw [BitVec.signExtend_eq_setWidth_of_msb_false hmsb]
  apply BitVec.eq_of_toNat_eq
  simp only [BitVec.toNat_setWidth]
  omega

theorem setWidth_ascii (c : Byte) : c.setWidth 32 = (c.setWidth 16).setWidth 32 := by
  apply BitVec.eq_of_toNat_eq
  simp only [BitVec.toNat_setWidth]
  omega

/-- A loop over the characters of an ASCII string, each widened to 32 bits. -/
theorem foldl_ascii {β : Type} (step : β → BitVec 32 → β) (widen : Byte → BitVec 32)
    (hwiden : ∀ c : Byte, c.toNat < 128 → widen c = (c.setWidth 16).setWidth 32) {str : List Byte}
    (h : IsAscii str) (init : β) :
    (chars str).foldl (fun b c ↦ step b (widen c)) init =
      (javaString str).foldl (fun b c ↦ step b (c.setWidth 32)) init := by
  rw [chars_ascii h, javaString, List.foldl_map]
  induction str generalizing init with
  | nil => rfl
  | cons c str ih =>
      rw [List.foldl_cons, List.foldl_cons, hwiden c (h c List.mem_cons_self).2]
      exact ih (fun c' hc' ↦ h c' (List.mem_cons_of_mem c hc')) _

theorem sharedHashes_eq {pair : (List Byte → BitVec 32) × (Java.Chars → BitVec 32)}
    (hpair : pair ∈ sharedHashes) {str : List Byte} (h : IsAscii str) :
    pair.1 str = pair.2 (javaString str) := by
  have hsigned : ∀ c : Byte, c.toNat < 128 → c.signExtend 32 = (c.setWidth 16).setWidth 32 :=
    fun _ hc ↦ signExtend_ascii hc
  simp only [sharedHashes, List.mem_cons, List.not_mem_nil, or_false] at hpair
  rcases hpair with rfl | rfl | rfl | rfl
  · have hloop := foldl_ascii (fun hash c ↦ 31 * hash + c) _ (fun c _ ↦ setWidth_ascii c) h 0
    simp only [simpleHash, Java.bkdr, hloop]
    simp only [BitVec.mul_comm]
  · exact congrArg (fun out : BitVec 32 × BitVec 32 ↦ positive out.1)
      (foldl_ascii (fun (hash, a) c ↦ (hash * a + c, a * 378551)) _ hsigned h _)
  · exact congrArg positive (foldl_ascii
      (fun (hash : BitVec 32) c ↦ c + (hash <<< 6) + (hash <<< 16) - hash) _ hsigned h 0)
  · exact congrArg positive (foldl_ascii
      (fun (hash : BitVec 32) c ↦ hash + ((hash <<< 5) + c)) _ hsigned h 5381)

/-! ## Filling a filter -/

theorem fill_eq {bf : BloomT} (h : 0 < bf.size) (strs : List (List Byte)) :
    strs.foldlM bloomAdd bf =
      ((strs.flatMap (positions bf.size)).foldlM orBit bf.filter).map
        fun filter ↦ { bf with filter } := by
  induction strs generalizing bf with
  | nil => rfl
  | cons str strs ih =>
      rw [List.foldlM_cons, bloomAdd_eq h, List.flatMap_cons, List.foldlM_append]
      cases (positions bf.size str).foldlM orBit bf.filter with
      | none => rfl
      | some filter => exact ih h

theorem Java.fill_eq {filter : BloomObject} (h : 0 < filter.size.toInt) (strs : List Java.Chars) :
    strs.foldlM Java.put filter =
      ((strs.flatMap (Java.positions filter.size.toNat)).foldlM orBit filter.bitset).map
        fun bitset ↦ { filter with bitset } := by
  induction strs generalizing filter with
  | nil => rfl
  | cons str strs ih =>
      rw [List.foldlM_cons, Java.put_eq h, List.flatMap_cons, List.foldlM_append]
      cases (Java.positions filter.size.toNat str).foldlM orBit filter.bitset with
      | none => rfl
      | some bitset => exact ih h

/-- A filter with all its bits in the array, filled with strings. -/
theorem fill_spec {bf : BloomT} (h : Covered bf.size bf.filter) (strs : List (List Byte)) :
    ∃ filter, strs.foldlM bloomAdd bf = some { bf with filter } ∧
      filter.length = bf.filter.length ∧
      ∀ str ∈ strs, ∀ pos ∈ positions bf.size str, bitAt filter pos := by
  have hpos : ∀ pos ∈ strs.flatMap (positions bf.size), pos / 8 < bf.filter.length := by
    intro pos hpos
    rcases List.mem_flatMap.mp hpos with ⟨str, -, hpos⟩
    exact (filterLaws.inside bf str h pos hpos).2.trans_le h.size_le
  rcases orBits_spec hpos with ⟨filter, hfold, hlength, hbit⟩
  refine ⟨filter, by rw [fill_eq h.size_pos, hfold]; rfl, hlength, ?_⟩
  intro str hstr pos hmem
  rw [hbit, decide_eq_true (List.mem_flatMap.mpr ⟨str, hstr, hmem⟩), Bool.or_true]

theorem Java.fill_spec {filter : Java.BloomObject} (h : Java.Fits filter) (strs : List Java.Chars) :
    ∃ bitset, strs.foldlM Java.put filter = some { filter with bitset } ∧
      bitset.length = filter.bitset.length ∧
      ∀ str ∈ strs, ∀ pos ∈ Java.positions filter.size.toNat str, bitAt bitset pos := by
  have hpos : ∀ pos ∈ strs.flatMap (Java.positions filter.size.toNat),
      pos / 8 < filter.bitset.length := by
    intro pos hpos
    rcases List.mem_flatMap.mp hpos with ⟨str, -, hpos⟩
    exact (Java.filterLaws.inside filter str h pos hpos).2.trans_le h.2.size_le
  rcases orBits_spec hpos with ⟨bitset, hfold, hlength, hbit⟩
  refine ⟨bitset, by rw [Java.fill_eq h.1, hfold]; rfl, hlength, ?_⟩
  intro str hstr pos hmem
  rw [hbit, decide_eq_true (List.mem_flatMap.mpr ⟨str, hstr, hmem⟩), Bool.or_true]

/-! ## Loading a dictionary -/

theorem buildBloom_dictionary (filter : List Byte) (h : filter.length * 8 < 18446744073709551616) :
    buildBloom (bloomVersion ++ filter) = some (some ⟨filter.length * 8, filter⟩) := by
  have hne : bloomVersion ++ filter ≠ [] := by simp [bloomVersion]
  have hle : ¬ (bloomVersion ++ filter).length < bloomVersion.length := by simp
  rw [buildBloom, if_neg hne, if_neg hle, List.take_left, if_neg (by simp), List.drop_left]
  simp only [u8_of_lt h]

/-- An `int` shifted right by three and rounded up. -/
theorem Java.bytes_le (size : BitVec 32) (up : Prop) [Decidable up]
    (h : 0 ≤ (size.sshiftRight 3 + if up then 1 else 0).toInt) :
    (size.sshiftRight 3 + if up then 1 else 0).toNat ≤ 268435456 := by
  have hlo := size.le_toInt
  have hhi := size.toInt_lt
  have hup : (0 : ℤ) ≤ (if up then 1 else 0 : BitVec 32).toInt ∧
      (if up then 1 else 0 : BitVec 32).toInt ≤ 1 := by
    split
    · decide
    · decide
  have hsum : (size.sshiftRight 3 + if up then 1 else 0).toInt ≤ 268435456 := by
    rw [BitVec.toInt_add, BitVec.toInt_sshiftRight, Int.shiftRight_eq_div_pow,
      Int.bmod_eq_of_le (by omega) (by omega)]
    omega
  rw [BitVec.toInt_eq_toNat_of_msb
    (BitVec.msb_eq_false_iff_two_mul_lt.mpr (BitVec.toInt_pos_iff.mp h))] at hsum
  exact_mod_cast hsum

/-- `new bloom(size)` with a positive `size_` has just the bytes for its bits. -/
theorem Java.ofSize_exact {size : BitVec 32} {filter : Java.BloomObject}
    (hsize : Java.ofSize size = some filter) (hpos : 0 < filter.size.toInt) :
    Java.Fits filter ∧ filter.size.toNat = filter.bitset.length * 8 := by
  have hfits := Java.filterLaws.init filter ⟨.inl ⟨size, hsize⟩, hpos⟩
  rcases Option.ite_none_left_eq_some.mp hsize with ⟨hbytes, hsome⟩
  obtain rfl := Option.some.inj hsome
  have hle := Java.bytes_le _ _ (not_lt.mp hbytes)
  refine ⟨hfits, ?_⟩
  simp only [List.length_replicate, BitVec.toNat_shiftLeft, Nat.shiftLeft_eq]
  omega

theorem Java.ofDict_exact {dict : List Byte} (hpos : 0 < dict.length)
    (hlt : dict.length * 8 < 2147483648) :
    Java.Fits (Java.ofDict dict) ∧ (Java.ofDict dict).size.toNat = dict.length * 8 := by
  have hnat : (Java.ofDict dict).size.toNat = dict.length * 8 := by
    simp only [Java.ofDict, BitVec.toNat_shiftLeft, BitVec.toNat_ofNat, Nat.shiftLeft_eq]
    omega
  have hint : 0 < (Java.ofDict dict).size.toInt := by
    rw [BitVec.toInt_eq_toNat_of_msb (BitVec.msb_eq_false_iff_two_mul_lt.mpr (by omega)), hnat]
    omega
  exact ⟨Java.filterLaws.init _ ⟨.inr ⟨dict, rfl⟩, hint⟩, hnat⟩

/-! ## Finding with the other functions -/

theorem bloomFind_eq_zero_iff {bf : BloomT} (h : Covered bf.size bf.filter) (str : List Byte) :
    bloomFind bf str = some 0 ↔ ∀ hash ∈ gHash, bitAt bf.filter ((hash str).toNat % bf.size) := by
  rw [bloomFind, findLoop_eq h]
  simp

theorem Java.find_eq_true_iff {filter : Java.BloomObject} (h : Java.Fits filter) (str : Java.Chars) :
    Java.find filter str = some true ↔
      ∀ hash ∈ Java.hashCalc, bitAt filter.bitset ((hash str).toNat % filter.size.toNat) := by
  rw [Java.find, Java.findLoop_eq h str (List.Subset.refl _)]
  simp

theorem forall_gHash {p : (List Byte → BitVec 32) → Prop} :
    (∀ hash ∈ gHash, p hash) ↔ (∀ pair ∈ sharedHashes, p pair.1) ∧ ∀ hash ∈ otherHashes, p hash := by
  simp only [gHash, sharedHashes, otherHashes, List.forall_mem_cons, List.not_mem_nil,
    IsEmpty.forall_iff, implies_true, and_true]
  constructor
  · rintro ⟨simple, rs, js, pjw, bkdr, sdbm, djb, ap⟩
    exact ⟨⟨simple, rs, sdbm, djb⟩, js, pjw, bkdr, ap⟩
  · rintro ⟨⟨simple, rs, sdbm, djb⟩, js, pjw, bkdr, ap⟩
    exact ⟨simple, rs, js, pjw, bkdr, sdbm, djb, ap⟩

theorem Java.forall_hashCalc {p : (Java.Chars → BitVec 32) → Prop} :
    (∀ hash ∈ Java.hashCalc, p hash) ↔
      (∀ pair ∈ sharedHashes, p pair.2) ∧ ∀ hash ∈ Java.otherHashes, p hash := by
  simp only [Java.hashCalc, sharedHashes, Java.otherHashes, List.forall_mem_cons, List.not_mem_nil,
    IsEmpty.forall_iff, implies_true, and_true]
  constructor
  · rintro ⟨fnv1, rs, js, pjw, elf, bkdr, sdbm, djb, ap, dek, bernstein, rotate, mix⟩
    exact ⟨⟨bkdr, rs, sdbm, djb⟩, fnv1, js, pjw, elf, ap, dek, bernstein, rotate, mix⟩
  · rintro ⟨⟨bkdr, rs, sdbm, djb⟩, fnv1, js, pjw, elf, ap, dek, bernstein, rotate, mix⟩
    exact ⟨fnv1, rs, js, pjw, elf, bkdr, sdbm, djb, ap, dek, bernstein, rotate, mix⟩

/-- For every list of ASCII strings.  A dictionary written by Java is accepted by `build_bloom` with
the same bits, and `bloom_find` finds a string of the list just if the positions of the other C
functions are set; a dictionary written by C is read by Java with the same bits, and `find` finds a
string of the list just if the positions of the other Java functions are set.  The shared functions
agree on the strings and their positions are set. -/
theorem dictionary_find_iff {strs : List (List Byte)} (hascii : ∀ str ∈ strs, IsAscii str) :
    (∀ size filter, Java.ofSize size = some filter → 0 < filter.size.toInt →
      ∃ bitset, (strs.map javaString).foldlM Java.put filter = some { filter with bitset } ∧
        buildBloom (bloomVersion ++ bitset) = some (some ⟨filter.size.toNat, bitset⟩) ∧
        ∀ str ∈ strs,
          (∀ pair ∈ sharedHashes, pair.1 str = pair.2 (javaString str) ∧
            bitAt bitset ((pair.1 str).toNat % filter.size.toNat)) ∧
          (bloomFind ⟨filter.size.toNat, bitset⟩ str = some 0 ↔
            ∀ hash ∈ otherHashes, bitAt bitset ((hash str).toNat % filter.size.toNat))) ∧
    ∀ size, 0 < (createBloom size).size → (createBloom size).size < 2147483648 →
      ∃ filter, strs.foldlM bloomAdd (createBloom size) = some { createBloom size with filter } ∧
        bloomSerialize { createBloom size with filter } = bloomVersion ++ filter ∧
        (Java.ofDict filter).size.toNat = (createBloom size).size ∧
        ∀ str ∈ strs,
          (∀ pair ∈ sharedHashes, pair.1 str = pair.2 (javaString str) ∧
            bitAt filter ((pair.2 (javaString str)).toNat % (createBloom size).size)) ∧
          (Java.find (Java.ofDict filter) (javaString str) = some true ↔
            ∀ hash ∈ Java.otherHashes,
              bitAt filter ((hash (javaString str)).toNat % (createBloom size).size)) := by
  constructor
  · intro size filter hsize hpos
    rcases Java.ofSize_exact hsize hpos with ⟨hfits, hexact⟩
    rcases Java.fill_spec hfits (strs.map javaString) with ⟨bitset, hfill, hlength, hbits⟩
    have hcovered : Covered filter.size.toNat bitset :=
      ⟨hfits.2.size_pos, hfits.2.size_mod, hlength.symm ▸ hfits.2.size_le⟩
    have hbuild := buildBloom_dictionary bitset (by have := filter.size.isLt; omega)
    rw [hlength, ← hexact] at hbuild
    refine ⟨bitset, hfill, hbuild, ?_⟩
    intro str hstr
    have hshared : ∀ pair ∈ sharedHashes, pair.1 str = pair.2 (javaString str) ∧
        bitAt bitset ((pair.1 str).toNat % filter.size.toNat) := by
      intro pair hpair
      have heq := sharedHashes_eq hpair (hascii str hstr)
      refine ⟨heq, hbits _ (List.mem_map_of_mem hstr) _ ?_⟩
      rw [heq]
      exact List.mem_map_of_mem (Java.forall_hashCalc.mp (fun _ h ↦ h) |>.1 pair hpair)
    refine ⟨hshared, ?_⟩
    rw [bloomFind_eq_zero_iff hcovered, forall_gHash]
    exact and_iff_right fun pair hpair ↦ (hshared pair hpair).2
  · intro size hpos hlt
    have hcovered := createBloom_covered size hpos
    rcases fill_spec hcovered strs with ⟨filter, hfill, hlength, hbits⟩
    have hexact : filter.length * 8 = (createBloom size).size := by
      rw [hlength, createBloom, List.length_replicate]
    have hloaded : Java.Fits (Java.ofDict filter) ∧
        (Java.ofDict filter).size.toNat = filter.length * 8 :=
      Java.ofDict_exact (by omega) (by omega)
    rcases hloaded with ⟨hfits, hsize⟩
    rw [hexact] at hsize
    refine ⟨filter, hfill, ?_, hsize, ?_⟩
    · rw [bloomSerialize, Nat.shiftRight_eq_div_pow, ← hexact,
        show filter.length * 8 / 2 ^ 3 = filter.length by omega, List.take_length]
    · intro str hstr
      have hshared : ∀ pair ∈ sharedHashes, pair.1 str = pair.2 (javaString str) ∧
          bitAt filter ((pair.2 (javaString str)).toNat % (createBloom size).size) := by
        intro pair hpair
        have heq := sharedHashes_eq hpair (hascii str hstr)
        refine ⟨heq, hbits str hstr _ ?_⟩
        rw [← heq]
        exact List.mem_map_of_mem (forall_gHash.mp (fun _ h ↦ h) |>.1 pair hpair)
      refine ⟨hshared, ?_⟩
      rw [Java.find_eq_true_iff hfits, Java.forall_hashCalc, hsize]
      exact and_iff_right fun pair hpair ↦ (hshared pair hpair).2

theorem dictionary_find_small :
    ∃ bitset, [javaString [97]].foldlM Java.put ⟨32, [0, 0, 0, 0]⟩ = some ⟨32, bitset⟩ ∧
      buildBloom (bloomVersion ++ bitset) = some (some ⟨32, bitset⟩) := by
  have hascii : ∀ str ∈ [[97]], IsAscii str := by
    unfold IsAscii
    decide
  rcases (dictionary_find_iff hascii).1 1 _ Java.ofSize_one (by decide) with
    ⟨bitset, hfill, hbuild, -⟩
  exact ⟨bitset, hfill, hbuild⟩

/-- The string `ab` is put into a dictionary by one implementation and not found by the other, in
either direction. -/
theorem dictionary_not_found :
    (∃ filter bf, Java.ofSize 1 = some ⟨32, [0, 0, 0, 0]⟩ ∧
      Java.put ⟨32, [0, 0, 0, 0]⟩ (javaString [97, 98]) = some filter ∧
      buildBloom (bloomVersion ++ filter.bitset) = some (some bf) ∧
      bloomFind bf [97, 98] = some (-2)) ∧
    ∃ bf, bloomAdd (createBloom 1) [97, 98] = some bf ∧
      Java.find (Java.ofDict ((bloomSerialize bf).drop bloomVersion.length)) (javaString [97, 98]) =
        some false :=
  ⟨⟨⟨32, [14, 1, 30, 129]⟩, ⟨32, [14, 1, 30, 129]⟩, Java.ofSize_one, by decide,
    by with_unfolding_all decide, by with_unfolding_all decide⟩, ⟨24, [1, 35, 132]⟩, by with_unfolding_all decide, by with_unfolding_all decide⟩

end CPractice.Bloom
