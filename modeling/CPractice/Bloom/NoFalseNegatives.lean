import CPractice.Bloom.Model

/-!
# No false negatives

Both implementations satisfy the laws of a filter of bits: a position is a remainder by the number of
bits, which is a multiple of eight and covered by the array, and the arithmetic on signed bytes sets
and tests just the bit at the position, the highest one of a byte included.
-/

namespace CPractice.Bloom

open Lib

/-! ## One bit -/

theorem getLsbD_widened (byte : Byte) {k : ℕ} (hk : k < 8) :
    (byte.signExtend 32).getLsbD k = byte.getLsbD k := by
  rw [BitVec.getLsbD_signExtend, if_pos hk, decide_eq_true (by omega), Bool.true_and]

theorem widened_or (byte : Byte) {k : ℕ} (hk : k < 8) :
    (byte.signExtend 32 ||| (1#32 <<< k)).setWidth 8 = byte ||| BitVec.twoPow 8 k := by
  apply BitVec.eq_of_getLsbD_eq
  intro i hi
  change ((byte.signExtend 32 ||| BitVec.twoPow 32 k).setWidth 8).getLsbD i = _
  rw [BitVec.getLsbD_setWidth, BitVec.getLsbD_or, BitVec.getLsbD_or, getLsbD_widened byte hi,
    BitVec.getLsbD_twoPow, BitVec.getLsbD_twoPow, decide_eq_true hi, decide_eq_true hk,
    decide_eq_true (show k < 32 by omega), Bool.true_and]

/-- The masked byte, cut to a width of at least eight, is zero just if the bit is not set. -/
theorem masked_eq_zero_iff (byte : Byte) {k w : ℕ} (hk : k < 8) (hw : 8 ≤ w) :
    (byte.signExtend 32 &&& (1#32 <<< k)).setWidth w = 0#w ↔ byte.getLsbD k = false := by
  change (byte.signExtend 32 &&& BitVec.twoPow 32 k).setWidth w = 0#w ↔ _
  rw [BitVec.and_twoPow, getLsbD_widened byte hk]
  cases byte.getLsbD k with
  | false => simp
  | true =>
      have hset : ((BitVec.twoPow 32 k).setWidth w).getLsbD k = true := by
        rw [BitVec.getLsbD_setWidth, BitVec.getLsbD_twoPow, decide_eq_true (by omega),
          decide_eq_true (by omega), decide_eq_true rfl]
        rfl
      simp only [if_true, Bool.true_eq_false, iff_false]
      intro hzero
      rw [hzero, BitVec.getLsbD_zero] at hset
      cases hset

theorem setBit_eq (array : List Byte) (pos : ℕ) : setBit array pos = orBit array pos := by
  simp only [setBit, orBit, Nat.shiftRight_eq_div_pow, Nat.reducePow,
    widened_or _ (Nat.mod_lt pos (show 0 < 8 by decide))]

/-- The byte at a position, for the two tests. -/
theorem byte_at {array : List Byte} {pos : ℕ} (hpos : pos / 8 < array.length) :
    ∃ byte, array[pos >>> 3]? = some byte ∧ byte.getLsbD (pos % 8) = bitAt array pos := by
  refine ⟨array[pos / 8], ?_, ?_⟩
  · rw [Nat.shiftRight_eq_div_pow, List.getElem?_eq_getElem hpos]
  · rw [bitAt, List.getElem?_eq_getElem hpos, Option.getD_some]

theorem getBit_spec {array : List Byte} {pos : ℕ} (hpos : pos / 8 < array.length) :
    ∃ flag, getBit array pos = some flag ∧ (flag = 0 ↔ bitAt array pos = false) := by
  rcases byte_at hpos with ⟨byte, hbyte, hbit⟩
  refine ⟨_, by rw [getBit, hbyte, Option.map_some], ?_⟩
  have hmask := masked_eq_zero_iff byte (Nat.mod_lt pos (show 0 < 8 by decide))
    (show 8 ≤ 32 by decide)
  rwa [BitVec.setWidth_eq, hbit] at hmask

theorem Java.getFlag_spec {bitset : List Byte} {pos : ℕ} (hpos : pos / 8 < bitset.length) :
    ∃ flag, Java.getFlag bitset pos = some flag ∧ (flag = 0 ↔ bitAt bitset pos = false) := by
  rcases byte_at hpos with ⟨byte, hbyte, hbit⟩
  refine ⟨_, by rw [Java.getFlag, hbyte, Option.map_some], ?_⟩
  have hmask := masked_eq_zero_iff byte (Nat.mod_lt pos (show 0 < 8 by decide)) (Nat.le_refl 8)
  rwa [hbit] at hmask

/-! ## `bloom.c` -/

/-- The number of bits is a multiple of eight and the array has them. -/
structure Covered (size : ℕ) (array : List Byte) : Prop where
  size_pos : 0 < size
  size_mod : size % 8 = 0
  size_le : size / 8 ≤ array.length

theorem Covered.inside {size : ℕ} {array : List Byte} (h : Covered size array) (hash : ℕ) :
    hash % size < size ∧ hash % size / 8 < size / 8 := by
  have hlt := Nat.mod_lt hash h.size_pos
  have hmod := h.size_mod
  omega

/-- The positions a C string is hashed to. -/
def positions (size : ℕ) (str : List Byte) : List ℕ :=
  gHash.map fun hash ↦ (hash str).toNat % size

def view : FilterView BloomT (List Byte) where
  size := BloomT.size
  bit bf := bitAt bf.filter
  positions bf := positions bf.size

theorem hashPos_eq {capability : ℕ} (h : 0 < capability) (hash : BitVec 32) :
    hashPos capability hash = some (hash.toNat % capability) := by
  rw [hashPos, if_neg (Nat.ne_of_gt h), u4_of_lt]
  exact (Nat.mod_le _ _).trans_lt hash.isLt

theorem bloomAdd_eq {bf : BloomT} (h : 0 < bf.size) (str : List Byte) :
    bloomAdd bf str =
      ((positions bf.size str).foldlM orBit bf.filter).map fun filter ↦ { bf with filter } := by
  rw [bloomAdd, positions, List.foldlM_map]
  simp only [hashPos_eq h, Option.bind_eq_bind, Option.bind_some, setBit_eq, Option.map_eq_bind]
  rfl

theorem findLoop_eq {bf : BloomT} (h : Covered bf.size bf.filter) (str : List Byte)
    (hashes : List (List Byte → BitVec 32)) :
    findLoop bf str hashes =
      some (if (hashes.map fun hash ↦ (hash str).toNat % bf.size).all (bitAt bf.filter) then 0
        else -2) := by
  induction hashes with
  | nil => rfl
  | cons hash hashes ih =>
      have hpos := (h.inside (hash str).toNat).2.trans_le h.size_le
      rcases getBit_spec hpos with ⟨flag, hflag, hzero⟩
      rw [findLoop, hashPos_eq h.size_pos, Option.bind_eq_bind, Option.bind_some, hflag,
        Option.bind_eq_bind, Option.bind_some, ih, List.map_cons, List.all_cons]
      by_cases hclear : flag = 0
      · rw [if_pos hclear, hzero.mp hclear]
        rfl
      · rw [if_neg hclear, (Bool.not_eq_false _).mp (mt hzero.mpr hclear), Bool.true_and]

theorem createBloom_covered (size : BitVec 32) (h : 0 < (createBloom size).size) :
    Covered (createBloom size).size (createBloom size).filter where
  size_pos := h
  size_mod := Nat.mul_mod_left _ _
  size_le := by simp [createBloom]

/-- A filter that `build_bloom` made. -/
theorem buildBloom_eq_some {buf : List Byte} {bf : BloomT}
    (h : buildBloom buf = some (some bf)) : bf.size = u8 (bf.filter.length * 8) := by
  unfold buildBloom at h
  split at h
  · cases h
  · split at h
    · cases h
    · split at h
      · cases h
      · obtain rfl := Option.some.inj (Option.some.inj h)
        rfl

theorem buildBloom_covered {buf : List Byte} {bf : BloomT} (hbuild : buildBloom buf = some (some bf))
    (h : 0 < bf.size) : Covered bf.size bf.filter := by
  have hsize := buildBloom_eq_some hbuild
  unfold u8 at hsize
  exact ⟨h, by omega, by omega⟩

theorem filterLaws : FilterLaws machine view fun bf ↦ Covered bf.size bf.filter where
  init := by
    rintro bf ⟨⟨size, rfl⟩ | ⟨buf, hbuild⟩, hpos⟩
    · exact createBloom_covered size hpos
    · exact buildBloom_covered hbuild hpos
  inside := by
    intro bf str h pos hpos
    rcases List.mem_map.mp hpos with ⟨hash, -, rfl⟩
    exact h.inside (hash str).toNat
  add := by
    intro bf str h
    have hpos : ∀ pos ∈ positions bf.size str, pos / 8 < bf.filter.length := by
      intro pos hpos
      rcases List.mem_map.mp hpos with ⟨hash, -, rfl⟩
      exact (h.inside (hash str).toNat).2.trans_le h.size_le
    rcases orBits_spec hpos with ⟨filter, hfold, hlength, hbit⟩
    refine ⟨{ bf with filter }, ?_, ⟨h.size_pos, h.size_mod, ?_⟩, rfl, hbit⟩
    · change (bloomAdd bf str).map _ = _
      rw [bloomAdd_eq h.size_pos, hfold]
      rfl
    · rw [hlength]
      exact h.size_le
  find := by
    intro bf str h
    change (bloomFind bf str).map _ = _
    rw [bloomFind, findLoop_eq h, Option.map_some]
    change some (FilterRet.found (decide ((if (positions bf.size str).all (bitAt bf.filter) then
      (0 : ℤ) else -2) = 0)), bf) = some (.found ((positions bf.size str).all (bitAt bf.filter)), bf)
    cases (positions bf.size str).all (bitAt bf.filter) with
    | false => rfl
    | true => rfl

namespace Java

/-! ## `bloom.java` -/

theorem positive_msb (hash : BitVec 32) : (positive hash).msb = false := by
  rw [positive, BitVec.msb_and]
  exact Bool.and_false _

theorem hashCalc_msb {hash : Chars → BitVec 32} (h : hash ∈ hashCalc) (str : Chars) :
    (hash str).msb = false := by
  simp only [hashCalc, List.mem_cons, List.not_mem_nil, or_false] at h
  rcases h with rfl | rfl | rfl | rfl | rfl | rfl | rfl | rfl | rfl | rfl | rfl | rfl | rfl <;>
    exact positive_msb _

/-- The positions a Java string is hashed to. -/
def positions (size : ℕ) (str : Chars) : List ℕ :=
  hashCalc.map fun hash ↦ (hash str).toNat % size

def view : FilterView BloomObject Chars where
  size filter := filter.size.toNat
  bit filter := bitAt filter.bitset
  positions filter := positions filter.size.toNat

theorem hashPos_eq {size hash : BitVec 32} (hsize : 0 < size.toInt) (hhash : hash.msb = false) :
    hashPos size hash = some (hash.toNat % size.toNat) := by
  have hmsb : size.msb = false :=
    BitVec.msb_eq_false_iff_two_mul_lt.mpr (BitVec.toInt_pos_iff.mp hsize.le)
  have hne : size ≠ 0 := by
    rintro rfl
    exact absurd hsize (by decide)
  have hrem : hash.srem size = hash % size := by
    rw [BitVec.srem_eq, hhash, hmsb]
  rw [hashPos, if_neg hne, hrem, BitVec.abs_eq, BitVec.msb_umod_eq_false_of_left hhash]
  rfl

/-- `size_` is positive, and its bits are in the array. -/
def Fits (filter : BloomObject) : Prop :=
  0 < filter.size.toInt ∧ Covered filter.size.toNat filter.bitset

/-- The loop of `put` sets the positions of the hash functions. -/
theorem putLoop_eq {filter : BloomObject} (h : 0 < filter.size.toInt) (str : Chars)
    {hashes : List (Chars → BitVec 32)} (hsub : hashes ⊆ hashCalc) (bitset : List Byte) :
    hashes.foldlM (fun bitset hash ↦ do
        let pos ← hashPos filter.size (hash str)
        setBit bitset pos) bitset =
      (hashes.map fun hash ↦ (hash str).toNat % filter.size.toNat).foldlM orBit bitset := by
  induction hashes generalizing bitset with
  | nil => rfl
  | cons hash hashes ih =>
      rcases List.cons_subset.mp hsub with ⟨hmem, hrest⟩
      rw [List.foldlM_cons, List.map_cons, List.foldlM_cons,
        hashPos_eq h (hashCalc_msb hmem str), ← setBit_eq]
      exact congrArg _ (funext fun mid ↦ ih hrest mid)

theorem put_eq {filter : BloomObject} (h : 0 < filter.size.toInt) (str : Chars) :
    put filter str = ((positions filter.size.toNat str).foldlM orBit filter.bitset).map
      fun bitset ↦ { filter with bitset } := by
  rw [put, putLoop_eq h str (List.Subset.refl _), Option.map_eq_bind]
  rfl

theorem findLoop_eq {filter : BloomObject} (h : Fits filter) (str : Chars)
    {hashes : List (Chars → BitVec 32)} (hsub : hashes ⊆ hashCalc) :
    findLoop filter str hashes =
      some ((hashes.map fun hash ↦ (hash str).toNat % filter.size.toNat).all
        (bitAt filter.bitset)) := by
  induction hashes with
  | nil => rfl
  | cons hash hashes ih =>
      rcases List.cons_subset.mp hsub with ⟨hmem, hrest⟩
      have hpos := (h.2.inside (hash str).toNat).2.trans_le h.2.size_le
      rcases getFlag_spec hpos with ⟨flag, hflag, hzero⟩
      rw [findLoop, hashPos_eq h.1 (hashCalc_msb hmem str), Option.bind_eq_bind, Option.bind_some,
        hflag, Option.bind_eq_bind, Option.bind_some, ih hrest, List.map_cons, List.all_cons]
      by_cases hclear : flag = 0
      · rw [if_pos hclear, hzero.mp hclear]
        rfl
      · rw [if_neg hclear, (Bool.not_eq_false _).mp (mt hzero.mpr hclear), Bool.true_and]

/-- The number of bits is eight times the number of bytes, if it does not wrap. -/
theorem covered_of_shift {bytes : BitVec 32} {bitset : List Byte} (hlength : bytes.toNat ≤ bitset.length)
    (h : 0 < (bytes <<< 3).toInt) : Fits ⟨bytes <<< 3, bitset⟩ := by
  have hnat : (bytes <<< 3).toNat = bytes.toNat * 8 % 4294967296 := by
    rw [BitVec.toNat_shiftLeft, Nat.shiftLeft_eq]
  have hpos : 0 < (bytes <<< 3).toNat := by
    rw [BitVec.toInt_eq_toNat_of_msb
      (BitVec.msb_eq_false_iff_two_mul_lt.mpr (BitVec.toInt_pos_iff.mp h.le))] at h
    exact_mod_cast h
  refine ⟨h, hpos, ?_, ?_⟩
  · change (bytes <<< 3).toNat % 8 = 0
    omega
  · change (bytes <<< 3).toNat / 8 ≤ bitset.length
    omega

theorem filterLaws : FilterLaws machine view Fits where
  init := by
    rintro filter ⟨⟨size, hsize⟩ | ⟨dict, rfl⟩, hpos⟩
    · rcases Option.ite_none_left_eq_some.mp hsize with ⟨-, hsize⟩
      obtain rfl := Option.some.inj hsize
      exact covered_of_shift (by rw [List.length_replicate]) hpos
    · exact covered_of_shift (by rw [BitVec.toNat_ofNat]; exact Nat.mod_le _ _) hpos
  inside := by
    intro filter str h pos hpos
    rcases List.mem_map.mp hpos with ⟨hash, -, rfl⟩
    exact h.2.inside (hash str).toNat
  add := by
    intro filter str h
    have hpos : ∀ pos ∈ positions filter.size.toNat str, pos / 8 < filter.bitset.length := by
      intro pos hpos
      rcases List.mem_map.mp hpos with ⟨hash, -, rfl⟩
      exact (h.2.inside (hash str).toNat).2.trans_le h.2.size_le
    rcases orBits_spec hpos with ⟨bitset, hfold, hlength, hbit⟩
    refine ⟨{ filter with bitset }, ?_, ⟨h.1, h.2.size_pos, h.2.size_mod, ?_⟩, rfl, hbit⟩
    · change (put filter str).map _ = _
      rw [put_eq h.1, hfold]
      rfl
    · rw [hlength]
      exact h.2.size_le
  find := by
    intro filter str h
    change (find filter str).map _ = _
    rw [find, findLoop_eq h str (List.Subset.refl _)]
    rfl

end Java

/-- Along every run of either implementation on a filter with bits: what was added is found, what was
found stays found, positions are below the number of bits and their bytes inside the array, and
adding never clears a bit. -/
theorem bloom_no_false_negatives :
    (∀ bf log, machine.Trace bf log → NoFalseNegatives machine view bf log) ∧
      ∀ filter log, Java.machine.Trace filter log →
        NoFalseNegatives Java.machine Java.view filter log :=
  ⟨fun _ _ htrace ↦ filterLaws.noFalseNegatives htrace,
    fun _ _ htrace ↦ Java.filterLaws.noFalseNegatives htrace⟩

theorem add_runs : (machine.execAll (createBloom 1) [.add [97, 98]]).isSome := by with_unfolding_all decide

theorem Java.ofSize_one : Java.ofSize 1 = some ⟨32, [0, 0, 0, 0]⟩ := by decide

theorem Java.put_runs :
    (Java.machine.execAll ⟨32, [0, 0, 0, 0]⟩ [.add [97, 98]]).isSome := by decide

theorem bloom_no_false_negatives_small :
    (∃ bf log, machine.Trace bf log ∧ log = [(.add [97, 98], .added)] ∧
      Reported machine bf [97, 98]) ∧
    ∃ filter log, Java.machine.Trace filter log ∧ log = [(.add [97, 98], .added)] ∧
      Reported Java.machine filter [97, 98] := by
  constructor
  · have hok : machine.AllOk (createBloom 1) [.add [97, 98]] := ⟨trivial, fun _ _ ↦ trivial⟩
    have htrace := Machine.trace_execAll (M := machine) ⟨.inl ⟨1, rfl⟩, by decide⟩ hok
      (Option.some_get add_runs).symm
    exact ⟨_, _, htrace, by with_unfolding_all decide,
      (bloom_no_false_negatives.1 _ _ htrace).added _ (by with_unfolding_all decide)⟩
  · have hok : Java.machine.AllOk ⟨32, [0, 0, 0, 0]⟩ [.add [97, 98]] := ⟨trivial, fun _ _ ↦ trivial⟩
    have htrace := Machine.trace_execAll (M := Java.machine) ⟨.inl ⟨1, Java.ofSize_one⟩, by decide⟩
      hok (Option.some_get Java.put_runs).symm
    exact ⟨_, _, htrace, by decide,
      (bloom_no_false_negatives.2 _ _ htrace).added _ (by decide)⟩

end CPractice.Bloom
