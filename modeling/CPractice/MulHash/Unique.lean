import CPractice.Hash.Bkdr
import CPractice.MulHash.Model

/-!
# Keys are stored once

As long as the element size does not wrap, the roots are multiples of it and an element lies within
its slot, so a store leaves every other slot alone.  `mul_hash_insert` takes the first empty slot of
its key without looking for the key in the other rows: a key is stored at most once just if no insert
finds room for a key that is stored already.
-/

namespace CPractice.MulHash

open Hash Lib Math

variable {cmp : Bytes → Bytes → ℤ} {hash : Bytes → ℕ} {mh : MulHashT} {key value : Bytes}

/-! ## Slots -/

/-- The distance of two slots. -/
def MulHashT.unit (mh : MulHashT) : ℕ := elemSize mh.maxKeySize mh.maxValueSize

/-- A table whose element size did not wrap. -/
structure Layout (mh : MulHashT) : Prop where
  unit_eq : mh.unit = headerSize + mh.maxKeySize + mh.maxValueSize
  prime_pos : ∀ prime ∈ mh.prime, 0 < prime
  area_eq : mh.area = mh.prime.sum * mh.unit
  area_lt : mh.area < 4294967296

/-- The `j`-th root of the walk lies in row `j`. -/
theorem mem_rootsFrom {size hashKey root : ℕ} (hsize : 0 < size) {primes : List ℕ}
    (hpos : ∀ prime ∈ primes, 0 < prime) {startPos : ℕ}
    (hlt : (startPos + primes.sum) * size < 18446744073709551616)
    (hroot : root ∈ rootsFrom size hashKey primes startPos) :
    ∃ j, j < startPos + primes.sum ∧ root = j * size := by
  induction primes generalizing startPos with
  | nil => cases hroot
  | cons prime primes ih =>
      rcases List.forall_mem_cons.mp hpos with ⟨hprime, hrest⟩
      have hmod : hashKey % prime < prime := Nat.mod_lt _ hprime
      rw [List.sum_cons] at hlt ⊢
      have hbound : startPos + (prime + primes.sum) < 18446744073709551616 :=
        (Nat.le_mul_of_pos_right _ hsize).trans_lt hlt
      rcases List.mem_cons.mp hroot with rfl | hroot
      · refine ⟨startPos + hashKey % prime, by omega, ?_⟩
        have hle : (startPos + hashKey % prime) * size ≤
            (startPos + (prime + primes.sum)) * size := Nat.mul_le_mul_right _ (by omega)
        have hpos : u8 (startPos + hashKey % prime) = startPos + hashKey % prime :=
          u8_of_lt (by omega)
        rw [hpos, u8_of_lt (by omega)]
      · rw [u8_of_lt (by omega)] at hroot
        rw [← Nat.add_assoc] at hlt ⊢
        exact ih hrest hlt hroot

namespace Layout

theorem unit_ge (h : Layout mh) : headerSize ≤ mh.unit := by
  rw [h.unit_eq]
  omega

theorem mem_roots (h : Layout mh) {hashKey root : ℕ} (hroot : root ∈ mh.roots hashKey) :
    ∃ j, root = j * mh.unit ∧ root + mh.unit ≤ mh.area := by
  have hunit : 0 < mh.unit := lt_of_lt_of_le (by decide) h.unit_ge
  have hlt := h.area_lt
  rw [h.area_eq] at hlt
  rcases mem_rootsFrom hunit h.prime_pos (by rw [Nat.zero_add]; omega) hroot with ⟨j, hj, hjroot⟩
  rw [Nat.zero_add] at hj
  refine ⟨j, hjroot, ?_⟩
  calc
    root + mh.unit = (j + 1) * mh.unit := by rw [hjroot, Nat.succ_mul]
    _ ≤ mh.prime.sum * mh.unit := Nat.mul_le_mul_right _ hj
    _ = mh.area := h.area_eq.symm

/-- Different slots are at least a slot apart. -/
theorem apart {i j : ℕ} (unit : ℕ) (hne : i ≠ j) :
    i * unit + unit ≤ j * unit ∨ j * unit + unit ≤ i * unit := by
  rcases lt_or_gt_of_ne hne with hlt | hgt
  · left
    rw [← Nat.succ_mul]
    exact Nat.mul_le_mul_right _ hlt
  · right
    rw [← Nat.succ_mul]
    exact Nat.mul_le_mul_right _ hgt

end Layout

/-! ## The invariant -/

/-- An element in a slot of its key. -/
structure ElemOk (hash : Bytes → ℕ) (mh : MulHashT) (root : ℕ) (key value : Bytes) : Prop where
  mem_roots : root ∈ mh.roots (hash key)
  key_ne : key ≠ []
  value_ne : value ≠ []
  key_le : key.length ≤ mh.maxKeySize
  value_le : value.length ≤ mh.maxValueSize

/-- No two slots hold the same key. -/
def UniqueKeys (mh : MulHashT) : Prop :=
  ∀ root root' key value value', mh.cells root = .elem key value →
    mh.cells root' = .elem key value' → root = root'

/-- Every element is in a slot of its key, and no slot is torn. -/
structure Sound (hash : Bytes → ℕ) (mh : MulHashT) : Prop where
  layout : Layout mh
  elems : ∀ root key value, mh.cells root = .elem key value → ElemOk hash mh root key value
  whole : ∀ j, mh.cells (j * mh.unit) ≠ .torn

structure Inv (hash : Bytes → ℕ) (mh : MulHashT) : Prop extends Sound hash mh where
  unique : UniqueKeys mh

namespace Sound

theorem extent_le (h : Sound hash mh) (root : ℕ) : (mh.cells root).extent ≤ mh.unit := by
  cases hcell : mh.cells root with
  | zero => exact h.layout.unit_ge
  | torn => exact h.layout.unit_ge
  | elem key value =>
      have hok := h.elems root key value hcell
      have hkey := hok.key_le
      have hvalue := hok.value_le
      rw [h.layout.unit_eq, Cell.extent]
      omega

/-- A walk over roots is a search in the list of them. -/
theorem walk_eq (h : Sound hash mh) (stops : Cell → Bool) {roots : List ℕ} {hashKey : ℕ}
    (hroots : roots ⊆ mh.roots hashKey) :
    walk mh stops roots = some (roots.find? fun root ↦ stops (mh.cells root)) := by
  induction roots with
  | nil => rfl
  | cons root roots ih =>
      rcases h.layout.mem_roots (hroots List.mem_cons_self) with ⟨j, hj, harea⟩
      have hin : root + headerSize ≤ mh.area :=
        (Nat.add_le_add_left h.layout.unit_ge root).trans harea
      have hread : readCell mh root = some (mh.cells root) := by
        have hwhole := h.whole j
        rw [← hj] at hwhole
        rw [readCell, if_pos hin]
        cases hcell : mh.cells root with
        | zero => rfl
        | elem key value => rfl
        | torn => exact absurd hcell hwhole
      rw [walk, hread, Option.bind_eq_bind, Option.bind_some, List.find?_cons,
        ih (List.subset_of_cons_subset hroots)]
      cases stops (mh.cells root) with
      | true => rfl
      | false => rfl

end Sound

/-- What a store into a slot does. -/
structure Stored (mh mh' : MulHashT) (root : ℕ) (cell : Cell) : Prop where
  keySize : mh'.maxKeySize = mh.maxKeySize
  valueSize : mh'.maxValueSize = mh.maxValueSize
  prime : mh'.prime = mh.prime
  area : mh'.area = mh.area
  at_root : mh'.cells root = cell
  elsewhere : ∀ j, j * mh.unit ≠ root → mh'.cells (j * mh.unit) = mh.cells (j * mh.unit)
  elems : ∀ other key value, other ≠ root → mh'.cells other = .elem key value →
    mh.cells other = .elem key value

theorem Sound.store_spec (h : Sound hash mh) {hashKey root size : ℕ} (hroot : root ∈ mh.roots hashKey)
    (hsize : size ≤ mh.unit) (cell : Cell) :
    ∃ mh', store mh root size cell = some mh' ∧ Stored mh mh' root cell := by
  rcases h.layout.mem_roots hroot with ⟨j, hj, harea⟩
  refine ⟨_, if_pos (by omega), rfl, rfl, rfl, rfl, if_pos rfl, ?_, ?_⟩
  · intro i hne
    have hextent := h.extent_le (i * mh.unit)
    have hij : i ≠ j := by
      rintro rfl
      exact hne hj.symm
    have hapart := Layout.apart mh.unit hij
    simp only [if_neg hne]
    rw [if_neg (by omega)]
  · intro other key value hne hcell
    simp only [if_neg hne] at hcell
    split at hcell
    · cases hcell
    · exact hcell

namespace Stored

variable {mh' : MulHashT} {root : ℕ} {cell : Cell}

theorem unit_eq (h : Stored mh mh' root cell) : mh'.unit = mh.unit := by
  rw [MulHashT.unit, MulHashT.unit, h.keySize, h.valueSize]

theorem roots_eq (h : Stored mh mh' root cell) (hashKey : ℕ) :
    mh'.roots hashKey = mh.roots hashKey := by
  rw [MulHashT.roots, MulHashT.roots, h.keySize, h.valueSize, h.prime]

/-- A store that leaves an element of the slot or an empty slot. -/
theorem sound (hstored : Stored mh mh' root cell) (h : Sound hash mh) (hcell : cell ≠ .torn)
    (helem : ∀ key value, cell = .elem key value → ElemOk hash mh root key value) :
    Sound hash mh' := by
  have hok : ∀ {other key value}, ElemOk hash mh other key value →
      ElemOk hash mh' other key value := by
    intro other key value hok
    exact ⟨hstored.roots_eq _ ▸ hok.mem_roots, hok.key_ne, hok.value_ne,
      hstored.keySize.symm ▸ hok.key_le, hstored.valueSize.symm ▸ hok.value_le⟩
  refine ⟨⟨?_, ?_, ?_, ?_⟩, ?_, ?_⟩
  · rw [hstored.unit_eq, hstored.keySize, hstored.valueSize]
    exact h.layout.unit_eq
  · rw [hstored.prime]
    exact h.layout.prime_pos
  · rw [hstored.area, hstored.prime, hstored.unit_eq]
    exact h.layout.area_eq
  · rw [hstored.area]
    exact h.layout.area_lt
  · intro other key value hother
    by_cases heq : other = root
    · subst heq
      exact hok (helem key value (hstored.at_root.symm.trans hother))
    · exact hok (h.elems other key value (hstored.elems other key value heq hother))
  · intro j
    rw [hstored.unit_eq]
    by_cases heq : j * mh.unit = root
    · rw [heq, hstored.at_root]
      exact hcell
    · rw [hstored.elsewhere j heq]
      exact h.whole j

/-- The invariant after a store that leaves a new key or an empty slot. -/
theorem inv (hstored : Stored mh mh' root cell) (h : Inv hash mh) (hcell : cell ≠ .torn)
    (helem : ∀ key value, cell = .elem key value → ElemOk hash mh root key value ∧
      ∀ other value', other ≠ root → mh.cells other ≠ .elem key value') : Inv hash mh' := by
  refine ⟨hstored.sound h.toSound hcell fun key value heq ↦ (helem key value heq).1, ?_⟩
  · intro a b key value value' ha hb
    by_cases hra : a = root
    · by_cases hrb : b = root
      · rw [hra, hrb]
      · subst hra
        have hnot := (helem key value (hstored.at_root.symm.trans ha)).2 b value' hrb
        exact absurd (hstored.elems b key value' hrb hb) hnot
    · by_cases hrb : b = root
      · subst hrb
        have hnot := (helem key value' (hstored.at_root.symm.trans hb)).2 a value hra
        exact absurd (hstored.elems a key value hra ha) hnot
      · exact h.unique a b key value value' (hstored.elems a key value hra ha)
          (hstored.elems b key value' hrb hb)

end Stored

/-! ## The operations -/

theorem findStops_iff (hcmp : ∀ a b, cmp a b = 0 ↔ a = b) (cell : Cell) :
    findStops cmp key cell ↔ ∃ value, value ≠ [] ∧ cell = .elem key value := by
  cases cell with
  | zero => simp [findStops]
  | torn => simp [findStops]
  | elem key' value =>
      simp only [findStops, decide_eq_true_eq, hcmp, Cell.elem.injEq]
      constructor
      · rintro ⟨hvalue, -, rfl⟩
        exact ⟨value, fun hnil ↦ hvalue (by rw [hnil]; rfl), rfl, rfl⟩
      · rintro ⟨value', hvalue, rfl, rfl⟩
        exact ⟨fun hzero ↦ hvalue (List.eq_nil_of_length_eq_zero hzero), rfl, rfl⟩

theorem eraseStops_iff (hcmp : ∀ a b, cmp a b = 0 ↔ a = b) (cell : Cell) :
    eraseStops cmp key cell ↔ ∃ value, cell = .elem key value := by
  cases cell with
  | zero => simp [eraseStops]
  | torn => simp [eraseStops]
  | elem key' value =>
      simp only [eraseStops, decide_eq_true_eq, hcmp, Cell.elem.injEq]
      constructor
      · rintro ⟨-, rfl⟩
        exact ⟨value, rfl, rfl⟩
      · rintro ⟨value', rfl, -⟩
        exact ⟨rfl, rfl⟩

/-- A key that is stored in one slot only is found with its value. -/
theorem mulHashFind_only (hcmp : ∀ a b, cmp a b = 0 ↔ a = b) (h : Sound hash mh) {root : ℕ}
    (hcell : mh.cells root = .elem key value)
    (honly : ∀ other value', mh.cells other = .elem key value' → other = root) :
    mulHashFind cmp hash mh key = some (0, some value) := by
  have hok := h.elems root key value hcell
  rw [mulHashFind, if_neg hok.key_ne, h.walk_eq _ (List.Subset.refl _)]
  cases hfind : (mh.roots (hash key)).find? fun root ↦ findStops cmp key (mh.cells root) with
  | none =>
      have hnot := List.find?_eq_none.mp hfind root hok.mem_roots
      exact absurd ((findStops_iff hcmp _).mpr ⟨value, hok.value_ne, hcell⟩) hnot
  | some other =>
      have hstop : findStops cmp key (mh.cells other) := by simpa using List.find?_some hfind
      rcases (findStops_iff hcmp _).mp hstop with ⟨value', -, hcell'⟩
      obtain rfl := honly other value' hcell'
      simp [hcell]

/-- A stored key is found with its value. -/
theorem mulHashFind_stored (hcmp : ∀ a b, cmp a b = 0 ↔ a = b) (h : Inv hash mh) {root : ℕ}
    (hcell : mh.cells root = .elem key value) :
    mulHashFind cmp hash mh key = some (0, some value) :=
  mulHashFind_only hcmp h.toSound hcell fun other value' hother ↦
    h.unique other root key value' value hother hcell

/-- A key that is not stored is not found. -/
theorem mulHashFind_missing (hcmp : ∀ a b, cmp a b = 0 ↔ a = b) (h : Inv hash mh) (hkey : key ≠ [])
    (hmiss : ∀ root value, mh.cells root ≠ .elem key value) :
    mulHashFind cmp hash mh key = some (-2, none) := by
  have hnone : ((mh.roots (hash key)).find? fun root ↦ findStops cmp key (mh.cells root)) = none := by
    apply List.find?_eq_none.mpr
    intro root _ hstop
    rcases (findStops_iff hcmp _).mp hstop with ⟨value, -, hcell⟩
    exact hmiss root value hcell
  rw [mulHashFind, if_neg hkey, h.walk_eq _ (List.Subset.refl _), hnone]
  rfl

/-- A legal insert. -/
def legal (mh : MulHashT) (key value : Bytes) : Prop :=
  key ≠ [] ∧ value ≠ [] ∧ key.length ≤ mh.maxKeySize ∧ value.length ≤ mh.maxValueSize

/-- An insert of a stored key finds no empty slot for it. -/
def distinctInsert (hash : Bytes → ℕ) (mh : MulHashT) (key value : Bytes) : Prop :=
  legal mh key value → (∃ root value', mh.cells root = .elem key value') →
    ∀ root ∈ mh.roots (hash key), mh.cells root ≠ .zero

/-- A legal insert takes the first empty slot of its key, if there is one. -/
theorem mulHashInsert_cases (h : Sound hash mh) (hlegal : legal mh key value) :
    (mulHashInsert hash mh key value = some (-2, mh) ∧
        ∀ root ∈ mh.roots (hash key), mh.cells root ≠ .zero) ∨
      ∃ root mh', mulHashInsert hash mh key value = some (0, mh') ∧ root ∈ mh.roots (hash key) ∧
        mh.cells root = .zero ∧ Stored mh mh' root (.elem key value) := by
  rcases hlegal with ⟨hkey, hvalue, hkey_le, hvalue_le⟩
  rw [mulHashInsert, if_neg (by grind), h.walk_eq _ (List.Subset.refl _)]
  cases hfind : (mh.roots (hash key)).find? fun root ↦ insertStops (mh.cells root) with
  | none =>
      left
      refine ⟨rfl, ?_⟩
      intro root hroot hzero
      have hnot := List.find?_eq_none.mp hfind root hroot
      rw [hzero] at hnot
      exact hnot rfl
  | some root =>
      right
      have hroot := List.mem_of_find?_eq_some hfind
      have hstop : insertStops (mh.cells root) := by simpa using List.find?_some hfind
      have hzero : mh.cells root = .zero := by
        cases hcell : mh.cells root with
        | zero => rfl
        | torn =>
            rcases h.layout.mem_roots hroot with ⟨j, hj, -⟩
            exact absurd (hj ▸ hcell) (h.whole j)
        | elem key' value' =>
            have hne := (h.elems root key' value' hcell).key_ne
            rw [hcell] at hstop
            exact absurd (List.eq_nil_of_length_eq_zero (of_decide_eq_true hstop)) hne
      have hfits : headerSize + key.length + value.length ≤ mh.unit := by
        rw [h.layout.unit_eq]
        omega
      rcases h.store_spec hroot hfits (.elem key value) with ⟨mh', hstore, hstored⟩
      exact ⟨root, mh', by simp [hstore], hroot, hzero, hstored⟩

theorem mulHashInsert_illegal (hillegal : ¬ legal mh key value) :
    mulHashInsert hash mh key value = some (-1, mh) := by
  unfold legal at hillegal
  exact if_pos (by grind)

theorem mulHashInsert_spec (hcmp : ∀ a b, cmp a b = 0 ↔ a = b) (h : Inv hash mh)
    (hdistinct : distinctInsert hash mh key value) :
    ∃ ret mh', mulHashInsert hash mh key value = some (ret, mh') ∧ Inv hash mh' ∧
      (ret = 0 → mulHashFind cmp hash mh' key = some (0, some value)) := by
  by_cases hlegal : legal mh key value
  · rcases mulHashInsert_cases h.toSound hlegal with ⟨hfull, -⟩ | ⟨root, mh', hinsert, hroot, hzero, hstored⟩
    · exact ⟨-2, mh, hfull, h, by simp⟩
    · have hinv : Inv hash mh' := by
        apply hstored.inv h (by simp)
        intro key' value' heq
        obtain ⟨rfl, rfl⟩ := Cell.elem.inj heq
        refine ⟨⟨hroot, hlegal.1, hlegal.2.1, hlegal.2.2.1, hlegal.2.2.2⟩, ?_⟩
        intro other value' _ hother
        exact hdistinct hlegal ⟨other, value', hother⟩ root hroot hzero
      exact ⟨0, mh', hinsert, hinv, fun _ ↦ mulHashFind_stored hcmp hinv hstored.at_root⟩
  · exact ⟨-1, mh, mulHashInsert_illegal hlegal, h, by simp⟩

/-- An insert that finds room for a stored key stores it a second time. -/
theorem mulHashInsert_duplicates (h : Inv hash mh)
    (hdouble : ¬ distinctInsert hash mh key value) :
    ∃ mh', mulHashInsert hash mh key value = some (0, mh') ∧ ¬ UniqueKeys mh' := by
  unfold distinctInsert at hdouble
  push Not at hdouble
  rcases hdouble with ⟨hlegal, ⟨other, value', hother⟩, free, hfree, hfreezero⟩
  rcases mulHashInsert_cases h.toSound hlegal with ⟨-, hfull⟩ | ⟨root, mh', hinsert, -, hzero, hstored⟩
  · exact absurd hfreezero (hfull free hfree)
  · refine ⟨mh', hinsert, ?_⟩
    intro hunique
    rcases h.layout.mem_roots (h.elems other key value' hother).mem_roots with ⟨j, hj, -⟩
    have hne : other ≠ root := by
      rintro rfl
      rw [hzero] at hother
      cases hother
    have hkept : mh'.cells other = .elem key value' := by
      rw [hj, hstored.elsewhere j (hj ▸ hne), ← hj]
      exact hother
    exact hne (hunique other root key value' value hkept hstored.at_root)

/-- An erase clears the first slot of its key that holds the key, if there is one. -/
theorem mulHashErase_cases (hcmp : ∀ a b, cmp a b = 0 ↔ a = b) (h : Sound hash mh) (key : Bytes) :
    (∃ ret, ret ≠ 0 ∧ mulHashErase cmp hash mh key = some (ret, mh)) ∨
      ∃ root value mh', mulHashErase cmp hash mh key = some (0, mh') ∧ key ≠ [] ∧
        mh.cells root = .elem key value ∧ Stored mh mh' root .zero := by
  unfold mulHashErase
  by_cases hkey : key = []
  · rw [if_pos hkey]
    exact .inl ⟨-1, by decide, rfl⟩
  · rw [if_neg hkey, h.walk_eq _ (List.Subset.refl _)]
    cases hfind : (mh.roots (hash key)).find? fun root ↦ eraseStops cmp key (mh.cells root) with
    | none => exact .inl ⟨-2, by decide, rfl⟩
    | some root =>
        right
        have hroot := List.mem_of_find?_eq_some hfind
        have hstop : eraseStops cmp key (mh.cells root) := by simpa using List.find?_some hfind
        rcases (eraseStops_iff hcmp _).mp hstop with ⟨value, hcell⟩
        have hcleared : clearedCell (elemSize mh.maxKeySize mh.maxValueSize) = .zero :=
          if_pos h.layout.unit_ge
        rcases h.store_spec hroot (le_refl mh.unit) .zero with ⟨mh', hstore, hstored⟩
        refine ⟨root, value, mh', ?_, hkey, hcell, hstored⟩
        rw [MulHashT.unit] at hstore
        simp [hcleared, hstore]

theorem mulHashErase_spec (hcmp : ∀ a b, cmp a b = 0 ↔ a = b) (h : Inv hash mh) (key : Bytes) :
    ∃ ret mh', mulHashErase cmp hash mh key = some (ret, mh') ∧ Inv hash mh' ∧
      (ret = 0 → mulHashFind cmp hash mh' key = some (-2, none)) := by
  rcases mulHashErase_cases hcmp h.toSound key with
    ⟨ret, hret, herase⟩ | ⟨root, value, mh', herase, hkey, hcell, hstored⟩
  · exact ⟨ret, mh, herase, h, fun hzero ↦ absurd hzero hret⟩
  · have hinv : Inv hash mh' := by
      apply hstored.inv h (by simp)
      intro key' value' heq
      cases heq
    have hmiss : ∀ other value', mh'.cells other ≠ .elem key value' := by
      intro other value' hother
      by_cases heq : other = root
      · subst heq
        rw [hstored.at_root] at hother
        cases hother
      · exact heq (h.unique _ _ _ _ _ (hstored.elems other key value' heq hother) hcell)
    exact ⟨0, mh', herase, hinv, fun _ ↦ mulHashFind_missing hcmp hinv hkey hmiss⟩

/-! ## Runs -/

theorem sum_map_toNat {primes : List ℤ} (hpos : ∀ prime ∈ primes, 0 < prime) :
    0 ≤ primes.sum ∧ (primes.map Int.toNat).sum = primes.sum.toNat := by
  induction primes with
  | nil => simp
  | cons prime primes ih =>
      rcases List.forall_mem_cons.mp hpos with ⟨hprime, hrest⟩
      rcases ih hrest with ⟨hnonneg, hsum⟩
      rw [List.map_cons, List.sum_cons, List.sum_cons, hsum]
      omega

theorem inv_init {row col maxKeySize maxValueSize : ℕ}
    (hinit : mulHashInit row col maxKeySize maxValueSize = some (some mh))
    (hfits : headerSize + mh.maxKeySize + mh.maxValueSize < 4294967296) : Inv hash mh := by
  unfold mulHashInit at hinit
  split at hinit
  · cases hinit
  · rcases Option.bind_eq_some_iff.mp hinit with ⟨primes, hprimes, hinit⟩
    split at hinit
    · cases hinit
    · rcases Option.bind_eq_some_iff.mp hinit with ⟨elemNum, helem, hinit⟩
      rcases Option.bind_eq_some_iff.mp hinit with ⟨shmSize, hshm, hinit⟩
      split at hinit
      · rename_i harea
        obtain rfl := Option.some.inj (Option.some.inj hinit)
        obtain rfl := eq_of_n8 helem
        obtain rfl := eq_of_n8 hshm
        have hpos := (getPrimeArr_pos hprimes).2
        rcases sum_map_toNat hpos with ⟨hnonneg, hsum⟩
        have hunit : elemSize maxKeySize maxValueSize = headerSize + maxKeySize + maxValueSize :=
          u4_of_lt hfits
        refine ⟨⟨⟨hunit, ?_, ?_, ?_⟩, ?_, ?_⟩, ?_⟩
        · intro prime hprime
          rcases List.mem_map.mp hprime with ⟨p, hp, rfl⟩
          exact Int.pos_iff_toNat_pos.mp (hpos p hp)
        · rw [hsum, MulHashT.unit, Int.toNat_mul hnonneg (Int.natCast_nonneg _), Int.toNat_natCast]
        · exact (Nat.le_add_left _ _).trans_lt harea
        · intro root key value hcell
          cases hcell
        · intro j hcell
          cases hcell
        · intro root root' key value value' hcell
          cases hcell
      · cases hinit

/-- The tables whose element size does not wrap, without a second insert of a stored key. -/
def distinctMachine (cmp : Bytes → Bytes → ℤ) (hash : Bytes → ℕ) : Machine MulHashT Call Ret where
  init mh := fromInit mh ∧ headerSize + mh.maxKeySize + mh.maxValueSize < 4294967296
  ok mh call :=
    match call with
    | .insert key value => distinctInsert hash mh key value
    | _ => True
  exec := callExec cmp hash

theorem distinctMachine_call (hcmp : ∀ a b, cmp a b = 0 ↔ a = b) (h : Inv hash mh) {call : Call}
    {r : Ret} {mh' : MulHashT} (hok : (distinctMachine cmp hash).ok mh call)
    (hexec : callExec cmp hash mh call = some (r, mh')) : Inv hash mh' := by
  cases call with
  | insert key value =>
      rcases mulHashInsert_spec hcmp h hok with ⟨ret, mh₁, hinsert, hinv, -⟩
      rw [callExec, hinsert] at hexec
      cases hexec
      exact hinv
  | find key =>
      rcases Option.map_eq_some_iff.mp hexec with ⟨out, -, ⟨⟩⟩
      exact h
  | erase key =>
      rcases mulHashErase_spec hcmp h key with ⟨ret, mh₁, herase, hinv, -⟩
      rw [callExec, herase] at hexec
      cases hexec
      exact hinv

theorem inv_trace (hcmp : ∀ a b, cmp a b = 0 ↔ a = b) {log : List (Call × Ret)}
    (htrace : (distinctMachine cmp hash).Trace mh log) : Inv hash mh := by
  apply htrace.invariant (Inv hash)
  · rintro mh ⟨⟨row, col, maxKeySize, maxValueSize, -, -, hinit⟩, hfits⟩
    exact inv_init hinit hfits
  · intro mh call r mh' h hok hexec
    exact distinctMachine_call hcmp h hok hexec

/-- In every run without a second insert of a stored key: a key is in at most one slot, an insert
that succeeds is seen by the next find, and after an erase that succeeds the key is not found.  The
condition is the exact one: an insert keeps the keys unique just if it meets it. -/
theorem keys_stored_once (hcmp : ∀ a b, cmp a b = 0 ↔ a = b) {log : List (Call × Ret)}
    (htrace : (distinctMachine cmp hash).Trace mh log) :
    UniqueKeys mh ∧
      (∀ key value, ∃ ret mh', mulHashInsert hash mh key value = some (ret, mh') ∧
        (UniqueKeys mh' ↔ distinctInsert hash mh key value) ∧
        (distinctInsert hash mh key value → ret = 0 →
          mulHashFind cmp hash mh' key = some (0, some value))) ∧
      ∀ key, ∃ ret mh', mulHashErase cmp hash mh key = some (ret, mh') ∧
        (ret = 0 → mulHashFind cmp hash mh' key = some (-2, none)) := by
  have hinv := inv_trace hcmp htrace
  refine ⟨hinv.unique, ?_, ?_⟩
  · intro key value
    by_cases hdistinct : distinctInsert hash mh key value
    · rcases mulHashInsert_spec hcmp hinv hdistinct with ⟨ret, mh', hinsert, hinv', hfind⟩
      exact ⟨ret, mh', hinsert, iff_of_true hinv'.unique hdistinct, fun _ ↦ hfind⟩
    · rcases mulHashInsert_duplicates hinv hdistinct with ⟨mh', hinsert, hnot⟩
      exact ⟨0, mh', hinsert, iff_of_false hnot hdistinct, fun h ↦ absurd h hdistinct⟩
  · intro key
    rcases mulHashErase_spec hcmp hinv key with ⟨ret, mh', herase, -, hfind⟩
    exact ⟨ret, mh', herase, hfind⟩

/-- A table of two rows with 5 and 7 slots. -/
def twoRows : MulHashT := ⟨4, 4, [5, 7], 384, fun _ ↦ .zero⟩

theorem twoRows_init : mulHashInit 2 3 4 4 = some (some twoRows) := by
  have hprimes : getPrimeArr 3 2 = some [5, 7] := by decide
  have hsize : elemSize 4 4 = 32 := u4_of_lt (by decide)
  rw [mulHashInit, if_neg (by decide)]
  simp [hprimes, n8, hsize, prologSize, twoRows]

theorem twoRows_fromInit : fromInit twoRows := ⟨2, 3, 4, 4, by decide, by decide, twoRows_init⟩

theorem insert_runs : (callExec bytesCmp bkdr64 twoRows (.insert [1] [7])).isSome := by
  with_unfolding_all decide

theorem keys_stored_once_small :
    ∃ mh log, (distinctMachine bytesCmp bkdr64).Trace mh log ∧ log = [(.insert [1] [7], .code 0)] ∧
      ∃ ret mh', mulHashErase bytesCmp bkdr64 mh [1] = some (ret, mh') ∧
        (ret = 0 → mulHashFind bytesCmp bkdr64 mh' [1] = some (-2, none)) := by
  have hdistinct : distinctInsert bkdr64 twoRows [1] [7] := by
    rintro - ⟨root, value, hcell⟩
    cases hcell
  have htrace := Machine.Trace.call (M := distinctMachine bytesCmp bkdr64)
    (i := .insert [1] [7])
    (.init ⟨twoRows_fromInit, by decide⟩) hdistinct (Option.some_get insert_runs).symm
  exact ⟨_, _, htrace, by with_unfolding_all decide,
    (keys_stored_once bytesCmp_zero_iff htrace).2.2 [1]⟩

instance (mh : MulHashT) (call : Call) : Decidable ((machine bytesCmp bkdr64).ok mh call) :=
  isTrue trivial

/-- The same key twice: both inserts succeed, in the first and in the second row. -/
def doubleInsert : List Call := [.insert [1] [7], .insert [1] [8]]

theorem doubleInsert_runs : ((machine bytesCmp bkdr64).execAll twoRows doubleInsert).isSome := by
  with_unfolding_all decide

theorem keys_stored_twice :
    ∃ mh log, (machine bytesCmp bkdr64).Trace mh log ∧
      log = [(.insert [1] [7], .code 0), (.insert [1] [8], .code 0)] ∧
      mulHashFind bytesCmp bkdr64 mh [1] = some (0, some [7]) ∧ ¬ UniqueKeys mh := by
  have htrace := Machine.trace_execAll (M := machine bytesCmp bkdr64) twoRows_fromInit
    (by with_unfolding_all decide) (Option.some_get doubleInsert_runs).symm
  refine ⟨_, _, htrace, by with_unfolding_all decide, by with_unfolding_all decide, ?_⟩
  intro hunique
  have heq := hunique 32 192 [1] [7] [8] (by with_unfolding_all decide) (by with_unfolding_all decide)
  cases heq

end CPractice.MulHash
