import CPractice.Ring.Model
import Mathlib.Data.Nat.ModEq
import Mathlib.Tactic.Ring

/-!
# Positions, slots and cells

The counters of a ring are unbounded numbers reduced to `u4`.  For a number of units that is a power
of two the slot of a position is its remainder.  If the last offset is below `2^32` different slots
are disjoint ranges of bytes; otherwise some slot wraps into the first one.  Positions less than one
lap apart have different slots, so the cells of a window of at most one lap do not disturb each other.
-/

namespace CPractice.Ring

variable {α : Type} {ring : RingT α}

/-! ## Wrapping counters -/

/-- Counters less than `2^32` apart that wrap to the same value are equal. -/
theorem u4_inj {a b : ℕ} (h : u4 a = u4 b) (hab : a < b + 4294967296) (hba : b < a + 4294967296) :
    a = b := by
  unfold u4 at h
  omega

/-- The slot of a wrapped counter. -/
theorem ringIndex_u4_two_pow {k : ℕ} (hk : k < 32) (count : ℕ) :
    ringIndex (u4 count) (2 ^ k) = count % 2 ^ k := by
  have hdvd : 2 ^ k ∣ 4294967296 := pow_dvd_pow 2 hk.le
  rw [ringIndex, if_pos (Nat.two_pow_pos k).ne', Nat.and_two_pow_sub_one_eq_mod]
  unfold u4
  exact Nat.mod_mod_of_dvd count hdvd

/-- What `ring_init` accepts. -/
theorem ringInit_cases {unitNum unitSize : ℕ} (hnum : unitNum < 4294967296)
    (h : ringInit unitNum unitSize = some ring) :
    (∃ k < 32, unitNum = 2 ^ k) ∧ 0 < unitSize ∧
      ring = ⟨unitSize, unitNum, 0, 0, 0, fun _ ↦ none⟩ := by
  unfold ringInit at h
  split at h
  · cases h
  · rename_i hlegal
    simp only [not_or, not_not] at hlegal
    rcases (Nat.and_sub_one_eq_zero_iff_isPowerOfTwo hlegal.1).mp hlegal.2.2 with ⟨k, hk⟩
    refine ⟨⟨k, ?_, hk⟩, Nat.pos_of_ne_zero hlegal.2.1, (Option.some.inj h).symm⟩
    by_contra hge
    have hbig : 2 ^ 32 ≤ 2 ^ k := Nat.pow_le_pow_right (by decide) (Nat.not_lt.mp hge)
    omega

/-- The parameters of a ring whose last offset does not wrap. -/
structure Fits (ring : RingT α) : Prop where
  pow : ∃ k, k < 32 ∧ ring.unitNum = 2 ^ k
  size_pos : 0 < ring.unitSize
  room : (ring.unitNum - 1) * ring.unitSize < 4294967296

/-- The slot of a position as a byte offset. -/
def slotOf (ring : RingT α) (pos : ℕ) : ℕ := pos % ring.unitNum * ring.unitSize

namespace Fits

theorem num_pos (h : Fits ring) : 0 < ring.unitNum := by
  rcases h.pow with ⟨k, -, hk⟩
  rw [hk]
  exact Nat.two_pow_pos k

theorem num_lt (h : Fits ring) : ring.unitNum < 4294967296 := by
  rcases h.pow with ⟨k, hlt, hk⟩
  rw [hk]
  exact Nat.pow_lt_pow_right (by decide) hlt

theorem ringIndex_eq (h : Fits ring) (count : ℕ) :
    ringIndex count ring.unitNum = count % ring.unitNum := by
  have hpos := h.num_pos
  rcases h.pow with ⟨k, -, hk⟩
  rw [ringIndex, if_pos hpos.ne', hk, Nat.and_two_pow_sub_one_eq_mod]

/-- The mask sees through the wrap of the counter. -/
theorem ringIndex_u4 (h : Fits ring) (count : ℕ) :
    ringIndex (u4 count) ring.unitNum = count % ring.unitNum := by
  rcases h.pow with ⟨k, hlt, hk⟩
  rw [hk]
  exact ringIndex_u4_two_pow hlt count

theorem elemOffset_u4 (h : Fits ring) (pos : ℕ) : elemOffset ring (u4 pos) = slotOf ring pos := by
  rw [elemOffset, h.ringIndex_u4]
  apply u4_of_lt
  have hle : pos % ring.unitNum ≤ ring.unitNum - 1 := Nat.le_sub_one_of_lt (Nat.mod_lt _ h.num_pos)
  calc
    pos % ring.unitNum * ring.unitSize ≤ (ring.unitNum - 1) * ring.unitSize :=
      Nat.mul_le_mul_right _ hle
    _ < 4294967296 := h.room

/-- Different slots share no byte. -/
theorem slot_disjoint (h : Fits ring) {a b : ℕ} (hne : a % ring.unitNum ≠ b % ring.unitNum) :
    slotOf ring a ≠ slotOf ring b ∧ ¬ overlaps ring.unitSize (slotOf ring a) (slotOf ring b) := by
  have hpos := h.size_pos
  have hstep : ∀ i j, i < j → i * ring.unitSize + ring.unitSize ≤ j * ring.unitSize := by
    intro i j hlt
    calc
      i * ring.unitSize + ring.unitSize = (i + 1) * ring.unitSize := by ring
      _ ≤ j * ring.unitSize := Nat.mul_le_mul_right _ hlt
  unfold slotOf overlaps
  rcases lt_or_gt_of_ne hne with hlt | hgt
  · have hle := hstep _ _ hlt
    omega
  · have hle := hstep _ _ hgt
    omega

end Fits

/-- Positions less than a lap apart have different remainders. -/
theorem mod_ne_of_lt {n a b : ℕ} (hab : a < b) (hba : b < a + n) : a % n ≠ b % n := by
  intro heq
  have hdvd : n ∣ b - a := (Nat.modEq_iff_dvd' hab.le).mp heq
  have hle := Nat.le_of_dvd (by omega) hdvd
  omega

theorem mod_ne_of_near {n a b : ℕ} (hne : a ≠ b) (hab : a < b + n) (hba : b < a + n) :
    a % n ≠ b % n := by
  rcases lt_or_gt_of_ne hne with hlt | hgt
  · exact mod_ne_of_lt hlt hba
  · exact (mod_ne_of_lt hgt hab).symm

/-- The full test on positions at most a lap apart, with the wrap of the positions. -/
theorem isFull_iff (hpow : ∃ k < 32, ring.unitNum = 2 ^ k) {w r : ℕ} (hle : r ≤ w)
    (hcap : w + 1 ≤ r + ring.unitNum) :
    isFull ring (u4 w) (u4 r) ↔ w + 1 = r + ring.unitNum := by
  rcases hpow with ⟨k, hk, hnum⟩
  rw [isFull, u4_add, hnum, ringIndex_u4_two_pow hk, ringIndex_u4_two_pow hk]
  rw [hnum] at hcap
  constructor
  · intro heq
    by_contra hne
    exact mod_ne_of_lt (n := 2 ^ k) (by omega : r < w + 1) (by omega) heq.symm
  · intro heq
    rw [heq, Nat.add_mod_right]

/-- The empty test on positions less than a lap apart. -/
theorem isEmpty_iff (hpow : ∃ k < 32, ring.unitNum = 2 ^ k) {r top : ℕ} (hle : r ≤ top)
    (hcap : top < r + ring.unitNum) : isEmpty ring (u4 r) (u4 top) ↔ top = r := by
  rcases hpow with ⟨k, hk, hnum⟩
  rw [isEmpty, hnum, ringIndex_u4_two_pow hk, ringIndex_u4_two_pow hk]
  rw [hnum] at hcap
  constructor
  · intro heq
    by_contra hne
    exact mod_ne_of_lt (by omega) hcap heq
  · intro heq
    rw [heq]

/-- A pop that does not see the ring empty has its position below the limit. -/
theorem lt_of_not_isEmpty (ring : RingT α) {r top : ℕ} (hle : r ≤ top)
    (hne : ¬ isEmpty ring (u4 r) (u4 top)) : r < top := by
  rcases hle.eq_or_lt with heq | hlt
  · exact absurd (by rw [isEmpty, heq]) hne
  · exact hlt

/-! ## Cells -/

theorem copyIn_self (ring : RingT α) (offset : ℕ) (elem : α) :
    (copyIn ring offset elem).cells offset = some elem := by
  simp [copyIn]

/-- A copy into the slot of `w` leaves the slot of every other position of the lap. -/
theorem copyIn_slot (h : Fits ring) {w pos : ℕ} (hne : pos ≠ w) (hlo : w < pos + ring.unitNum)
    (hhi : pos < w + ring.unitNum) (elem : α) :
    (copyIn ring (slotOf ring w) elem).cells (slotOf ring pos) = ring.cells (slotOf ring pos) := by
  have hdisjoint := h.slot_disjoint (mod_ne_of_near hne hhi hlo).symm
  simp [copyIn, hdisjoint.1.symm, hdisjoint.2]

/-! ## The data area -/

/-- The ranges of bytes of different slots are disjoint and end before the end of the data area. -/
def SlotsApart (ring : RingT α) : Prop :=
  (∀ a < 4294967296, ∀ b < 4294967296,
    ringIndex a ring.unitNum ≠ ringIndex b ring.unitNum →
      ¬ overlaps ring.unitSize (elemOffset ring a) (elemOffset ring b)) ∧
  ∀ a < 4294967296, elemOffset ring a + ring.unitSize ≤ ring.unitNum * ring.unitSize

theorem Fits.slotsApart (h : Fits ring) : SlotsApart ring := by
  have hoffset : ∀ a < 4294967296, elemOffset ring a = slotOf ring a := by
    intro a ha
    rw [← h.elemOffset_u4, u4_of_lt ha]
  constructor
  · intro a ha b hb hne
    rw [h.ringIndex_eq, h.ringIndex_eq] at hne
    rw [hoffset a ha, hoffset b hb]
    exact (h.slot_disjoint hne).2
  · intro a ha
    rw [hoffset a ha, slotOf, ← Nat.succ_mul]
    exact Nat.mul_le_mul_right _ (Nat.mod_lt _ h.num_pos)

/-- The first offset past `2^32` wraps into the first slot. -/
theorem exists_wrapped_offset {n size : ℕ} (hsize : 0 < size) (hwrap : 4294967296 ≤ (n - 1) * size) :
    ∃ i, 0 < i ∧ i < n ∧ u4 (i * size) < size := by
  have hex : ∃ i, 4294967296 ≤ i * size := ⟨n - 1, hwrap⟩
  have hfirst := Nat.find_spec hex
  have hle : Nat.find hex ≤ n - 1 := Nat.find_min' hex hwrap
  have hpos : 0 < Nat.find hex := by
    by_contra hzero
    rw [Nat.eq_zero_of_not_pos hzero] at hfirst
    omega
  have hbefore : ¬ 4294967296 ≤ (Nat.find hex - 1) * size := Nat.find_min hex (by omega)
  have hstep : Nat.find hex * size = (Nat.find hex - 1) * size + size := by
    rw [← Nat.succ_mul, Nat.succ_eq_add_one, Nat.sub_add_cancel hpos]
  refine ⟨Nat.find hex, hpos, by omega, ?_⟩
  unfold u4
  omega

/-- The slots of a ring from `ring_init` are apart exactly when its last offset is below `2^32`. -/
theorem copies_apart_iff {unitNum unitSize : ℕ} (hnum : unitNum < 4294967296)
    (hinit : ringInit unitNum unitSize = some ring) :
    SlotsApart ring ↔ (unitNum - 1) * unitSize < 4294967296 := by
  rcases ringInit_cases hnum hinit with ⟨⟨k, hk, rfl⟩, hsize, rfl⟩
  constructor
  · intro hapart
    by_contra hwrap
    rcases exists_wrapped_offset hsize (Nat.not_lt.mp hwrap) with ⟨i, hpos, hlt, hoffset⟩
    have hindex : ∀ a < 2 ^ k, ringIndex a (2 ^ k) = a := by
      intro a ha
      rw [ringIndex, if_pos (Nat.two_pow_pos k).ne', Nat.and_two_pow_sub_one_eq_mod,
        Nat.mod_eq_of_lt ha]
    have hfirst := hindex 0 (Nat.two_pow_pos k)
    have hzero : u4 0 = 0 := u4_of_lt (by decide)
    have hne : ringIndex 0 (2 ^ k) ≠ ringIndex i (2 ^ k) := by
      rw [hfirst, hindex i hlt]
      exact hpos.ne
    apply hapart.1 0 (by decide) i (by omega) hne
    have hwhere : elemOffset ⟨unitSize, 2 ^ k, 0, 0, 0, fun _ ↦ (none : Option α)⟩ 0 = 0 ∧
        elemOffset ⟨unitSize, 2 ^ k, 0, 0, 0, fun _ ↦ (none : Option α)⟩ i = u4 (i * unitSize) := by
      simp only [elemOffset, hfirst, hindex i hlt, Nat.zero_mul, hzero, and_self]
    have hoverlap : overlaps unitSize 0 (u4 (i * unitSize)) := ⟨by omega, by omega⟩
    rw [hwhere.1, hwhere.2]
    exact hoverlap
  · intro hroom
    exact Fits.slotsApart ⟨⟨k, hk, rfl⟩, hsize, hroom⟩

theorem copies_apart_iff_small : SlotsApart (⟨8, 4, 0, 0, 0, fun _ ↦ none⟩ : RingT ℕ) := by
  have hinit : ringInit 4 8 = some (⟨8, 4, 0, 0, 0, fun _ ↦ none⟩ : RingT ℕ) := by
    with_unfolding_all rfl
  exact (copies_apart_iff (by decide) hinit).mpr (by decide)

/-- Four units of 2 GiB: the third is at the offset of the first. -/
theorem slots_alias :
    ringInit 4 2147483648 = some (⟨2147483648, 4, 0, 0, 0, fun _ ↦ none⟩ : RingT ℕ) ∧
      ¬ SlotsApart (⟨2147483648, 4, 0, 0, 0, fun _ ↦ none⟩ : RingT ℕ) := by
  refine ⟨by with_unfolding_all rfl, ?_⟩
  intro hapart
  exact hapart.1 0 (by decide) 2 (by decide) (by with_unfolding_all decide)
    (by with_unfolding_all decide)

/-! ## What a step can be -/

theorem step_cases {ty : RingType} {s s' : State α} {action : Action α} {r : Unit}
    (h : step ty s action = some (r, s')) :
    (∃ p elem, action = .push p elem ∧ s' = setProducer s p (.start elem)) ∨
    (∃ p, action = .producer p ∧ producerStep ty s p = some s') ∨
    (∃ c, action = .pop c ∧ s' = setConsumer s c .start) ∨
    ∃ c, action = .consumer c ∧ consumerStep ty s c = some s' := by
  cases action with
  | push p elem =>
      simp only [step] at h
      split at h
      · exact .inl ⟨p, elem, rfl, (Prod.mk.inj (Option.some.inj h)).2.symm⟩
      · cases h
  | producer p =>
      rcases Option.map_eq_some_iff.mp h with ⟨s₁, hs₁, heq⟩
      exact .inr (.inl ⟨p, rfl, by rw [hs₁, (Prod.mk.inj heq).2]⟩)
  | pop c =>
      simp only [step] at h
      split at h
      · exact .inr (.inr (.inl ⟨c, rfl, (Prod.mk.inj (Option.some.inj h)).2.symm⟩))
      · cases h
  | consumer c =>
      rcases Option.map_eq_some_iff.mp h with ⟨s₁, hs₁, heq⟩
      exact .inr (.inr (.inr ⟨c, rfl, by rw [hs₁, (Prod.mk.inj heq).2]⟩))

end CPractice.Ring
