import CPractice.Deque.Sequence

/-!
# Room at both ends of the map

A push that needs a slot beyond an end of the map calls `deque_update_map` and then takes the slot
next to `start.index` or `end.index` without a further test.  The new layout has both slots for any
map of two slots or more, until the length in bytes of the doubled map wraps.  A map of one slot is
doubled as well, but its block is put into the last slot of the new map.
-/

namespace CPractice.Deque

variable {α : Type} {d d' : DequeT α} {granted : Bool} {ret : ℤ}

/-- A map of any size that `_deque_init` accepts, with the blocks in use somewhere in it. -/
structure Mapped (d : DequeT α) : Prop where
  mapSize_pos : 1 ≤ d.mapSize
  mapSize_lt : d.mapSize < 4294967296
  mapBytes_eq : d.mapBytes = u4 (d.mapSize * sizeofBlock)
  index_le : d.start.index ≤ d.stop.index
  stop_index_lt : d.stop.index < d.mapSize

theorem dequeInit_mapped {unitSize mapSize blockSize block : ℕ} (hsize : mapSize < 4294967296)
    (hinit : dequeInit unitSize mapSize blockSize block = some d) : Mapped d ∧ d.mapSize = mapSize := by
  rw [dequeInit] at hinit
  split at hinit
  · cases hinit
  next hok =>
    have hpos : 0 < mapSize := Nat.pos_of_ne_zero fun hzero ↦ hok (.inr (.inl hzero))
    have hhalf : mapSize / 2 < mapSize := Nat.div_lt_self hpos one_lt_two
    rw [setMapData] at hinit
    split at hinit
    · cases hinit
      exact ⟨⟨hpos, hsize, rfl, le_rfl, hhalf⟩, rfl⟩
    · cases hinit

/-- `d'` has the blocks of `d` in their order, a free slot at either end of them, and a map as long as
its size says. -/
structure Roomy (d d' : DequeT α) : Prop where
  stop_eq : d'.stop.index = d'.start.index + span d
  map_eq : ∀ k ≤ span d, d'.map (d'.start.index + k) = d.map (d.start.index + k)
  blocks_eq : d'.blocks = d.blocks
  front : 1 ≤ d'.start.index
  back : d'.stop.index + 2 ≤ d'.mapSize
  bytes : d'.mapBytes = d'.mapSize * sizeofBlock

theorem relaid_roomy {map : ℕ → Option ℕ} {mapSize pos : ℕ} (hfront : 1 ≤ pos)
    (hback : pos + span d + 2 ≤ mapSize)
    (hmap : ∀ k ≤ span d, map (pos + k) = d.map (d.start.index + k)) :
    Roomy d (relaid d map mapSize pos) :=
  ⟨rfl, hmap, rfl, hfront, hback, rfl⟩

/-- The layouts that give room. -/
theorem updateMap_roomy (h : Mapped d) (hsize : d.mapSize < 536870912)
    (hdouble : ¬ (span d + 1) * 2 < d.mapSize → granted = true →
      2 ≤ d.mapSize ∧ d.mapSize < 268435456) :
    ∃ ret d', dequeUpdateMap d granted = some (ret, d') ∧ (ret = 0 → Roomy d d') := by
  have hle := h.index_le
  have hlt := h.stop_index_lt
  have hspan : span d = d.stop.index - d.start.index := rfl
  have hbytes : d.mapBytes = d.mapSize * sizeofBlock := by
    rw [h.mapBytes_eq]
    exact u4_of_lt (by unfold sizeofBlock; omega)
  rw [dequeUpdateMap_eq hsize hbytes hle hlt]
  by_cases hroom : (span d + 1) * 2 < d.mapSize
  · rw [if_pos hroom]
    refine ⟨0, _, rfl, fun _ ↦ relaid_roomy (by omega) (by omega) ?_⟩
    exact fun k hk ↦ copySlots_shift _ _ (Nat.lt_succ_of_le hk)
  rw [if_neg hroom]
  cases granted with
  | false => exact ⟨-2, d, rfl, fun hret ↦ absurd hret (by decide)⟩
  | true =>
      obtain ⟨htwo, hsmall⟩ := hdouble hroom rfl
      rw [if_pos rfl, if_pos hsmall]
      refine ⟨0, _, rfl, fun _ ↦ relaid_roomy (by omega) (by omega) ?_⟩
      exact fun k hk ↦ copySlots_shift _ _ (Nat.lt_succ_of_le hk)

theorem Mapped.blocks_num (h : Mapped d) :
    u4 (u4Sub d.stop.index d.start.index + 1) = span d + 1 := by
  have hlt := h.stop_index_lt
  have hsize := h.mapSize_lt
  rw [u4Sub_of_le h.index_le (by omega)]
  exact u4_of_lt (by omega)

/-- A recentred map keeps its length. -/
theorem updateMap_recentred (h : Mapped d) (hbranch : u4 ((span d + 1) * 2) < d.mapSize)
    (hexec : dequeUpdateMap d granted = some (ret, d')) :
    ret = 0 ∧ d'.mapSize = d.mapSize ∧ d'.mapBytes = d.mapBytes := by
  simp only [dequeUpdateMap, h.blocks_num, if_pos hbranch] at hexec
  obtain ⟨map, -, hout⟩ := Option.bind_eq_some_iff.mp hexec
  cases hout
  exact ⟨rfl, rfl, rfl⟩

/-- A doubled map has twice the size, its length computed in `u4`. -/
theorem updateMap_doubled (h : Mapped d) (hbranch : ¬ u4 ((span d + 1) * 2) < d.mapSize)
    (hexec : dequeUpdateMap d true = some (ret, d')) :
    ret = 0 ∧ d'.mapSize = u4 (d.mapSize * 2) ∧ d'.mapBytes = u4 (d'.mapSize * sizeofBlock) ∧
      d'.start.index = d.mapSize - (span d + 1) / 2 := by
  have hlt := h.stop_index_lt
  have hsize := h.mapSize_lt
  have hspan : span d ≤ d.stop.index := Nat.sub_le _ _
  simp only [dequeUpdateMap, h.blocks_num, if_neg hbranch, if_true] at hexec
  obtain ⟨map, -, hout⟩ := Option.bind_eq_some_iff.mp hexec
  cases hout
  exact ⟨rfl, rfl, rfl, u4Sub_of_le (by omega) hsize⟩

/-- A length in bytes that does not wrap. -/
theorem lt_of_bytes {mapSize : ℕ} (h : u4 (mapSize * sizeofBlock) = mapSize * sizeofBlock) :
    mapSize < 536870912 := by
  have hlt := u4_lt (mapSize * sizeofBlock)
  rw [h] at hlt
  exact Nat.lt_of_mul_lt_mul_right hlt

/-- `deque_update_map` ends, and makes room where it returns zero, in just these cases: the blocks are
recentred in a map of less than 2^29 slots, or the map is to be doubled, and this is refused or the
map has two slots at least and less than 2^28. -/
theorem deque_update_map_roomy_iff (h : Mapped d) :
    (∃ ret d', dequeUpdateMap d granted = some (ret, d') ∧ (ret = 0 → Roomy d d')) ↔
      if u4 ((span d + 1) * 2) < d.mapSize then d.mapSize < 536870912
      else granted = true → 2 ≤ d.mapSize ∧ d.mapSize < 268435456 := by
  have hlt := h.stop_index_lt
  have hsize := h.mapSize_lt
  have hspan : span d ≤ d.stop.index := Nat.sub_le _ _
  by_cases hbranch : u4 ((span d + 1) * 2) < d.mapSize
  · rw [if_pos hbranch]
    constructor
    · rintro ⟨ret, d', hexec, hroomy⟩
      obtain ⟨hret, hmapSize, hmapBytes⟩ := updateMap_recentred h hbranch hexec
      have hbytes := (hroomy hret).bytes
      rw [hmapBytes, hmapSize, h.mapBytes_eq] at hbytes
      exact lt_of_bytes hbytes
    · intro hsmall
      have htwice : u4 ((span d + 1) * 2) = (span d + 1) * 2 := u4_of_lt (by omega)
      rw [htwice] at hbranch
      exact updateMap_roomy h hsmall fun hroom ↦ absurd hbranch hroom
  rw [if_neg hbranch]
  constructor
  · rintro ⟨ret, d', hexec, hroomy⟩ rfl
    obtain ⟨hret, hmapSize, hmapBytes, hstart⟩ := updateMap_doubled h hbranch hexec
    have hroom := hroomy hret
    have hback := hroom.back
    have hbytes := hroom.bytes
    rw [hmapBytes] at hbytes
    have hsmall := lt_of_bytes hbytes
    rw [hroom.stop_eq, hstart] at hback
    -- The block in the middle is at the place `map_size`, so twice this size has not wrapped.
    have hdouble : d.mapSize < 2147483648 := by omega
    rw [hmapSize, u4_of_lt (by omega)] at hback hsmall
    omega
  · intro hfits
    cases granted with
    | false =>
        refine ⟨-2, d, ?_, fun hret ↦ absurd hret (by decide)⟩
        simp only [dequeUpdateMap, h.blocks_num, if_neg hbranch, Bool.false_eq_true, if_false]
    | true =>
        obtain ⟨htwo, hsmall⟩ := hfits rfl
        exact updateMap_roomy h (by omega) fun _ _ ↦ ⟨htwo, hsmall⟩

/-- One slot, and one block of one unit. -/
def oneSlot : DequeT ℕ := (dequeInit 1 1 1 1).get (by with_unfolding_all decide)

theorem oneSlot_updateMap : (dequeUpdateMap oneSlot true).isSome := by with_unfolding_all decide

/-- The block goes into the second of two slots, and a push behind it leaves the map. -/
theorem deque_update_map_one_slot :
    dequeInit 1 1 1 1 = some oneSlot ∧
    (∃ ret d', dequeUpdateMap oneSlot true = some (ret, d') ∧ ret = 0 ∧ ¬ Roomy oneSlot d') ∧
    dequePushBack oneSlot 7 true 2 = none := by
  have hback : ¬ ((dequeUpdateMap oneSlot true).get oneSlot_updateMap).2.stop.index + 2 ≤
      ((dequeUpdateMap oneSlot true).get oneSlot_updateMap).2.mapSize := by
    with_unfolding_all decide
  refine ⟨(Option.some_get _).symm, ⟨_, _, (Option.some_get oneSlot_updateMap).symm, ?_, ?_⟩, ?_⟩
  · with_unfolding_all decide
  · exact fun hroomy ↦ hback hroomy.back
  · rw [← Option.isNone_iff_eq_none]
    with_unfolding_all decide

/-- Two slots become four. -/
def twoSlots : DequeT ℕ := (dequeInit 1 2 1 1).get (by with_unfolding_all decide)

theorem deque_update_map_two_slots :
    ∃ ret d', dequeUpdateMap twoSlots true = some (ret, d') ∧ (ret = 0 → Roomy twoSlots d') := by
  have hmapped : Mapped twoSlots := (dequeInit_mapped (by decide) (Option.some_get _).symm).1
  refine (deque_update_map_roomy_iff hmapped).mpr ?_
  with_unfolding_all decide

end CPractice.Deque
