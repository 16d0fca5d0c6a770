import CPractice.Deque.Sequence

/-!
# Deque operations on the sequence

One specification per operation, then the deque as a machine over `List α`.  The pushes and pops
refine the sequence without condition.  `deque_at` adds `start.cur` to the index on `u4`, so it
finds the element exactly when that sum does not wrap.
-/

namespace CPractice.Deque

variable {α : Type}

/-! ## Addresses -/

theorem ptrAt_unit {d : DequeT α} (h : Wf d) {k u block : ℕ} (hu : u < d.unitNum)
    (hblock : d.map (d.start.index + k) = some block) :
    ptrAt d (k * d.unitNum + u) = some (block, u4 (u * d.unitSize)) := by
  have hdiv : (k * d.unitNum + u) / d.unitNum = k := by
    rw [Nat.mul_comm, Nat.mul_add_div h.unitNum_pos, Nat.div_eq_of_lt hu, Nat.add_zero]
  have hmod : (k * d.unitNum + u) % d.unitNum = u := by
    rw [Nat.mul_comm, Nat.mul_add_mod, Nat.mod_eq_of_lt hu]
  simp [ptrAt, hdiv, hmod, hblock, u4_of_lt (unit_offset_lt h hu)]

theorem position_lt {d : DequeT α} {k u : ℕ} (hk : k ≤ span d) (hu : u < d.unitNum) :
    k * d.unitNum + u < (span d + 1) * d.unitNum := by
  have := Nat.mul_le_mul_right d.unitNum hk
  rw [Nat.succ_mul]
  omega

theorem Repr.position_lt {d : DequeT α} {xs : List α} (h : Repr d xs) {i : ℕ}
    (hi : i < xs.length) : d.start.cur + i < span d * d.unitNum + d.stop.cur := by
  have := h.length_eq
  omega

theorem Repr.position_lt_succ {d : DequeT α} {xs : List α} (h : Repr d xs) {i : ℕ}
    (hi : i < xs.length) : d.start.cur + i < (span d + 1) * d.unitNum := by
  have := h.position_lt hi
  have := h.stop_cur_lt
  rw [Nat.succ_mul]
  omega

/-- The nil test of the source is exactly emptiness of the sequence. -/
theorem isNil_iff {d : DequeT α} {xs : List α} (h : Repr d xs) : isNil d ↔ xs = [] := by
  have hlen := h.length_eq
  have hle := h.index_le
  have hstart := h.start_cur_lt
  constructor
  · rintro ⟨hindex, hcur⟩
    have hspan : span d = 0 := by
      unfold span
      omega
    rw [hspan] at hlen
    exact List.eq_nil_of_length_eq_zero (by omega)
  · rintro rfl
    have hspan : span d = 0 := by
      by_contra hne
      have := Nat.mul_le_mul_right d.unitNum (Nat.one_le_iff_ne_zero.mpr hne)
      simp only [List.length_nil] at hlen
      omega
    rw [hspan] at hlen
    unfold span at hspan
    exact ⟨by omega, by simpa using hlen⟩

/-! ## Pushes -/

theorem dequePushFront_within {d : DequeT α} {xs : List α} (h : Repr d xs) (x : α)
    (granted : Bool) (ptr : ℕ) (hcur : d.start.cur ≠ 0) :
    ∃ d', dequePushFront d x granted ptr = some (0, d') ∧ Repr d' (x :: xs) := by
  have hstart := h.start_cur_lt
  have hlen := h.length_eq
  have hdec : u4Sub d.start.cur 1 = d.start.cur - 1 :=
    u4Sub_of_le (by omega) (hstart.trans (unitNum_lt h.toWf))
  let d₁ : DequeT α := { d with start := { d.start with cur := d.start.cur - 1 } }
  have hwf : Wf d₁ := { h.toWf with }
  obtain ⟨block, b, hblock, -⟩ := h.live 0 (Nat.zero_le _)
  have hptr : ptrAt d₁ (0 * d₁.unitNum + (d.start.cur - 1)) =
      some (block, u4 ((d.start.cur - 1) * d.unitSize)) :=
    ptrAt_unit hwf (by change d.start.cur - 1 < d.unitNum; omega) hblock
  rw [Nat.zero_mul, Nat.zero_add] at hptr
  have hpos : d.start.cur - 1 < (span d₁ + 1) * d₁.unitNum := by
    have := position_lt (d := d₁) (k := 0) (Nat.zero_le _)
      (show d.start.cur - 1 < d₁.unitNum by change _ < d.unitNum; omega)
    simpa using this
  obtain ⟨blocks', hstore, hwf', hcell, hother, -⟩ := storeUnit_ptrAt hwf hpos hptr x
  refine ⟨{ d₁ with blocks := blocks' }, ?_, { hwf' with
    start_cur_lt := by change d.start.cur - 1 < d.unitNum; omega
    stop_cur_lt := h.stop_cur_lt
    length_eq := ?_
    elems := ?_ }⟩
  · have hdata : mapData d₁ d.start.index = some block :=
      (mapData_of_wf hwf (k := 0) (Nat.zero_le _)).trans hblock
    unfold dequePushFront
    rw [if_pos hcur, hdec]
    exact Option.bind_eq_some_iff.mpr ⟨block, hdata,
      Option.bind_eq_some_iff.mpr ⟨_, hstore, rfl⟩⟩
  · change d.start.cur - 1 + (xs.length + 1) = span d * d.unitNum + d.stop.cur
    omega
  · intro i hi
    cases i with
    | zero => exact hcell
    | succ i =>
        have hi' : i < xs.length := by simpa using hi
        have hidx : d.start.cur - 1 + (i + 1) = d.start.cur + i := by omega
        change cellAt { d₁ with blocks := blocks' } (d.start.cur - 1 + (i + 1)) = _
        rw [hidx, hother _ (h.position_lt_succ hi') (by omega)]
        exact h.elems i hi'

/-- The slot before the first block: free already, or made free by a relayout. -/
theorem roomFront_cases {d : DequeT α} (h : Wf d) (granted : Bool) :
    (∃ d', roomFront d granted = some (0, d') ∧ Relayout d d' ∧ 1 ≤ d'.start.index) ∨
    (roomFront d granted = some (-2, d) ∧ granted = false) ∨
    (roomFront d granted = none ∧ 268435456 ≤ d.mapSize) := by
  unfold roomFront
  by_cases hzero : d.start.index = 0
  · rw [if_pos hzero]
    rcases dequeUpdateMap_cases h granted with ⟨d', hexec, hrel, hfront, -⟩ | hrefused | hwraps
    · exact .inl ⟨d', hexec, hrel, hfront⟩
    · exact .inr (.inl hrefused)
    · exact .inr (.inr hwraps)
  · rw [if_neg hzero]
    exact .inl ⟨d, rfl, Relayout.refl h, Nat.one_le_iff_ne_zero.mpr hzero⟩

theorem setMapData_addFront {d : DequeT α} (h : Wf d) (hroom : 1 ≤ d.start.index) (ptr : ℕ) :
    setMapData { allocBlock d ptr (d.unitNum * d.unitSize) with
      start := { d.start with index := d.start.index - 1 } } (d.start.index - 1) ptr =
      some (addFront d ptr) := by
  have hlt := h.stop_index_lt
  have hle := h.index_le
  have hin : inMap d (d.start.index - 1) := inMap_of_lt h (by omega)
  exact if_pos hin

/-- A push into a new block, once the slot before the first block is free. -/
theorem dequePushFront_across {d d₁ : DequeT α} {xs : List α} (h : Repr d xs) (x : α) {ptr : ℕ}
    {granted : Bool} (hexec : roomFront d granted = some (0, d₁)) (hrel : Relayout d d₁)
    (hroom : 1 ≤ d₁.start.index) (hptr : ptr ≠ 0) (hfresh : d.blocks ptr = none)
    (hcur : d.start.cur = 0) :
    ∃ d', dequePushFront d x granted ptr = some (0, d') ∧ Repr d' (x :: xs) := by
  have h₁ := hrel.repr h
  have hcur₁ : d₁.start.cur = 0 := hrel.start_cur_eq.trans hcur
  have hfresh₁ : d₁.blocks ptr = none := by rw [hrel.blocks_eq, hfresh]
  have hbytes : u4 (d₁.unitNum * d₁.unitSize) = d₁.unitNum * d₁.unitSize := u4_of_lt h₁.block_lt
  have hindex : u4Sub d₁.start.index 1 = d₁.start.index - 1 :=
    u4Sub_of_le hroom (by
      have := h₁.mapSize_lt
      have := h₁.stop_index_lt
      have := h₁.index_le
      omega)
  have hlast : u4Sub d₁.unitNum 1 = d₁.unitNum - 1 :=
    u4Sub_of_le h₁.unitNum_pos (unitNum_lt h₁.toWf)
  let d₂ : DequeT α := { addFront d₁ ptr with
    start := ⟨d₁.start.index - 1, d₁.unitNum - 1⟩ }
  have hwf : Wf d₂ := { wf_addFront h₁.toWf hroom hptr hfresh₁ with }
  have hspan : span d₂ = span d₁ + 1 := span_addFront h₁.toWf hroom ptr
  have hpos := h₁.unitNum_pos
  have hu : d₁.unitNum - 1 < d₂.unitNum := by
    change d₁.unitNum - 1 < d₁.unitNum
    omega
  have hat := ptrAt_unit hwf (k := 0) hu (addFront_map_zero d₁ ptr)
  have hlt := position_lt (d := d₂) (k := 0) (Nat.zero_le _) hu
  rw [Nat.zero_mul, Nat.zero_add] at hat hlt
  obtain ⟨blocks', hstore, hwf', hcell, hother, -⟩ := storeUnit_ptrAt hwf hlt hat x
  refine ⟨{ d₂ with blocks := blocks' }, ?_, { hwf' with
    start_cur_lt := hu
    stop_cur_lt := h₁.stop_cur_lt
    length_eq := ?_
    elems := ?_ }⟩
  · unfold dequePushFront
    rw [if_neg (not_not.mpr hcur)]
    refine Option.bind_eq_some_iff.mpr ⟨_, hexec, ?_⟩
    simp only [ne_eq, not_true_eq_false, if_false, hptr, hbytes]
    refine Option.bind_eq_some_iff.mpr ⟨addFront d₁ ptr, ?_, ?_⟩
    · simp only [allocBlock, hindex]
      exact setMapData_addFront h₁.toWf hroom ptr
    · refine Option.bind_eq_some_iff.mpr ⟨{ d₂ with blocks := blocks' }, ?_, rfl⟩
      change storeUnit { addFront d₁ ptr with
        start := ⟨d₁.start.index - 1, u4Sub d₁.unitNum 1⟩ }
        (ptr, u4 (u4Sub d₁.unitNum 1 * d₁.unitSize)) x = _
      rw [hlast]
      exact hstore
  · change d₁.unitNum - 1 + (xs.length + 1) = span d₂ * d₁.unitNum + d₁.stop.cur
    have hlen := h₁.length_eq
    rw [hspan, Nat.succ_mul]
    omega
  · intro i hi
    cases i with
    | zero => exact hcell
    | succ i =>
        have hi' : i < xs.length := by simpa using hi
        have hold := h₁.position_lt_succ hi'
        rw [hcur₁, Nat.zero_add] at hold
        have hidx : d₁.unitNum - 1 + (i + 1) = d₁.unitNum + i := by omega
        have hbound : d₁.unitNum + i < (span d₂ + 1) * d₂.unitNum := by
          change d₁.unitNum + i < (span d₂ + 1) * d₁.unitNum
          rw [hspan, Nat.succ_mul]
          omega
        change cellAt { d₂ with blocks := blocks' } (d₁.unitNum - 1 + (i + 1)) = _
        rw [hidx, hother _ hbound (by omega)]
        change cellAt (addFront d₁ ptr) (d₁.unitNum + i) = _
        rw [cellAt_addFront h₁.toWf hroom hfresh₁ hold]
        simpa [hcur₁] using h₁.elems i hi'

/-- `deque_push_front` prepends, or fails with the deque at most laid out anew. -/
theorem dequePushFront_cases {d : DequeT α} {xs : List α} (h : Repr d xs) (x : α) (granted : Bool)
    {ptr : ℕ} (hfresh : ptr ≠ 0 → d.blocks ptr = none) :
    (∃ d', dequePushFront d x granted ptr = some (0, d') ∧ Repr d' (x :: xs)) ∨
    (∃ d', dequePushFront d x granted ptr = some (-2, d') ∧ Relayout d d' ∧
      (granted = false ∨ ptr = 0)) ∨
    (dequePushFront d x granted ptr = none ∧ 268435456 ≤ d.mapSize) := by
  by_cases hcur : d.start.cur = 0
  · rcases roomFront_cases h.toWf granted with ⟨d₁, hexec, hrel, hroom⟩ | ⟨hexec, hrefused⟩ |
        ⟨hexec, hwraps⟩
    · by_cases hptr : ptr = 0
      · refine .inr (.inl ⟨d₁, ?_, hrel, .inr hptr⟩)
        rw [dequePushFront, if_neg (not_not.mpr hcur), hexec]
        simp [hptr]
      · exact .inl (dequePushFront_across h x hexec hrel hroom hptr (hfresh hptr) hcur)
    · refine .inr (.inl ⟨d, ?_, Relayout.refl h.toWf, .inl hrefused⟩)
      rw [dequePushFront, if_neg (not_not.mpr hcur), hexec]
      rfl
    · refine .inr (.inr ⟨?_, hwraps⟩)
      rw [dequePushFront, if_neg (not_not.mpr hcur), hexec]
      rfl
  · exact .inl (dequePushFront_within h x granted ptr hcur)

/-- The slot after the last block: free already, or made free by a relayout. -/
theorem roomBack_cases {d : DequeT α} (h : Wf d) (granted : Bool) :
    (∃ d', roomBack d granted = some (0, d') ∧ Relayout d d' ∧ d'.stop.index + 1 < d'.mapSize) ∨
    (roomBack d granted = some (-2, d) ∧ granted = false) ∨
    (roomBack d granted = none ∧ 268435456 ≤ d.mapSize) := by
  have htwo := h.two_le
  have hlt := h.stop_index_lt
  have hmap := h.mapSize_lt
  have hlast : u4Sub d.mapSize 1 = d.mapSize - 1 := u4Sub_of_le (by omega) (by omega)
  rw [roomBack, hlast]
  by_cases hfull : d.stop.index = d.mapSize - 1
  · rw [if_pos hfull]
    rcases dequeUpdateMap_cases h granted with ⟨d', hexec, hrel, -, hback⟩ | hrefused | hwraps
    · exact .inl ⟨d', hexec, hrel, hback⟩
    · exact .inr (.inl hrefused)
    · exact .inr (.inr hwraps)
  · rw [if_neg hfull]
    exact .inl ⟨d, rfl, Relayout.refl h, by omega⟩

theorem setMapData_addBack {d : DequeT α} (h : Wf d) (hroom : d.stop.index + 1 < d.mapSize)
    (ptr : ℕ) :
    setMapData { allocBlock d ptr (d.unitNum * d.unitSize) with
      stop := { d.stop with index := d.stop.index + 1 } } (d.stop.index + 1) ptr =
      some { addBack d ptr with stop := { d.stop with index := d.stop.index + 1 } } := by
  have hin : inMap d (d.stop.index + 1) := inMap_of_lt h hroom
  exact if_pos hin

/-- The store that `deque_push_back` makes first.  It hits a unit behind the sequence. -/
theorem storeBack_spec {d : DequeT α} {xs : List α} (h : Repr d xs) (x : α) :
    ∃ block blocks', mapData d d.stop.index = some block ∧
      storeUnit d (block, u4 (d.stop.cur * d.unitSize)) x = some { d with blocks := blocks' } ∧
      Wf { d with blocks := blocks' } ∧
      (∀ i < (xs ++ [x]).length,
        cellAt { d with blocks := blocks' } (d.start.cur + i) = (xs ++ [x])[i]?) ∧
      ∀ ptr, blocks' ptr = none ↔ d.blocks ptr = none := by
  have hstop := h.stop_cur_lt
  have hlen := h.length_eq
  have hsum : d.start.index + span d = d.stop.index := Nat.add_sub_cancel' h.index_le
  obtain ⟨block, b, hblock, -⟩ := h.live (span d) le_rfl
  have hat := ptrAt_unit h.toWf hstop hblock
  have hlt := position_lt (d := d) le_rfl hstop
  obtain ⟨blocks', hstore, hwf', hcell, hother, hsame⟩ := storeUnit_ptrAt h.toWf hlt hat x
  have hdata : mapData d d.stop.index = some block := by
    rw [← hsum, mapData_of_wf h.toWf le_rfl, hblock]
  refine ⟨block, blocks', hdata, hstore, hwf', ?_, hsame⟩
  intro i hi
  rcases Nat.lt_or_ge i xs.length with hold | hnew
  · rw [List.getElem?_append_left hold,
      hother _ (h.position_lt_succ hold) (h.position_lt hold).ne]
    exact h.elems i hold
  · obtain rfl : i = xs.length := by
      simp only [List.length_append, List.length_singleton] at hi
      omega
    rw [hlen, hcell]
    simp

/-- A push that fills the last block, once the slot behind it is free. -/
theorem dequePushBack_across {d d₁ : DequeT α} {xs : List α} (h : Repr d xs) (x : α) {ptr block : ℕ}
    {granted : Bool} {blocks' : ℕ → Option (Block α)} (hdata : mapData d d.stop.index = some block)
    (hstore : storeUnit d (block, u4 (d.stop.cur * d.unitSize)) x =
      some { d with blocks := blocks' })
    (hwf : Wf { d with blocks := blocks', stop := { d.stop with cur := d.stop.cur + 1 } })
    (helems : ∀ i < (xs ++ [x]).length,
      cellAt { d with blocks := blocks' } (d.start.cur + i) = (xs ++ [x])[i]?)
    (hfull : d.stop.cur + 1 = d.unitNum)
    (hexec : roomBack { d with
      blocks := blocks'
      stop := { d.stop with cur := d.stop.cur + 1 } } granted = some (0, d₁))
    (hrel : Relayout { d with
      blocks := blocks'
      stop := { d.stop with cur := d.stop.cur + 1 } } d₁)
    (hroom : d₁.stop.index + 1 < d₁.mapSize) (hptr : ptr ≠ 0) (hfresh : d₁.blocks ptr = none) :
    ∃ d', dequePushBack d x granted ptr = some (0, d') ∧ Repr d' (xs ++ [x]) := by
  have hlen := h.length_eq
  have hunit := unitNum_lt h.toWf
  have hinc : u4 (d.stop.cur + 1) = d.stop.cur + 1 := u4_of_lt (by omega)
  have hbytes : u4 (d₁.unitNum * d₁.unitSize) = d₁.unitNum * d₁.unitSize :=
    u4_of_lt hrel.wf.block_lt
  have hindex : u4 (d₁.stop.index + 1) = d₁.stop.index + 1 :=
    u4_of_lt (by
      have := hrel.wf.mapSize_lt
      omega)
  have hspan := span_addBack hrel.wf ptr
  refine ⟨addBack d₁ ptr, ?_, { wf_addBack hrel.wf hroom hptr hfresh with
    start_cur_lt := ?_
    stop_cur_lt := hrel.wf.unitNum_pos
    length_eq := ?_
    elems := ?_ }⟩
  · refine Option.bind_eq_some_iff.mpr ⟨block, hdata, ?_⟩
    refine Option.bind_eq_some_iff.mpr ⟨_, hstore, ?_⟩
    simp only [hinc]
    rw [if_neg (not_not.mpr hfull)]
    refine Option.bind_eq_some_iff.mpr ⟨_, hexec, ?_⟩
    simp only [ne_eq, not_true_eq_false, if_false, hptr, hbytes]
    refine Option.bind_eq_some_iff.mpr ⟨{ addBack d₁ ptr with
      stop := { d₁.stop with index := d₁.stop.index + 1 } }, ?_, rfl⟩
    simp only [allocBlock, hindex]
    exact setMapData_addBack hrel.wf hroom ptr
  · change d₁.start.cur < d₁.unitNum
    rw [hrel.start_cur_eq, hrel.unitNum_eq]
    exact h.start_cur_lt
  · change d₁.start.cur + (xs ++ [x]).length = span (addBack d₁ ptr) * d₁.unitNum + 0
    rw [hspan, hrel.start_cur_eq, hrel.unitNum_eq, hrel.span_eq, Nat.succ_mul]
    change d.start.cur + (xs ++ [x]).length = span d * d.unitNum + d.unitNum + 0
    simp only [List.length_append, List.length_singleton]
    omega
  · intro i hi
    have hbound : d.start.cur + i < (span d + 1) * d.unitNum := by
      simp only [List.length_append, List.length_singleton] at hi
      rw [Nat.succ_mul]
      omega
    change cellAt (addBack d₁ ptr) (d₁.start.cur + i) = _
    rw [hrel.start_cur_eq, cellAt_addBack hrel.wf hfresh (by
      rw [hrel.span_eq, hrel.unitNum_eq]
      exact hbound), hrel.cellAt_eq hwf hbound]
    exact helems i hi

/-- `d'` is `d` with another unit behind the sequence, possibly laid out anew. -/
def Rewound (d d' : DequeT α) : Prop :=
  ∃ blocks', Wf { d with blocks := blocks' } ∧ Relayout { d with blocks := blocks' } d'

/-- `deque_push_back` appends, or fails with the deque at most laid out anew. -/
theorem dequePushBack_cases {d : DequeT α} {xs : List α} (h : Repr d xs) (x : α) (granted : Bool)
    {ptr : ℕ} (hfresh : ptr ≠ 0 → d.blocks ptr = none) :
    (∃ d', dequePushBack d x granted ptr = some (0, d') ∧ Repr d' (xs ++ [x])) ∨
    (∃ d', dequePushBack d x granted ptr = some (-2, d') ∧ Rewound d d' ∧ Repr d' xs ∧
      (granted = false ∨ ptr = 0)) ∨
    (dequePushBack d x granted ptr = none ∧ 268435456 ≤ d.mapSize) := by
  have hstop := h.stop_cur_lt
  have hlen := h.length_eq
  have hunit := unitNum_lt h.toWf
  have hinc : u4 (d.stop.cur + 1) = d.stop.cur + 1 := u4_of_lt (by omega)
  obtain ⟨block, blocks', hdata, hstore, hwf', helems, hsame⟩ := storeBack_spec h x
  by_cases hfull : d.stop.cur + 1 = d.unitNum
  · have hwf₀ : Wf { d with blocks := blocks', stop := { d.stop with cur := d.stop.cur + 1 } } :=
      { hwf' with }
    -- Without the unit just stored the deque holds `xs` again.
    have hback : Repr { d with blocks := blocks' } xs := by
      refine { hwf' with
        start_cur_lt := h.start_cur_lt
        stop_cur_lt := hstop
        length_eq := hlen
        elems := ?_ }
      intro i hi
      have helem := helems i (by rw [List.length_append]; omega)
      rwa [List.getElem?_append_left hi] at helem
    have hrewind : ∀ d₁, Relayout { d with
          blocks := blocks'
          stop := { d.stop with cur := d.stop.cur + 1 } } d₁ →
        Relayout { d with blocks := blocks' }
          { d₁ with stop := { d₁.stop with cur := u4Sub d₁.stop.cur 1 } } := by
      intro d₁ hrel
      have hcur₁ : d₁.stop.cur = d.stop.cur + 1 := hrel.stop_cur_eq
      rw [hcur₁, u4Sub_of_le (Nat.le_add_left _ _) (by omega), Nat.add_sub_cancel]
      exact ⟨{ hrel.wf with }, hrel.unitNum_eq, hrel.unitSize_eq, hrel.blocks_eq,
        hrel.start_cur_eq, rfl, hrel.span_eq, hrel.map_eq⟩
    rcases roomBack_cases hwf₀ granted with ⟨d₁, hexec, hrel, hroom⟩ | ⟨hexec, hrefused⟩ |
        ⟨hexec, hwraps⟩
    · by_cases hptr : ptr = 0
      · refine .inr (.inl ⟨_, ?_, ⟨blocks', hwf', hrewind d₁ hrel⟩, (hrewind d₁ hrel).repr hback,
          .inr hptr⟩)
        simp only [dequePushBack, hdata, hstore, Option.bind_eq_bind, Option.bind_some, hinc]
        rw [if_neg (not_not.mpr hfull), hexec]
        simp [hptr]
      · have hfresh₁ : d₁.blocks ptr = none := by
          rw [hrel.blocks_eq]
          exact (hsame ptr).mpr (hfresh hptr)
        exact .inl (dequePushBack_across h x hdata hstore hwf₀ helems hfull hexec hrel hroom hptr
          hfresh₁)
    · have hrel := hrewind _ (Relayout.refl hwf₀)
      refine .inr (.inl ⟨_, ?_, ⟨blocks', hwf', hrel⟩, hrel.repr hback, .inl hrefused⟩)
      simp only [dequePushBack, hdata, hstore, Option.bind_eq_bind, Option.bind_some, hinc]
      rw [if_neg (not_not.mpr hfull), hexec]
      rfl
    · refine .inr (.inr ⟨?_, hwraps⟩)
      simp only [dequePushBack, hdata, hstore, Option.bind_eq_bind, Option.bind_some, hinc]
      rw [if_neg (not_not.mpr hfull), hexec]
      rfl
  · refine .inl ⟨{ d with
        blocks := blocks'
        stop := { d.stop with cur := d.stop.cur + 1 } }, ?_, { hwf' with
      start_cur_lt := h.start_cur_lt
      stop_cur_lt := ?_
      length_eq := ?_
      elems := helems }⟩
    · simp only [dequePushBack, hdata, hstore, Option.bind_eq_bind, Option.bind_some, hinc]
      rw [if_pos hfull]
    · change d.stop.cur + 1 < d.unitNum
      omega
    · change d.start.cur + (xs ++ [x]).length = span d * d.unitNum + (d.stop.cur + 1)
      simp only [List.length_append, List.length_singleton]
      omega

/-! ## Pops -/

/-- A sequence with its first block exhausted has another block. -/
theorem Repr.one_le_span {d : DequeT α} {xs : List α} (h : Repr d xs) (hne : xs ≠ [])
    (hlast : d.stop.cur = 0 ∨ d.start.cur + 1 = d.unitNum) : 1 ≤ span d := by
  have hlen := h.length_eq
  have hpos := List.length_pos_of_ne_nil hne
  have hstop := h.stop_cur_lt
  by_contra hspan
  rw [show span d = 0 by omega, Nat.zero_mul] at hlen
  omega

theorem dequePopFront_nil {d : DequeT α} (h : Repr d []) :
    dequePopFront d = some ((-1, none), d) :=
  if_pos ((isNil_iff h).mpr rfl)

/-- `deque_pop_front` removes and returns the first element. -/
theorem dequePopFront_cons {d : DequeT α} {x : α} {xs : List α} (h : Repr d (x :: xs)) :
    ∃ d', dequePopFront d = some ((0, some x), d') ∧ Repr d' xs := by
  have hstart := h.start_cur_lt
  have hlen := h.length_eq
  have hunit := unitNum_lt h.toWf
  have hnil : ¬ isNil d := fun hcontra ↦ by simpa using (isNil_iff h).mp hcontra
  have hinc : u4 (d.start.cur + 1) = d.start.cur + 1 := u4_of_lt (by omega)
  obtain ⟨block, b, hblock, -, hb, -⟩ := h.live 0 (Nat.zero_le _)
  have hdata : mapData d d.start.index = some block :=
    (mapData_of_wf h.toWf (k := 0) (Nat.zero_le _)).trans hblock
  have hat := ptrAt_unit h.toWf (k := 0) hstart hblock
  have hlt := position_lt (d := d) (k := 0) (Nat.zero_le _) hstart
  rw [Nat.zero_mul, Nat.zero_add] at hat hlt
  have hload : loadUnit d (block, u4 (d.start.cur * d.unitSize)) = some x := by
    rw [loadUnit_ptrAt h.toWf hlt hat]
    simpa using h.elems 0 (by simp)
  simp only [List.length_cons] at hlen
  by_cases hfull : d.start.cur + 1 = d.unitNum
  · have hspan := h.one_le_span (by simp) (Or.inr hfull)
    have hindex : u4 (d.start.index + 1) = d.start.index + 1 := u4_of_lt (by
      have := h.mapSize_lt
      have := h.stop_index_lt
      have := h.index_le
      omega)
    have hlen' : xs.length = (span d - 1) * d.unitNum + d.stop.cur := by
      obtain ⟨s, hs⟩ : ∃ s, span d = s + 1 := ⟨span d - 1, by omega⟩
      rw [hs, Nat.succ_mul] at hlen
      rw [hs, Nat.add_sub_cancel]
      omega
    refine ⟨dropFront d block, ?_, { wf_dropFront h.toWf hspan hblock with
      start_cur_lt := h.unitNum_pos
      stop_cur_lt := h.stop_cur_lt
      length_eq := ?_
      elems := ?_ }⟩
    · unfold dequePopFront
      rw [if_neg hnil]
      refine Option.bind_eq_some_iff.mpr ⟨block, hdata, ?_⟩
      refine Option.bind_eq_some_iff.mpr ⟨x, hload, ?_⟩
      simp only [hinc, if_pos hfull]
      refine Option.bind_eq_some_iff.mpr ⟨_, if_pos (by simp [hb]), ?_⟩
      simp only [release, hindex]
      rfl
    · change 0 + xs.length = span (dropFront d block) * d.unitNum + d.stop.cur
      rw [span_dropFront]
      omega
    · intro i hi
      have hbound : i < span d * d.unitNum := by
        have hle := Nat.sub_add_cancel hspan
        have hmul : span d * d.unitNum = (span d - 1) * d.unitNum + d.unitNum := by
          rw [← Nat.succ_mul, Nat.succ_eq_add_one, hle]
        have := h.stop_cur_lt
        omega
      have helem := h.elems (i + 1) (by simpa using hi)
      change cellAt (dropFront d block) (0 + i) = _
      rw [Nat.zero_add, cellAt_dropFront h.toWf hspan hblock hbound, ← hfull,
        show d.start.cur + 1 + i = d.start.cur + (i + 1) by omega, helem]
      rfl
  · refine ⟨{ d with start := { d.start with cur := d.start.cur + 1 } }, ?_, { h.toWf with
      start_cur_lt := ?_
      stop_cur_lt := h.stop_cur_lt
      length_eq := ?_
      elems := ?_ }⟩
    · unfold dequePopFront
      rw [if_neg hnil]
      refine Option.bind_eq_some_iff.mpr ⟨block, hdata, ?_⟩
      refine Option.bind_eq_some_iff.mpr ⟨x, hload, ?_⟩
      simp only [hinc, if_neg hfull]
    · change d.start.cur + 1 < d.unitNum
      omega
    · change d.start.cur + 1 + xs.length = span d * d.unitNum + d.stop.cur
      omega
    · intro i hi
      have helem := h.elems (i + 1) (by simpa using hi)
      change cellAt d (d.start.cur + 1 + i) = _
      rw [show d.start.cur + 1 + i = d.start.cur + (i + 1) by omega, helem]
      rfl

theorem dequePopBack_nil {d : DequeT α} (h : Repr d []) :
    dequePopBack d = some ((-1, none), d) :=
  if_pos ((isNil_iff h).mpr rfl)

/-- The last position of a non-empty sequence. -/
theorem Repr.last_position {d : DequeT α} {xs : List α} {x : α} (h : Repr d (xs ++ [x])) :
    d.start.cur + xs.length + 1 = span d * d.unitNum + d.stop.cur ∧
      cellAt d (d.start.cur + xs.length) = some x := by
  have hlen := h.length_eq
  have helem := h.elems xs.length (by simp)
  simp only [List.length_append, List.length_singleton] at hlen
  exact ⟨by omega, by simpa using helem⟩

/-- The elements before the last one are kept when the cursors say so. -/
theorem Repr.elems_init {d : DequeT α} {xs : List α} {x : α} (h : Repr d (xs ++ [x])) {i : ℕ}
    (hi : i < xs.length) : cellAt d (d.start.cur + i) = xs[i]? := by
  rw [h.elems i (by simp; omega), List.getElem?_append_left hi]

/-- `deque_pop_back` removes and returns the last element. -/
theorem dequePopBack_append {d : DequeT α} {x : α} {xs : List α} (h : Repr d (xs ++ [x])) :
    ∃ d', dequePopBack d = some ((0, some x), d') ∧ Repr d' xs := by
  have hstop := h.stop_cur_lt
  have hunit := unitNum_lt h.toWf
  obtain ⟨hlast, hcell⟩ := h.last_position
  have hsum : d.start.index + span d = d.stop.index := Nat.add_sub_cancel' h.index_le
  have hnil : ¬ isNil d := fun hcontra ↦ by simpa using (isNil_iff h).mp hcontra
  obtain ⟨block, b, hblock, -, hb, -⟩ := h.live (span d) le_rfl
  have hblock' : d.map d.stop.index = some block := hsum ▸ hblock
  have hdata : mapData d d.stop.index = some block := by
    rw [← hsum, mapData_of_wf h.toWf le_rfl, hblock]
  by_cases hcur : d.stop.cur = 0
  · have hspan := h.one_le_span (by simp) (Or.inl hcur)
    have hindex : u4Sub d.stop.index 1 = d.stop.index - 1 := u4Sub_of_le
      (by omega) (h.stop_index_lt.trans (h.mapSize_lt.trans (by decide)))
    have hdec : u4Sub d.unitNum 1 = d.unitNum - 1 := u4Sub_of_le h.unitNum_pos hunit
    have hmul : span d * d.unitNum = (span d - 1) * d.unitNum + d.unitNum := by
      rw [← Nat.succ_mul, Nat.succ_eq_add_one, Nat.sub_add_cancel hspan]
    have hpos := h.unitNum_pos
    have hwf : Wf (dropBack d block (d.unitNum - 1)) := wf_dropBack h.toWf hspan hblock'
    have hwf₀ : Wf (dropBack d block d.unitNum) := wf_dropBack h.toWf hspan hblock'
    obtain ⟨block₂, b₂, hmap₂, hold₂, -⟩ :=
      dropBack_live h.toWf hspan d.unitNum hblock' (k := span d - 1) le_rfl
    have hidx₂ : d.start.index + (span d - 1) = d.stop.index - 1 := by omega
    have hdata₂ : mapData (dropBack d block d.unitNum) (d.stop.index - 1) = some block₂ := by
      rw [← hidx₂]
      exact (mapData_of_wf hwf₀ (by rw [span_dropBack])).trans hmap₂
    have hu : d.unitNum - 1 < (dropBack d block d.unitNum).unitNum := by
      change d.unitNum - 1 < d.unitNum
      omega
    have hat : ptrAt (dropBack d block d.unitNum)
        ((span d - 1) * d.unitNum + (d.unitNum - 1)) =
        some (block₂, u4 ((d.unitNum - 1) * d.unitSize)) :=
      ptrAt_unit hwf₀ hu hmap₂
    have hload : loadUnit (dropBack d block d.unitNum)
        (block₂, u4 ((d.unitNum - 1) * d.unitSize)) = some x := by
      have hlt : (span d - 1) * d.unitNum + (d.unitNum - 1) <
          (span (dropBack d block d.unitNum) + 1) * (dropBack d block d.unitNum).unitNum :=
        position_lt (by rw [span_dropBack]) hu
      rw [loadUnit_ptrAt hwf₀ hlt hat, cellAt_dropBack h.toWf hspan hblock' (by omega),
        show (span d - 1) * d.unitNum + (d.unitNum - 1) = d.start.cur + xs.length by omega,
        hcell]
    refine ⟨dropBack d block (d.unitNum - 1), ?_, { hwf with
      start_cur_lt := h.start_cur_lt
      stop_cur_lt := hu
      length_eq := ?_
      elems := ?_ }⟩
    · unfold dequePopBack
      rw [if_neg hnil]
      refine Option.bind_eq_some_iff.mpr ⟨block, hdata, ?_⟩
      rw [if_neg (not_not.mpr hcur)]
      refine Option.bind_eq_some_iff.mpr ⟨_, if_pos (by simp [hb]), ?_⟩
      simp only [release, hindex, hdec]
      refine Option.bind_eq_some_iff.mpr ⟨block₂, hdata₂, ?_⟩
      exact Option.bind_eq_some_iff.mpr ⟨x, hload, rfl⟩
    · change d.start.cur + xs.length = span (dropBack d block _) * d.unitNum + (d.unitNum - 1)
      rw [span_dropBack]
      omega
    · intro i hi
      change cellAt (dropBack d block (d.unitNum - 1)) (d.start.cur + i) = _
      rw [cellAt_dropBack h.toWf hspan hblock' (by omega), h.elems_init hi]
  · have hdec : u4Sub d.stop.cur 1 = d.stop.cur - 1 := u4Sub_of_le (by omega) (by omega)
    have hu : d.stop.cur - 1 < d.unitNum := by omega
    have hat := ptrAt_unit h.toWf hu hblock
    have hload : loadUnit d (block, u4 ((d.stop.cur - 1) * d.unitSize)) = some x := by
      rw [loadUnit_ptrAt h.toWf (position_lt le_rfl hu) hat,
        show span d * d.unitNum + (d.stop.cur - 1) = d.start.cur + xs.length by omega, hcell]
    refine ⟨{ d with stop := { d.stop with cur := d.stop.cur - 1 } }, ?_, { h.toWf with
      start_cur_lt := h.start_cur_lt
      stop_cur_lt := hu
      length_eq := ?_
      elems := ?_ }⟩
    · unfold dequePopBack
      rw [if_neg hnil]
      refine Option.bind_eq_some_iff.mpr ⟨block, hdata, ?_⟩
      rw [if_pos hcur]
      simp only [hdec]
      exact Option.bind_eq_some_iff.mpr ⟨x, hload, rfl⟩
    · change d.start.cur + xs.length = span d * d.unitNum + (d.stop.cur - 1)
      omega
    · intro i hi
      change cellAt d (d.start.cur + i) = _
      exact h.elems_init hi

/-! ## Queries -/

/-- `deque_front` points at the first element, and is nil on the empty sequence. -/
theorem dequeFront_spec {d : DequeT α} {xs : List α} (h : Repr d xs) :
    ∃ ptr, dequeFront d = some ptr ∧ ptr.bind (loadUnit d) = xs.head? ∧ (ptr = none ↔ xs = []) := by
  unfold dequeFront
  by_cases hnil : isNil d
  · have hxs := (isNil_iff h).mp hnil
    exact ⟨none, if_pos hnil, by simp [hxs], by simp [hxs]⟩
  · have hne : xs ≠ [] := fun heq ↦ hnil ((isNil_iff h).mpr heq)
    obtain ⟨block, b, hblock, -⟩ := h.live 0 (Nat.zero_le _)
    have hdata : mapData d d.start.index = some block :=
      (mapData_of_wf h.toWf (k := 0) (Nat.zero_le _)).trans hblock
    have hat := ptrAt_unit h.toWf (k := 0) h.start_cur_lt hblock
    have hlt := position_lt (d := d) (k := 0) (Nat.zero_le _) h.start_cur_lt
    rw [Nat.zero_mul, Nat.zero_add] at hat hlt
    refine ⟨some (block, u4 (d.start.cur * d.unitSize)), by simp [hnil, hdata], ?_, by simp [hne]⟩
    rw [Option.bind_some, loadUnit_ptrAt h.toWf hlt hat, List.head?_eq_getElem?]
    exact h.elems 0 (List.length_pos_of_ne_nil hne)

/-- `deque_back` points at the last element, and is nil on the empty sequence. -/
theorem dequeBack_spec {d : DequeT α} {xs : List α} (h : Repr d xs) :
    ∃ ptr, dequeBack d = some ptr ∧ ptr.bind (loadUnit d) = xs.getLast? ∧
      (ptr = none ↔ xs = []) := by
  unfold dequeBack
  by_cases hnil : isNil d
  · have hxs := (isNil_iff h).mp hnil
    exact ⟨none, if_pos hnil, by simp [hxs], by simp [hxs]⟩
  · have hne : xs ≠ [] := fun heq ↦ hnil ((isNil_iff h).mpr heq)
    obtain ⟨ys, y, rfl⟩ : ∃ ys y, xs = ys ++ [y] :=
      ⟨xs.dropLast, xs.getLast hne, (List.dropLast_append_getLast hne).symm⟩
    obtain ⟨hlast, hcell⟩ := h.last_position
    have hunit := unitNum_lt h.toWf
    have hstop := h.stop_cur_lt
    have hpos := h.unitNum_pos
    have hsum : d.start.index + span d = d.stop.index := Nat.add_sub_cancel' h.index_le
    by_cases hcur : d.stop.cur = 0
    · have hspan := h.one_le_span hne (Or.inl hcur)
      have hmul : span d * d.unitNum = (span d - 1) * d.unitNum + d.unitNum := by
        rw [← Nat.succ_mul, Nat.succ_eq_add_one, Nat.sub_add_cancel hspan]
      obtain ⟨block, b, hblock, -⟩ := h.live (span d - 1) (Nat.sub_le _ _)
      have hindex : u4Sub d.stop.index 1 = d.start.index + (span d - 1) := by
        rw [u4Sub_of_le (by omega) (h.stop_index_lt.trans (h.mapSize_lt.trans (by decide)))]
        omega
      have hdec : u4Sub d.unitNum 1 = d.unitNum - 1 := u4Sub_of_le hpos hunit
      have hdata : mapData d (u4Sub d.stop.index 1) = some block := by
        rw [hindex, mapData_of_wf h.toWf (Nat.sub_le _ _), hblock]
      have hu : d.unitNum - 1 < d.unitNum := by omega
      have hat := ptrAt_unit h.toWf hu hblock
      refine ⟨some (block, u4 ((d.unitNum - 1) * d.unitSize)),
        by simp [hnil, hcur, hdata, hdec], ?_, by simp⟩
      rw [Option.bind_some, loadUnit_ptrAt h.toWf (position_lt (Nat.sub_le _ _) hu) hat,
        show (span d - 1) * d.unitNum + (d.unitNum - 1) = d.start.cur + ys.length by omega, hcell]
      simp
    · obtain ⟨block, b, hblock, -⟩ := h.live (span d) le_rfl
      have hdec : u4Sub d.stop.cur 1 = d.stop.cur - 1 := u4Sub_of_le (by omega) (by omega)
      have hdata : mapData d d.stop.index = some block := by
        rw [← hsum, mapData_of_wf h.toWf le_rfl, hblock]
      have hu : d.stop.cur - 1 < d.unitNum := by omega
      have hat := ptrAt_unit h.toWf hu hblock
      refine ⟨some (block, u4 ((d.stop.cur - 1) * d.unitSize)),
        by simp [hnil, hcur, hdata, hdec], ?_, by simp⟩
      rw [Option.bind_some, loadUnit_ptrAt h.toWf (position_lt le_rfl hu) hat,
        show span d * d.unitNum + (d.stop.cur - 1) = d.start.cur + ys.length by omega, hcell]
      simp

/-- The address of the element `i`. -/
def elemPtr (d : DequeT α) (i : ℕ) : Option ElemPtr := ptrAt d (d.start.cur + i)

theorem elemPtr_load {d : DequeT α} {xs : List α} (h : Repr d xs) {i : ℕ} (hi : i < xs.length) :
    (elemPtr d i).bind (loadUnit d) = xs[i]? := by
  have hlt := h.position_lt_succ hi
  obtain ⟨ptr, hptr⟩ := exists_ptrAt h.toWf hlt
  rw [elemPtr, hptr, Option.bind_some, loadUnit_ptrAt h.toWf hlt hptr, h.elems i hi]

/-- Distinct positions in use have distinct addresses. -/
theorem ptrAt_injective {d : DequeT α} (h : Wf d) {p q : ℕ} (hp : p < (span d + 1) * d.unitNum)
    (hq : q < (span d + 1) * d.unitNum) (heq : ptrAt d p = ptrAt d q) : p = q := by
  obtain ⟨bp, _, hmapp, -⟩ := h.live _ ((div_le_span h).mpr hp)
  obtain ⟨bq, _, hmapq, -⟩ := h.live _ ((div_le_span h).mpr hq)
  simp only [ptrAt, hmapp, hmapq, Option.map_some, Option.some.injEq, Prod.mk.injEq] at heq
  have hdiv := h.inj _ ((div_le_span h).mpr hp) _ ((div_le_span h).mpr hq)
    (hmapp.trans ((congrArg some heq.1).trans hmapq.symm))
  exact position_ext hdiv (Nat.eq_of_mul_eq_mul_right h.unitSize_pos heq.2)

/-- `deque_at` computes the address of the position `start.cur + i` reduced to 32 bits. -/
theorem dequeAt_eq {d : DequeT α} (h : Wf d) {i : ℕ}
    (hi : u4 (i + d.start.cur) < (span d + 1) * d.unitNum) :
    dequeAt d i = ptrAt d (u4 (i + d.start.cur)) := by
  have hk := (div_le_span h).mpr hi
  have hidx : u4 (d.start.index + u4 (i + d.start.cur) / d.unitNum) =
      d.start.index + u4 (i + d.start.cur) / d.unitNum := u4_of_lt (by
    have := h.mapSize_lt
    have := h.stop_index_lt
    have := h.index_le
    unfold span at hk
    omega)
  obtain ⟨block, b, hblock, -⟩ := h.live _ hk
  have hoff := unit_offset_lt h (Nat.mod_lt (u4 (i + d.start.cur)) h.unitNum_pos)
  simp [dequeAt, hidx, mapData_of_wf h hk, ptrAt, hblock, u4_of_lt hoff]

/-- `deque_at` never faults below the length, and it finds the element exactly when the position
does not wrap. -/
theorem dequeAt_spec {d : DequeT α} {xs : List α} (h : Repr d xs) {i : ℕ} (hi : i < xs.length) :
    (dequeAt d i).isSome ∧ (dequeAt d i = elemPtr d i ↔ d.start.cur + i < 4294967296) := by
  have hlt := h.position_lt_succ hi
  have hle : u4 (i + d.start.cur) ≤ d.start.cur + i := by
    unfold u4
    rw [Nat.add_comm]
    exact Nat.mod_le _ _
  have hlt' := hle.trans_lt hlt
  rw [dequeAt_eq h.toWf hlt']
  refine ⟨Option.isSome_iff_exists.mpr (exists_ptrAt h.toWf hlt'), ?_⟩
  constructor
  · intro heq
    have hpos := ptrAt_injective h.toWf hlt' hlt heq
    have := u4_lt (i + d.start.cur)
    omega
  · intro hno
    rw [u4_of_lt (by omega), Nat.add_comm i]
    rfl

/-! ## The machine -/

/-- Deques from `_deque_init` with a map of two slots or more, driven by calls whose allocations
succeed while the map stays below `2^28` slots. -/
def machine (α : Type) : Lib.Machine (DequeT α) (Call α) (ℤ × Option α) where
  init d := ∃ unitSize mapSize blockSize block, 0 < unitSize ∧ unitSize ≤ blockSize ∧
    blockSize < 4294967296 ∧ 2 ≤ mapSize ∧ mapSize < 268435456 ∧ block ≠ 0 ∧
    dequeInit unitSize mapSize blockSize block = some d
  ok d call := d.mapSize < 268435456 ∧
    match call with
    | .pushFront _ granted ptr => granted = true ∧ ptr ≠ 0 ∧ d.blocks ptr = none
    | .pushBack _ granted ptr => granted = true ∧ ptr ≠ 0 ∧ d.blocks ptr = none
    | .popFront => True
    | .popBack => True
  exec := exec

instance (d : DequeT α) (call : Call α) : Decidable ((machine α).ok d call) := by
  cases call <;> exact inferInstanceAs (Decidable (_ ∧ _))

/-- The sequence after a call. -/
def listStep (xs : List α) : Call α → List α
  | .pushFront x _ _ => x :: xs
  | .pushBack x _ _ => xs ++ [x]
  | .popFront => xs.tail
  | .popBack => xs.dropLast

/-- What a call returns when the sequence is `xs`: a pop fails exactly on the empty sequence. -/
def listResult (xs : List α) : Call α → ℤ × Option α
  | .pushFront _ _ _ => (0, none)
  | .pushBack _ _ _ => (0, none)
  | .popFront => (if xs = [] then -1 else 0, xs.head?)
  | .popBack => (if xs = [] then -1 else 0, xs.getLast?)

/-- The sequence held after the calls of a log. -/
def contents (log : List (Call α × (ℤ × Option α))) : List α :=
  Lib.Machine.replay (fun xs call _ ↦ listStep xs call) [] log

/-- `_deque_init` makes an empty deque. -/
theorem repr_dequeInit {d : DequeT α} {unitSize mapSize blockSize block : ℕ}
    (hlt : blockSize < 4294967296) (htwo : 2 ≤ mapSize) (hmap : mapSize < 536870912)
    (hnz : block ≠ 0) (heq : dequeInit unitSize mapSize blockSize block = some d) : Repr d [] := by
  have hbytes : blockSize / unitSize * unitSize < 4294967296 :=
    (Nat.div_mul_le_self blockSize unitSize).trans_lt hlt
  have hmapBytes : u4 (mapSize * sizeofBlock) = mapSize * sizeofBlock :=
    u4_of_lt (by unfold sizeofBlock; omega)
  have hslot : (mapSize / 2 + 1) * sizeofBlock ≤ mapSize * sizeofBlock :=
    Nat.mul_le_mul_right _ (by omega)
  have hlegal : ¬ (unitSize = 0 ∨ mapSize = 0 ∨ blockSize < unitSize) := by
    intro hillegal
    rw [dequeInit, if_pos hillegal] at heq
    cases heq
  rw [dequeInit, if_neg hlegal] at heq
  simp only [hmapBytes, u4_of_lt hbytes, setMapData, inMap, allocBlock,
    show mapSize / 2 < mapSize by omega, hslot, and_self, if_true, Option.some.injEq] at heq
  subst heq
  have hunit : 0 < unitSize := by omega
  have hpos : 0 < blockSize / unitSize := Nat.div_pos (by omega) hunit
  refine { unitNum_pos := hpos, unitSize_pos := hunit, block_lt := hbytes, two_le := htwo,
           mapSize_lt := hmap, mapBytes_eq := rfl, index_le := le_rfl,
           stop_index_lt := by change mapSize / 2 < mapSize; omega, live := ?_, inj := ?_,
           start_cur_lt := hpos, stop_cur_lt := hpos, length_eq := ?_, elems := ?_ }
  · intro k hk
    obtain rfl : k = 0 := by simpa [span] using hk
    refine ⟨block, ⟨blockSize / unitSize * unitSize, fun _ ↦ none⟩, ?_, hnz, ?_, rfl⟩
    · simp
    · simp
  · intro j hj k hk _
    simp only [span, Nat.sub_self, Nat.le_zero] at hj hk
    omega
  · simp [span]
  · intro i hi
    exact absurd hi (by simp)

theorem repr_init {d : DequeT α} (hinit : (machine α).init d) : Repr d [] := by
  obtain ⟨unitSize, mapSize, blockSize, block, -, -, hlt, htwo, hmap, hnz, heq⟩ := hinit
  exact repr_dequeInit hlt htwo (by omega) hnz heq

theorem exec_simulates :
    (machine α).Simulates (fun xs call _ ↦ listStep xs call)
      (fun xs call r ↦ r = listResult xs call) Repr := by
  intro d xs call h hok
  obtain ⟨hsize, hcall⟩ := hok
  cases call with
  | pushFront x granted ptr =>
      obtain ⟨rfl, hptr, hfresh⟩ := hcall
      rcases dequePushFront_cases h x true (fun _ ↦ hfresh) with
        ⟨d', hexec, hrepr⟩ | ⟨d', -, -, hrefused | hnil⟩ | ⟨-, hwraps⟩
      · exact ⟨(0, none), d', by simp [machine, exec, hexec], rfl, hrepr⟩
      · cases hrefused
      · exact absurd hnil hptr
      · omega
  | pushBack x granted ptr =>
      obtain ⟨rfl, hptr, hfresh⟩ := hcall
      rcases dequePushBack_cases h x true (fun _ ↦ hfresh) with
        ⟨d', hexec, hrepr⟩ | ⟨d', -, -, -, hrefused | hnil⟩ | ⟨-, hwraps⟩
      · exact ⟨(0, none), d', by simp [machine, exec, hexec], rfl, hrepr⟩
      · cases hrefused
      · exact absurd hnil hptr
      · omega
  | popFront =>
      cases xs with
      | nil => exact ⟨_, d, dequePopFront_nil h, rfl, h⟩
      | cons x xs =>
          obtain ⟨d', hexec, hrepr⟩ := dequePopFront_cons h
          exact ⟨_, d', hexec, by simp [listResult], hrepr⟩
  | popBack =>
      rcases List.eq_nil_or_concat xs with rfl | ⟨ys, y, rfl⟩
      · exact ⟨_, d, dequePopBack_nil h, rfl, h⟩
      · rw [List.concat_eq_append] at h ⊢
        obtain ⟨d', hexec, hrepr⟩ := dequePopBack_append h
        exact ⟨_, d', hexec, by simp [listResult], by simpa [listStep] using hrepr⟩

/-- Along every run the deque behaves as a list: the map slots in use lie in the array and hold
allocated blocks, every call returns what the list gives without a fault, the two ends are found, and `deque_at i` is the address of the element `i` exactly
when `start.cur + i` stays below `2^32`. -/
theorem deque_refines_list {d : DequeT α} {log : List (Call α × (ℤ × Option α))}
    (htrace : (machine α).Trace d log) :
    (∀ i, d.start.index ≤ i → i ≤ d.stop.index → inMap d i ∧
      ∃ block b, d.map i = some block ∧ d.blocks block = some b) ∧
    (∀ call, (machine α).ok d call →
      ∃ d', (machine α).exec d call = some (listResult (contents log) call, d')) ∧
    (∃ ptr, dequeFront d = some ptr ∧ ptr.bind (loadUnit d) = (contents log).head? ∧
      (ptr = none ↔ contents log = [])) ∧
    (∃ ptr, dequeBack d = some ptr ∧ ptr.bind (loadUnit d) = (contents log).getLast? ∧
      (ptr = none ↔ contents log = [])) ∧
    ∀ i < (contents log).length,
      (elemPtr d i).bind (loadUnit d) = (contents log)[i]? ∧ (dequeAt d i).isSome ∧
        (dequeAt d i = elemPtr d i ↔ d.start.cur + i < 4294967296) := by
  obtain ⟨hrepr, hcalls⟩ :=
    htrace.refines [] (fun _ hinit ↦ repr_init hinit) exec_simulates
  refine ⟨fun i hlo hhi ↦ ?_, fun call hok ↦ ?_, dequeFront_spec hrepr, dequeBack_spec hrepr,
    fun i hi ↦ ?_⟩
  · have hlive := hrepr.live (i - d.start.index) (Nat.sub_le_sub_right hhi _)
    rw [Nat.add_sub_cancel' hlo] at hlive
    obtain ⟨block, b, hblock, -, hb, -⟩ := hlive
    exact ⟨inMap_of_lt hrepr.toWf (hhi.trans_lt hrepr.stop_index_lt), block, b, hblock, hb⟩
  · obtain ⟨r, d', hexec, rfl⟩ := hcalls call hok
    exact ⟨d', hexec⟩
  · exact ⟨elemPtr_load hrepr hi, dequeAt_spec hrepr hi⟩

/-- A deque whose single block fills the whole `u4` range. -/
def wideInit : DequeT ℕ :=
  (dequeInit 1 8 4294967295 1).get (by with_unfolding_all decide)

/-- Three pushes across the boundary of that block. -/
def wideCalls : List (Call ℕ) :=
  [.pushFront 10 true 2, .pushBack 20 true 3, .pushBack 30 true 4]

theorem wideCalls_run : ((machine ℕ).execAll wideInit wideCalls).isSome := by with_unfolding_all decide

theorem wideInit_init : (machine ℕ).init wideInit :=
  ⟨1, 8, 4294967295, 1, by decide, by decide, by decide, by decide, by decide, by decide,
    (Option.some_get _).symm⟩

theorem wideCalls_trace :
    (machine ℕ).Trace (((machine ℕ).execAll wideInit wideCalls).get wideCalls_run).2
      (((machine ℕ).execAll wideInit wideCalls).get wideCalls_run).1 :=
  Lib.Machine.trace_execAll wideInit_init (by with_unfolding_all decide) (Option.some_get _).symm

/-- The third element of a deque of three: `2 + start.cur` is `2^32`, so `deque_at` returns the
address of the first unit of the first block, which was never written. -/
theorem dequeAt_wrapped :
    ∃ d log, (machine ℕ).Trace d log ∧ contents log = [10, 20, 30] ∧
      (dequeAt d 2).bind (loadUnit d) = none :=
  ⟨_, _, wideCalls_trace, by with_unfolding_all decide, by with_unfolding_all decide⟩

/-- On the same run the two indices below the wrap are answered correctly. -/
theorem deque_refines_list_wide :
    ∃ d log, (machine ℕ).Trace d log ∧ contents log = [10, 20, 30] ∧
      dequeAt d 1 = elemPtr d 1 ∧ dequeAt d 2 ≠ elemPtr d 2 := by
  have hrun := deque_refines_list wideCalls_trace
  have hcontents : contents (((machine ℕ).execAll wideInit wideCalls).get wideCalls_run).1 =
      [10, 20, 30] := by with_unfolding_all decide
  rw [hcontents] at hrun
  refine ⟨_, _, wideCalls_trace, hcontents, ?_, ?_⟩
  · exact (hrun.2.2.2.2 1 (by decide)).2.2.mpr (by with_unfolding_all decide)
  · exact fun heq ↦ absurd ((hrun.2.2.2.2 2 (by decide)).2.2.mp heq) (by with_unfolding_all decide)

end CPractice.Deque
