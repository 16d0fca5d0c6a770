import CPractice.Deque.Model
import Mathlib.Tactic.Ring
import Mathlib.Data.List.GetD

/-!
# The block deque refines a sequence

Positions are counted in units from the first unit of the block at `start.index`: the element `i`
of the sequence is at position `start.cur + i`, in block `p / unit_num` and unit `p % unit_num` of
it.  `Repr d xs` says that the shape of `d` is sound (`Wf`) and that those positions hold `xs`.
Each push and pop moves a cursor and touches one position; a change of blocks at either end, or of
the whole map, is a shift of positions.
-/

namespace CPractice.Deque

variable {α : Type}

/-! ## Shape and contents -/

/-- The number of blocks in use, less one. -/
def span (d : DequeT α) : ℕ := d.stop.index - d.start.index

/-- What every reachable deque looks like, whatever it holds. -/
structure Wf (d : DequeT α) : Prop where
  unitNum_pos : 0 < d.unitNum
  unitSize_pos : 0 < d.unitSize
  block_lt : d.unitNum * d.unitSize < 4294967296
  two_le : 2 ≤ d.mapSize
  mapSize_lt : d.mapSize < 536870912
  mapBytes_eq : d.mapBytes = d.mapSize * sizeofBlock
  index_le : d.start.index ≤ d.stop.index
  stop_index_lt : d.stop.index < d.mapSize
  live : ∀ k ≤ span d, ∃ block b, d.map (d.start.index + k) = some block ∧ block ≠ 0 ∧
    d.blocks block = some b ∧ b.bytes = d.unitNum * d.unitSize
  inj : ∀ j ≤ span d, ∀ k ≤ span d,
    d.map (d.start.index + j) = d.map (d.start.index + k) → j = k

/-- The unit at position `p`, counted from the first unit of the first block. -/
def cellAt (d : DequeT α) (p : ℕ) : Option α := do
  let block ← d.map (d.start.index + p / d.unitNum)
  let b ← d.blocks block
  b.data (p % d.unitNum * d.unitSize)

/-- The deque `d` holds the sequence `xs`. -/
structure Repr (d : DequeT α) (xs : List α) : Prop extends Wf d where
  start_cur_lt : d.start.cur < d.unitNum
  stop_cur_lt : d.stop.cur < d.unitNum
  length_eq : d.start.cur + xs.length = span d * d.unitNum + d.stop.cur
  elems : ∀ i < xs.length, cellAt d (d.start.cur + i) = xs[i]?

/-! ## Positions -/

theorem div_le_span {d : DequeT α} (h : Wf d) {p : ℕ} :
    p / d.unitNum ≤ span d ↔ p < (span d + 1) * d.unitNum := by
  rw [← Nat.lt_succ_iff, Nat.div_lt_iff_lt_mul h.unitNum_pos]

theorem unit_offset_le {n u : ℕ} (size : ℕ) (hu : u < n) : u * size + size ≤ n * size := by
  calc
    u * size + size = (u + 1) * size := by ring
    _ ≤ n * size := Nat.mul_le_mul_right size hu

theorem unit_offset_lt {d : DequeT α} (h : Wf d) {u : ℕ} (hu : u < d.unitNum) :
    u * d.unitSize < 4294967296 := by
  have hle := unit_offset_le d.unitSize hu
  have hpos := h.unitSize_pos
  have hlt := h.block_lt
  omega

theorem unitNum_lt {d : DequeT α} (h : Wf d) : d.unitNum < 4294967296 :=
  (Nat.le_mul_of_pos_right _ h.unitSize_pos).trans_lt h.block_lt

theorem inMap_of_lt {d : DequeT α} (h : Wf d) {i : ℕ} (hi : i < d.mapSize) : inMap d i := by
  refine ⟨hi, ?_⟩
  rw [h.mapBytes_eq]
  exact Nat.mul_le_mul_right _ hi

theorem mapData_of_wf {d : DequeT α} (h : Wf d) {k : ℕ} (hk : k ≤ span d) :
    mapData d (d.start.index + k) = d.map (d.start.index + k) := by
  have hlt := h.stop_index_lt
  have hle := h.index_le
  unfold span at hk
  exact if_pos (inMap_of_lt h (by omega))

/-- Two positions in the same unit of the same block are the same position. -/
theorem position_ext {n p q : ℕ} (hdiv : p / n = q / n) (hmod : p % n = q % n) : p = q := by
  rw [← Nat.div_add_mod p n, ← Nat.div_add_mod q n, hdiv, hmod]

/-! ## Units -/

/-- The address of the unit at position `p`. -/
def ptrAt (d : DequeT α) (p : ℕ) : Option ElemPtr :=
  (d.map (d.start.index + p / d.unitNum)).map fun block ↦ (block, p % d.unitNum * d.unitSize)

theorem exists_ptrAt {d : DequeT α} (h : Wf d) {p : ℕ} (hp : p < (span d + 1) * d.unitNum) :
    ∃ ptr, ptrAt d p = some ptr := by
  obtain ⟨block, b, hmap, -⟩ := h.live _ ((div_le_span h).mpr hp)
  exact ⟨_, by simp [ptrAt, hmap]; rfl⟩

theorem loadUnit_ptrAt {d : DequeT α} (h : Wf d) {p : ℕ} (hp : p < (span d + 1) * d.unitNum)
    {ptr : ElemPtr} (hptr : ptrAt d p = some ptr) : loadUnit d ptr = cellAt d p := by
  obtain ⟨block, b, hmap, -, hb, hbytes⟩ := h.live _ ((div_le_span h).mpr hp)
  have hoff := unit_offset_le d.unitSize (Nat.mod_lt p h.unitNum_pos)
  have heq : ptr = (block, p % d.unitNum * d.unitSize) := by
    simpa [ptrAt, hmap, eq_comm] using hptr
  subst heq
  simp [loadUnit, cellAt, hmap, hb, hbytes, hoff]

/-- The store to position `p`: it succeeds, keeps the shape, and changes that position only. -/
theorem storeUnit_ptrAt {d : DequeT α} (h : Wf d) {p : ℕ} (hp : p < (span d + 1) * d.unitNum)
    {ptr : ElemPtr} (hptr : ptrAt d p = some ptr) (x : α) :
    ∃ blocks', storeUnit d ptr x = some { d with blocks := blocks' } ∧
      Wf { d with blocks := blocks' } ∧
      cellAt { d with blocks := blocks' } p = some x ∧
      (∀ q < (span d + 1) * d.unitNum, q ≠ p →
        cellAt { d with blocks := blocks' } q = cellAt d q) ∧
      ∀ block, blocks' block = none ↔ d.blocks block = none := by
  obtain ⟨block, b, hmap, hnz, hb, hbytes⟩ := h.live _ ((div_le_span h).mpr hp)
  have hoff := unit_offset_le d.unitSize (Nat.mod_lt p h.unitNum_pos)
  have heq : ptr = (block, p % d.unitNum * d.unitSize) := by
    simpa [ptrAt, hmap, eq_comm] using hptr
  subst heq
  refine ⟨Function.update d.blocks block
    (some { b with data := Function.update b.data (p % d.unitNum * d.unitSize) (some x) }),
    by simp [storeUnit, hb, hbytes, hoff], ?_, ?_, ?_, ?_⟩
  · refine { h with live := ?_ }
    intro k hk
    obtain ⟨block', b', hmap', hnz', hb', hbytes'⟩ := h.live k hk
    by_cases hsame : block' = block
    · subst hsame
      exact ⟨block', _, hmap', hnz', Function.update_self .., hbytes⟩
    · exact ⟨block', b', hmap', hnz', by simpa [Function.update_of_ne hsame] using hb', hbytes'⟩
  · simp [cellAt, hmap]
  · intro q hq hne
    obtain ⟨block', b', hmap', -, hb', -⟩ := h.live _ ((div_le_span h).mpr hq)
    by_cases hsame : block' = block
    · subst hsame
      have hdiv : q / d.unitNum = p / d.unitNum :=
        h.inj _ ((div_le_span h).mpr hq) _ ((div_le_span h).mpr hp) (hmap'.trans hmap.symm)
      have hmod : q % d.unitNum * d.unitSize ≠ p % d.unitNum * d.unitSize := fun hcontra ↦
        hne (position_ext hdiv (Nat.eq_of_mul_eq_mul_right h.unitSize_pos hcontra))
      simp [cellAt, hmap', hb, Function.update_of_ne hmod]
    · simp [cellAt, hmap', hb', Function.update_of_ne hsame]
  · intro block'
    by_cases hsame : block' = block
    · subst hsame
      simp [hb]
    · simp [Function.update_of_ne hsame]

/-! ## The map -/

/-- `d'` has the blocks and cursors of `d`, possibly at other places of another map. -/
structure Relayout (d d' : DequeT α) : Prop where
  wf : Wf d'
  unitNum_eq : d'.unitNum = d.unitNum
  unitSize_eq : d'.unitSize = d.unitSize
  blocks_eq : d'.blocks = d.blocks
  start_cur_eq : d'.start.cur = d.start.cur
  stop_cur_eq : d'.stop.cur = d.stop.cur
  span_eq : span d' = span d
  map_eq : ∀ k ≤ span d, d'.map (d'.start.index + k) = d.map (d.start.index + k)

theorem Relayout.refl {d : DequeT α} (h : Wf d) : Relayout d d :=
  ⟨h, rfl, rfl, rfl, rfl, rfl, rfl, fun _ _ ↦ rfl⟩

theorem Relayout.cellAt_eq {d d' : DequeT α} (h : Wf d) (hr : Relayout d d') {p : ℕ}
    (hp : p < (span d + 1) * d.unitNum) : cellAt d' p = cellAt d p := by
  unfold cellAt
  rw [hr.unitNum_eq, hr.unitSize_eq, hr.blocks_eq, hr.map_eq _ ((div_le_span h).mpr hp)]

theorem Relayout.repr {d d' : DequeT α} {xs : List α} (h : Repr d xs) (hr : Relayout d d') :
    Repr d' xs := by
  refine { hr.wf with start_cur_lt := ?_, stop_cur_lt := ?_, length_eq := ?_, elems := ?_ }
  · simpa [hr.start_cur_eq, hr.unitNum_eq] using h.start_cur_lt
  · simpa [hr.stop_cur_eq, hr.unitNum_eq] using h.stop_cur_lt
  · simpa [hr.start_cur_eq, hr.stop_cur_eq, hr.unitNum_eq, hr.span_eq] using h.length_eq
  · intro i hi
    have hlen := h.length_eq
    have hstop := h.stop_cur_lt
    have hp : d.start.cur + i < (span d + 1) * d.unitNum := by
      rw [Nat.succ_mul]
      omega
    rw [hr.start_cur_eq, hr.cellAt_eq h.toWf hp, h.elems i hi]

/-- The slots copied by a relayout: `num` of them, from `src` to `dst`. -/
theorem copySlots_shift (target source : ℕ → Option ℕ) {dst src num k : ℕ} (hk : k < num) :
    copySlots target source dst src num (dst + k) = source (src + k) := by
  have hin : dst ≤ dst + k ∧ dst + k < dst + num := by omega
  simp [copySlots, hin]

theorem copySlots_self (map : ℕ → Option ℕ) (dst num : ℕ) : copySlots map map dst dst num = map := by
  funext i
  by_cases hin : dst ≤ i ∧ i < dst + num
  · rw [copySlots, if_pos hin, Nat.add_sub_cancel' hin.1]
  · rw [copySlots, if_neg hin]

/-- A copy whose length in bytes does not wrap. -/
theorem copyData_eq (target source : ℕ → Option ℕ) {targetBytes sourceBytes dst src num : ℕ}
    (hpos : 0 < num) (hnum : num < 536870912) (hsource : (src + num) * sizeofBlock ≤ sourceBytes) :
    copyData target source targetBytes sourceBytes dst src num =
      if (dst + num) * sizeofBlock ≤ targetBytes then some (copySlots target source dst src num)
      else none := by
  have hlen : u4 (num * sizeofBlock) = num * sizeofBlock :=
    u4_of_lt (by unfold sizeofBlock; omega)
  have hne : num * sizeofBlock ≠ 0 := by
    unfold sizeofBlock
    omega
  have hdiv : num * sizeofBlock / sizeofBlock = num := Nat.mul_div_cancel _ (by decide)
  rw [Nat.add_mul] at hsource
  simp only [copyData, hlen, hne, if_false, hdiv, hsource, and_true, Nat.add_mul]

/-- Slots moved within a map whose length in bytes does not wrap. -/
theorem moveData_eq (map : ℕ → Option ℕ) {mapBytes dst src num : ℕ} (hpos : 0 < num)
    (hnum : num < 536870912) (hsource : (src + num) * sizeofBlock ≤ mapBytes)
    (htarget : (dst + num) * sizeofBlock ≤ mapBytes) :
    moveData map mapBytes dst src num = some (copySlots map map dst src num) := by
  by_cases hsame : dst = src
  · rw [moveData, if_pos hsame, hsame, copySlots_self]
  · rw [moveData, if_neg hsame, copyData_eq _ _ hpos hnum hsource, if_pos htarget]

/-- The blocks and cursors of `d` in another map. -/
def relaid (d : DequeT α) (map : ℕ → Option ℕ) (mapSize pos : ℕ) : DequeT α :=
  { d with
    map := map
    mapBytes := mapSize * sizeofBlock
    mapSize := mapSize
    start := { d.start with index := pos }
    stop := { d.stop with index := pos + span d } }

/-- `deque_update_map` on a map whose length in bytes does not wrap.  Where the length of the doubled
map wraps, the copy does not fit. -/
theorem dequeUpdateMap_eq {d : DequeT α} (hsize : d.mapSize < 536870912)
    (hbytes : d.mapBytes = d.mapSize * sizeofBlock) (hle : d.start.index ≤ d.stop.index)
    (hlt : d.stop.index < d.mapSize) (granted : Bool) :
    dequeUpdateMap d granted =
      if (span d + 1) * 2 < d.mapSize then
        some (0, relaid d
          (copySlots d.map d.map ((d.mapSize - (span d + 1)) / 2) d.start.index (span d + 1))
          d.mapSize ((d.mapSize - (span d + 1)) / 2))
      else if granted then
        if d.mapSize < 268435456 then
          some (0, relaid d
            (copySlots (fun _ ↦ none) d.map (d.mapSize - (span d + 1) / 2) d.start.index (span d + 1))
            (d.mapSize * 2) (d.mapSize - (span d + 1) / 2))
        else none
      else some (-2, d) := by
  have hspan : span d = d.stop.index - d.start.index := rfl
  have hnum : u4 (u4Sub d.stop.index d.start.index + 1) = span d + 1 := by
    simp only [u4Sub, u4]
    omega
  have htwice : u4 ((span d + 1) * 2) = (span d + 1) * 2 := u4_of_lt (by omega)
  have hend (pos : ℕ) (hpos : pos ≤ d.mapSize) :
      u4Sub (u4 (pos + (span d + 1))) 1 = pos + span d := by
    simp only [u4Sub, u4]
    omega
  have hsource : (d.start.index + (span d + 1)) * sizeofBlock ≤ d.mapBytes := by
    rw [hbytes]
    exact Nat.mul_le_mul_right _ (by omega)
  simp only [dequeUpdateMap, hnum, htwice]
  by_cases hroom : (span d + 1) * 2 < d.mapSize
  · have hpos : u4Sub d.mapSize (span d + 1) / 2 = (d.mapSize - (span d + 1)) / 2 := by
      rw [u4Sub_of_le (by omega) (by omega)]
    rw [if_pos hroom, if_pos hroom, hpos, hend _ (by omega)]
    have htarget : ((d.mapSize - (span d + 1)) / 2 + (span d + 1)) * sizeofBlock ≤ d.mapBytes := by
      rw [hbytes]
      exact Nat.mul_le_mul_right _ (by omega)
    rw [moveData_eq _ (Nat.succ_pos _) (by omega) hsource htarget, relaid, ← hbytes]
    rfl
  rw [if_neg hroom, if_neg hroom]
  cases granted with
  | false => rfl
  | true =>
      have hpos : u4Sub d.mapSize ((span d + 1) / 2) = d.mapSize - (span d + 1) / 2 :=
        u4Sub_of_le (by omega) (by omega)
      have hdouble : u4 (d.mapSize * 2) = d.mapSize * 2 := u4_of_lt (by omega)
      simp only [if_true, hdouble, hpos, hend _ (Nat.sub_le _ _),
        copyData_eq _ _ (Nat.succ_pos _) (by omega : span d + 1 < 536870912) hsource]
      by_cases hsmall : d.mapSize < 268435456
      · have hlen : u4 (d.mapSize * 2 * sizeofBlock) = d.mapSize * 2 * sizeofBlock :=
          u4_of_lt (by unfold sizeofBlock; omega)
        have hfits : (d.mapSize - (span d + 1) / 2 + (span d + 1)) * sizeofBlock ≤
            d.mapSize * 2 * sizeofBlock := Nat.mul_le_mul_right _ (by omega)
        rw [hlen, if_pos hfits, if_pos hsmall]
        rfl
      · have hfits : ¬ (d.mapSize - (span d + 1) / 2 + (span d + 1)) * sizeofBlock ≤
            u4 (d.mapSize * 2 * sizeofBlock) := by
          simp only [u4, sizeofBlock]
          omega
        rw [if_neg hfits, if_neg hsmall]
        rfl

/-- The blocks found at the new places are those of the old ones, so the shape is kept. -/
theorem wf_relayout {d : DequeT α} (h : Wf d) (map' : ℕ → Option ℕ) (mapSize' pos : ℕ)
    (hsize : mapSize' < 536870912) (htwo : 2 ≤ mapSize') (hfit : pos + span d < mapSize')
    (hmap : ∀ k ≤ span d, map' (pos + k) = d.map (d.start.index + k)) :
    Relayout d (relaid d map' mapSize' pos) := by
  have hspan : pos + span d - pos = span d := Nat.add_sub_cancel_left ..
  refine ⟨{ h with
      two_le := htwo
      mapSize_lt := hsize
      mapBytes_eq := rfl
      index_le := Nat.le_add_right ..
      stop_index_lt := hfit
      live := ?_
      inj := ?_ }, rfl, rfl, rfl, rfl, rfl, hspan, hmap⟩
  · intro k hk
    have hk' : k ≤ span d := hk.trans_eq hspan
    have hlive := h.live k hk'
    rw [← hmap k hk'] at hlive
    exact hlive
  · intro j hj k hk
    have hj' : j ≤ span d := hj.trans_eq hspan
    have hk' : k ≤ span d := hk.trans_eq hspan
    have hinj := h.inj j hj' k hk'
    rw [← hmap j hj', ← hmap k hk'] at hinj
    exact hinj

/-- `deque_update_map` keeps the blocks in order and leaves a free slot at both ends, or reports that
the larger map was refused.  It faults only where the length of the larger map wraps. -/
theorem dequeUpdateMap_cases {d : DequeT α} (h : Wf d) (granted : Bool) :
    (∃ d', dequeUpdateMap d granted = some (0, d') ∧ Relayout d d' ∧
      1 ≤ d'.start.index ∧ d'.stop.index + 1 < d'.mapSize) ∨
    (dequeUpdateMap d granted = some (-2, d) ∧ granted = false) ∨
    (dequeUpdateMap d granted = none ∧ 268435456 ≤ d.mapSize) := by
  have hle := h.index_le
  have hlt := h.stop_index_lt
  have htwo := h.two_le
  have hmap := h.mapSize_lt
  have hspan : span d = d.stop.index - d.start.index := rfl
  have hexec := dequeUpdateMap_eq h.mapSize_lt h.mapBytes_eq hle hlt granted
  by_cases hroom : (span d + 1) * 2 < d.mapSize
  · rw [if_pos hroom] at hexec
    refine .inl ⟨_, hexec, ?_, ?_, ?_⟩
    · exact wf_relayout h _ _ _ h.mapSize_lt htwo (by omega)
        fun k hk ↦ copySlots_shift _ _ (by omega)
    · change 1 ≤ (d.mapSize - (span d + 1)) / 2
      omega
    · change (d.mapSize - (span d + 1)) / 2 + span d + 1 < d.mapSize
      omega
  rw [if_neg hroom] at hexec
  cases granted with
  | false => exact .inr (.inl ⟨hexec, rfl⟩)
  | true =>
      by_cases hsmall : d.mapSize < 268435456
      · rw [if_pos rfl, if_pos hsmall] at hexec
        refine .inl ⟨_, hexec, ?_, ?_, ?_⟩
        · exact wf_relayout h _ _ _ (by omega) (by omega) (by omega)
            fun k hk ↦ copySlots_shift _ _ (by omega)
        · change 1 ≤ d.mapSize - (span d + 1) / 2
          omega
        · change d.mapSize - (span d + 1) / 2 + span d + 1 < d.mapSize * 2
          omega
      · rw [if_pos rfl, if_neg hsmall] at hexec
        exact .inr (.inr ⟨hexec, Nat.not_lt.mp hsmall⟩)

/-! ## Blocks at the two ends -/

/-- A block allocated at a fresh address is none of the blocks in use. -/
theorem ne_fresh {d : DequeT α} (h : Wf d) {ptr : ℕ} (hfresh : d.blocks ptr = none) {k : ℕ}
    (hk : k ≤ span d) : d.map (d.start.index + k) ≠ some ptr := by
  obtain ⟨block, b, hmap, -, hb, -⟩ := h.live k hk
  rintro hcontra
  obtain rfl : block = ptr := by simpa [hmap] using hcontra
  simp [hfresh] at hb

/-- `d` after a fresh block was stored just before its first slot. -/
def addFront (d : DequeT α) (ptr : ℕ) : DequeT α :=
  { allocBlock d ptr (d.unitNum * d.unitSize) with
    map := Function.update d.map (d.start.index - 1) (some ptr)
    start := { d.start with index := d.start.index - 1 } }

theorem span_addFront {d : DequeT α} (h : Wf d) (hroom : 1 ≤ d.start.index) (ptr : ℕ) :
    span (addFront d ptr) = span d + 1 := by
  have hle := h.index_le
  simp only [span, addFront, allocBlock]
  omega

theorem addFront_map_succ {d : DequeT α} (hroom : 1 ≤ d.start.index) (ptr k : ℕ) :
    (addFront d ptr).map ((addFront d ptr).start.index + (k + 1)) =
      d.map (d.start.index + k) := by
  have hidx : d.start.index - 1 + (k + 1) = d.start.index + k := by omega
  have hne : d.start.index + k ≠ d.start.index - 1 := by omega
  change Function.update d.map (d.start.index - 1) (some ptr) (d.start.index - 1 + (k + 1)) = _
  rw [hidx, Function.update_of_ne hne]

theorem addFront_map_zero (d : DequeT α) (ptr : ℕ) :
    (addFront d ptr).map ((addFront d ptr).start.index + 0) = some ptr :=
  Function.update_self ..

theorem wf_addFront {d : DequeT α} (h : Wf d) (hroom : 1 ≤ d.start.index) {ptr : ℕ}
    (hptr : ptr ≠ 0) (hfresh : d.blocks ptr = none) : Wf (addFront d ptr) := by
  have hspan := span_addFront h hroom ptr
  refine { h with index_le := ?_, live := ?_, inj := ?_ }
  · exact (Nat.sub_le _ _).trans h.index_le
  · intro k hk
    cases k with
    | zero =>
        exact ⟨ptr, _, addFront_map_zero d ptr, hptr, Function.update_self .., rfl⟩
    | succ k =>
        have hk' : k ≤ span d := by omega
        obtain ⟨block, b, hmap, hnz, hb, hbytes⟩ := h.live k hk'
        have hne : block ≠ ptr := fun heq ↦ ne_fresh h hfresh hk' (heq ▸ hmap)
        exact ⟨block, b, (addFront_map_succ hroom ptr k).trans hmap, hnz,
          (Function.update_of_ne hne _ _).trans hb, hbytes⟩
  · intro j hj k hk heq
    cases j with
    | zero =>
        cases k with
        | zero => rfl
        | succ k =>
            rw [addFront_map_zero, addFront_map_succ hroom] at heq
            exact absurd heq.symm (ne_fresh h hfresh (by omega))
    | succ j =>
        cases k with
        | zero =>
            rw [addFront_map_zero, addFront_map_succ hroom] at heq
            exact absurd heq (ne_fresh h hfresh (by omega))
        | succ k =>
            rw [addFront_map_succ hroom, addFront_map_succ hroom] at heq
            rw [h.inj j (by omega) k (by omega) heq]

theorem cellAt_addFront {d : DequeT α} (h : Wf d) (hroom : 1 ≤ d.start.index) {ptr : ℕ}
    (hfresh : d.blocks ptr = none) {p : ℕ} (hp : p < (span d + 1) * d.unitNum) :
    cellAt (addFront d ptr) (d.unitNum + p) = cellAt d p := by
  obtain ⟨block, b, hmap, -, hb, -⟩ := h.live _ ((div_le_span h).mpr hp)
  have hne : block ≠ ptr := by
    rintro rfl
    simp [hfresh] at hb
  have hdiv : (d.unitNum + p) / d.unitNum = p / d.unitNum + 1 := Nat.add_div_left p h.unitNum_pos
  have hblk : (addFront d ptr).blocks block = some b := (Function.update_of_ne hne _ _).trans hb
  have hslot : (addFront d ptr).map ((addFront d ptr).start.index + (p / d.unitNum + 1)) =
      some block := (addFront_map_succ hroom ptr _).trans hmap
  change (do
    let block ← (addFront d ptr).map
      ((addFront d ptr).start.index + (d.unitNum + p) / d.unitNum)
    let b ← (addFront d ptr).blocks block
    b.data ((d.unitNum + p) % d.unitNum * d.unitSize)) = _
  rw [hdiv, hslot, Nat.add_mod_left]
  simp [cellAt, hmap, hb, hblk]

/-- `d` after a fresh block was stored just after its last slot. -/
def addBack (d : DequeT α) (ptr : ℕ) : DequeT α :=
  { allocBlock d ptr (d.unitNum * d.unitSize) with
    map := Function.update d.map (d.stop.index + 1) (some ptr)
    stop := ⟨d.stop.index + 1, 0⟩ }

theorem span_addBack {d : DequeT α} (h : Wf d) (ptr : ℕ) :
    span (addBack d ptr) = span d + 1 := by
  have hle := h.index_le
  simp only [span, addBack, allocBlock]
  omega

theorem addBack_map {d : DequeT α} (h : Wf d) (ptr : ℕ) {k : ℕ} (hk : k ≤ span d) :
    (addBack d ptr).map (d.start.index + k) = d.map (d.start.index + k) := by
  have hle := h.index_le
  have hne : d.start.index + k ≠ d.stop.index + 1 := by
    unfold span at hk
    omega
  exact Function.update_of_ne hne _ _

theorem addBack_map_last {d : DequeT α} (h : Wf d) (ptr : ℕ) :
    (addBack d ptr).map (d.start.index + (span d + 1)) = some ptr := by
  have hle := h.index_le
  have hidx : d.start.index + (span d + 1) = d.stop.index + 1 := by
    unfold span
    omega
  rw [hidx]
  exact Function.update_self ..

theorem wf_addBack {d : DequeT α} (h : Wf d) (hroom : d.stop.index + 1 < d.mapSize) {ptr : ℕ}
    (hptr : ptr ≠ 0) (hfresh : d.blocks ptr = none) : Wf (addBack d ptr) := by
  have hspan := span_addBack h ptr
  refine { h with index_le := ?_, stop_index_lt := hroom, live := ?_, inj := ?_ }
  · exact h.index_le.trans (Nat.le_succ _)
  · intro k hk
    rcases Nat.lt_or_ge (span d) k with hlast | hold
    · obtain rfl : k = span d + 1 := by omega
      exact ⟨ptr, _, addBack_map_last h ptr, hptr, Function.update_self .., rfl⟩
    · obtain ⟨block, b, hmap, hnz, hb, hbytes⟩ := h.live k hold
      have hne : block ≠ ptr := fun heq ↦ ne_fresh h hfresh hold (heq ▸ hmap)
      exact ⟨block, b, (addBack_map h ptr hold).trans hmap, hnz,
        (Function.update_of_ne hne _ _).trans hb, hbytes⟩
  · intro j hj k hk heq
    change (addBack d ptr).map (d.start.index + j) = (addBack d ptr).map (d.start.index + k) at heq
    rcases Nat.lt_or_ge (span d) j with hj' | hj'
    · obtain rfl : j = span d + 1 := by omega
      rcases Nat.lt_or_ge (span d) k with hk' | hk'
      · omega
      · rw [addBack_map_last h, addBack_map h ptr hk'] at heq
        exact absurd heq.symm (ne_fresh h hfresh hk')
    · rcases Nat.lt_or_ge (span d) k with hk' | hk'
      · obtain rfl : k = span d + 1 := by omega
        rw [addBack_map_last h, addBack_map h ptr hj'] at heq
        exact absurd heq (ne_fresh h hfresh hj')
      · rw [addBack_map h ptr hj', addBack_map h ptr hk'] at heq
        exact h.inj j hj' k hk' heq

theorem cellAt_addBack {d : DequeT α} (h : Wf d) {ptr : ℕ} (hfresh : d.blocks ptr = none) {p : ℕ}
    (hp : p < (span d + 1) * d.unitNum) : cellAt (addBack d ptr) p = cellAt d p := by
  have hk := (div_le_span h).mpr hp
  obtain ⟨block, b, hmap, -, hb, -⟩ := h.live _ hk
  have hne : block ≠ ptr := by
    rintro rfl
    simp [hfresh] at hb
  have hblk : (addBack d ptr).blocks block = some b := (Function.update_of_ne hne _ _).trans hb
  change (do
    let block ← (addBack d ptr).map (d.start.index + p / d.unitNum)
    let b ← (addBack d ptr).blocks block
    b.data (p % d.unitNum * d.unitSize)) = _
  rw [addBack_map h ptr hk]
  simp [cellAt, hmap, hb, hblk]

/-- Releasing the block in slot `index` leaves the other slots in use and their units alone. -/
theorem release_other {d : DequeT α} (h : Wf d) {j k block : ℕ} (hj : j ≤ span d)
    (hk : k ≤ span d) (hjk : j ≠ k) (hblock : d.map (d.start.index + j) = some block) :
    ∃ block' b, (release d (d.start.index + j) block).map (d.start.index + k) = some block' ∧
      d.map (d.start.index + k) = some block' ∧ block' ≠ 0 ∧
      (release d (d.start.index + j) block).blocks block' = some b ∧
      d.blocks block' = some b ∧ b.bytes = d.unitNum * d.unitSize := by
  obtain ⟨block', b, hmap, hnz, hb, hbytes⟩ := h.live k hk
  have hidx : d.start.index + k ≠ d.start.index + j := by omega
  have hne : block' ≠ block := by
    rintro rfl
    exact hjk (h.inj j hj k hk (hblock.trans hmap.symm))
  exact ⟨block', b, (Function.update_of_ne hidx _ _).trans hmap, hmap, hnz,
    (Function.update_of_ne hne _ _).trans hb, hb, hbytes⟩

/-- `d` after its first block was released and `start` moved to the next one. -/
def dropFront (d : DequeT α) (block : ℕ) : DequeT α :=
  { release d d.start.index block with start := ⟨d.start.index + 1, 0⟩ }

theorem span_dropFront (d : DequeT α) (block : ℕ) : span (dropFront d block) = span d - 1 := by
  simp only [span, dropFront, release]
  omega

theorem dropFront_live {d : DequeT α} (h : Wf d) (hspan : 1 ≤ span d) {block : ℕ}
    (hblock : d.map d.start.index = some block) {k : ℕ} (hk : k ≤ span d - 1) :
    ∃ block' b, (dropFront d block).map ((dropFront d block).start.index + k) = some block' ∧
      d.map (d.start.index + (k + 1)) = some block' ∧ block' ≠ 0 ∧
      (dropFront d block).blocks block' = some b ∧ d.blocks block' = some b ∧
      b.bytes = d.unitNum * d.unitSize := by
  have hidx : d.start.index + 1 + k = d.start.index + (k + 1) := by omega
  have hother := release_other h (Nat.zero_le _) (k := k + 1) (by omega) (by omega) hblock
  change ∃ block' b, (release d d.start.index block).map (d.start.index + 1 + k) = _ ∧ _
  rw [hidx]
  exact hother

theorem wf_dropFront {d : DequeT α} (h : Wf d) (hspan : 1 ≤ span d) {block : ℕ}
    (hblock : d.map d.start.index = some block) : Wf (dropFront d block) := by
  have hnew := span_dropFront d block
  refine { h with index_le := ?_, live := ?_, inj := ?_ }
  · change d.start.index + 1 ≤ d.stop.index
    unfold span at hspan
    omega
  · intro k hk
    obtain ⟨block', b, hmap, -, hnz, hb, -, hbytes⟩ := dropFront_live h hspan hblock (hnew ▸ hk)
    exact ⟨block', b, hmap, hnz, hb, hbytes⟩
  · intro j hj k hk heq
    obtain ⟨bj, _, hmapj, hoj, -⟩ := dropFront_live h hspan hblock (hnew ▸ hj)
    obtain ⟨bk, _, hmapk, hok, -⟩ := dropFront_live h hspan hblock (hnew ▸ hk)
    rw [hmapj, hmapk] at heq
    have := h.inj (j + 1) (by omega) (k + 1) (by omega) (hoj.trans (heq.trans hok.symm))
    omega

theorem cellAt_dropFront {d : DequeT α} (h : Wf d) (hspan : 1 ≤ span d) {block : ℕ}
    (hblock : d.map d.start.index = some block) {p : ℕ} (hp : p < span d * d.unitNum) :
    cellAt (dropFront d block) p = cellAt d (d.unitNum + p) := by
  have hk : p / d.unitNum ≤ span d - 1 := by
    have := (Nat.div_lt_iff_lt_mul h.unitNum_pos).mpr hp
    omega
  have hdiv : (d.unitNum + p) / d.unitNum = p / d.unitNum + 1 := Nat.add_div_left p h.unitNum_pos
  obtain ⟨block', b, hmap, hold, -, hb, hbold, -⟩ := dropFront_live h hspan hblock hk
  change (do
    let block' ← (dropFront d block).map ((dropFront d block).start.index + p / d.unitNum)
    let b ← (dropFront d block).blocks block'
    b.data (p % d.unitNum * d.unitSize)) = _
  rw [hmap]
  simp [cellAt, hdiv, hold, hb, hbold]

/-- `d` after its last block was released and `end` moved to unit `cur` of the one before. -/
def dropBack (d : DequeT α) (block cur : ℕ) : DequeT α :=
  { release d d.stop.index block with stop := ⟨d.stop.index - 1, cur⟩ }

theorem span_dropBack (d : DequeT α) (block cur : ℕ) :
    span (dropBack d block cur) = span d - 1 := by
  simp only [span, dropBack, release]
  omega

theorem dropBack_live {d : DequeT α} (h : Wf d) (hspan : 1 ≤ span d) {block : ℕ} (cur : ℕ)
    (hblock : d.map d.stop.index = some block) {k : ℕ} (hk : k ≤ span d - 1) :
    ∃ block' b, (dropBack d block cur).map (d.start.index + k) = some block' ∧
      d.map (d.start.index + k) = some block' ∧ block' ≠ 0 ∧
      (dropBack d block cur).blocks block' = some b ∧ d.blocks block' = some b ∧
      b.bytes = d.unitNum * d.unitSize := by
  have hidx : d.start.index + span d = d.stop.index := Nat.add_sub_cancel' h.index_le
  have hother := release_other h le_rfl (k := k) (by omega) (by omega) (hidx ▸ hblock)
  rw [hidx] at hother
  exact hother

theorem wf_dropBack {d : DequeT α} (h : Wf d) (hspan : 1 ≤ span d) {block cur : ℕ}
    (hblock : d.map d.stop.index = some block) : Wf (dropBack d block cur) := by
  have hnew := span_dropBack d block cur
  have hlt := h.stop_index_lt
  refine { h with index_le := ?_, stop_index_lt := ?_, live := ?_, inj := ?_ }
  · change d.start.index ≤ d.stop.index - 1
    unfold span at hspan
    omega
  · change d.stop.index - 1 < d.mapSize
    omega
  · intro k hk
    obtain ⟨block', b, hmap, -, hnz, hb, -, hbytes⟩ :=
      dropBack_live h hspan cur hblock (hnew ▸ hk)
    exact ⟨block', b, hmap, hnz, hb, hbytes⟩
  · intro j hj k hk heq
    obtain ⟨bj, _, hmapj, hoj, -⟩ := dropBack_live h hspan cur hblock (hnew ▸ hj)
    obtain ⟨bk, _, hmapk, hok, -⟩ := dropBack_live h hspan cur hblock (hnew ▸ hk)
    have hsame : some bj = some bk := hmapj.symm.trans (heq.trans hmapk)
    exact h.inj j (by omega) k (by omega) (hoj.trans (hsame.trans hok.symm))

theorem cellAt_dropBack {d : DequeT α} (h : Wf d) (hspan : 1 ≤ span d) {block cur : ℕ}
    (hblock : d.map d.stop.index = some block) {p : ℕ} (hp : p < span d * d.unitNum) :
    cellAt (dropBack d block cur) p = cellAt d p := by
  have hk : p / d.unitNum ≤ span d - 1 := by
    have := (Nat.div_lt_iff_lt_mul h.unitNum_pos).mpr hp
    omega
  obtain ⟨block', b, hmap, hold, -, hb, hbold, -⟩ := dropBack_live h hspan cur hblock hk
  change (do
    let block' ← (dropBack d block cur).map (d.start.index + p / d.unitNum)
    let b ← (dropBack d block cur).blocks block'
    b.data (p % d.unitNum * d.unitSize)) = _
  rw [hmap]
  simp [cellAt, hold, hb, hbold]

end CPractice.Deque
