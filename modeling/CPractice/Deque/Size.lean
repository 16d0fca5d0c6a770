import CPractice.Deque.Refinement

/-!
# The number of elements of a deque

`deque_size` and `deque_empty` read the two cursors only, so this module follows the cursors through
every run: from any accepted arguments of `_deque_init`, with any outcome of every allocation.  A run
ends where an access leaves its allocation (a map of one slot, or of `2^28` and more, when it grows).
-/

namespace CPractice.Deque

open Lib

variable {α : Type} {d d' : DequeT α} {n ptr : ℕ} {ret : ℤ} {granted : Bool} {x : α}

/-- Deques from `_deque_init` with any arguments, driven by any calls.  An address that is granted is
not in use. -/
def anyMachine (α : Type) : Machine (DequeT α) (Call α) (ℤ × Option α) where
  init d := ∃ unitSize mapSize blockSize block, mapSize < 4294967296 ∧ blockSize < 4294967296 ∧
    block ≠ 0 ∧ dequeInit unitSize mapSize blockSize block = some d
  ok d call :=
    match call with
    | .pushFront _ _ ptr => ptr ≠ 0 → d.blocks ptr = none
    | .pushBack _ _ ptr => ptr ≠ 0 → d.blocks ptr = none
    | .popFront => True
    | .popBack => True
  exec := exec

instance (d : DequeT α) (call : Call α) : Decidable ((anyMachine α).ok d call) :=
  match call with
  | .pushFront _ _ ptr => inferInstanceAs (Decidable (ptr ≠ 0 → d.blocks ptr = none))
  | .pushBack _ _ ptr => inferInstanceAs (Decidable (ptr ≠ 0 → d.blocks ptr = none))
  | .popFront => isTrue trivial
  | .popBack => isTrue trivial

/-- A call that returns non-zero leaves the sequence as it is. -/
def keptStep (xs : List α) (call : Call α) (r : ℤ × Option α) : List α :=
  if r.1 = 0 then listStep xs call else xs

/-- The elements stored after a log: those of the pushes that returned zero, less those popped. -/
def kept (log : List (Call α × (ℤ × Option α))) : List α := Machine.replay keptStep [] log

/-! ## The map -/

/-- The blocks in use lie in a map whose length in bytes does not wrap. -/
structure Placed (d : DequeT α) : Prop where
  mapSize_lt : d.mapSize < 536870912
  mapBytes_eq : d.mapBytes = d.mapSize * sizeofBlock
  index_le : d.start.index ≤ d.stop.index
  stop_index_lt : d.stop.index < d.mapSize

/-- What a relayout keeps of the cursors. -/
structure SameShape (d d' : DequeT α) : Prop where
  span_eq : span d' = span d
  start_cur_eq : d'.start.cur = d.start.cur
  stop_cur_eq : d'.stop.cur = d.stop.cur
  unitNum_eq : d'.unitNum = d.unitNum

theorem SameShape.refl (d : DequeT α) : SameShape d d := ⟨rfl, rfl, rfl, rfl⟩

/-- The cursors moved to `pos` and `pos + span d`. -/
theorem Placed.relaid {map : ℕ → Option ℕ} {mapSize pos : ℕ} (hsize : mapSize < 536870912)
    (hfit : pos + span d < mapSize) :
    Placed (relaid d map mapSize pos) ∧ SameShape d (relaid d map mapSize pos) :=
  ⟨⟨hsize, rfl, Nat.le_add_right _ _, hfit⟩, ⟨Nat.add_sub_cancel_left _ _, rfl, rfl, rfl⟩⟩

/-- A relayout that does not fault.  A map of `2^28` slots cannot be doubled: the byte length wraps
and the copy leaves the new map. -/
theorem Placed.updateMap (h : Placed d) (hexec : dequeUpdateMap d granted = some (ret, d')) :
    Placed d' ∧ SameShape d d' := by
  have hle := h.index_le
  have hlt := h.stop_index_lt
  have hsize := h.mapSize_lt
  have hspan : span d = d.stop.index - d.start.index := rfl
  rw [dequeUpdateMap_eq hsize h.mapBytes_eq hle hlt] at hexec
  split at hexec
  · cases hexec
    exact Placed.relaid hsize (by omega)
  split at hexec
  · split at hexec
    · cases hexec
      exact Placed.relaid (by omega) (by omega)
    · cases hexec
  · cases hexec
    exact ⟨h, SameShape.refl d⟩

/-! ## The cursors -/

/-- The cursors of a deque with `n` elements. -/
structure Counted (d : DequeT α) (n : ℕ) : Prop extends Placed d where
  unitNum_lt : d.unitNum < 4294967296
  start_cur_lt : d.start.cur < d.unitNum
  stop_cur_lt : d.stop.cur < d.unitNum
  number_eq : d.start.cur + n = span d * d.unitNum + d.stop.cur

theorem Counted.sameShape (h : Counted d n) (hplaced : Placed d') (hshape : SameShape d d') :
    Counted d' n := by
  refine ⟨hplaced, ?_, ?_, ?_, ?_⟩
  · rw [hshape.unitNum_eq]
    exact h.unitNum_lt
  · rw [hshape.unitNum_eq, hshape.start_cur_eq]
    exact h.start_cur_lt
  · rw [hshape.unitNum_eq, hshape.stop_cur_eq]
    exact h.stop_cur_lt
  · rw [hshape.unitNum_eq, hshape.start_cur_eq, hshape.stop_cur_eq, hshape.span_eq]
    exact h.number_eq

/-- Stores to units and releases of blocks leave the cursors alone. -/
theorem storeUnit_frame {ptr : ElemPtr} (hstore : storeUnit d ptr x = some d') :
    d' = { d with blocks := d'.blocks } := by
  rw [storeUnit] at hstore
  rcases Option.bind_eq_some_iff.mp hstore with ⟨b, -, hb⟩
  split at hb
  · cases hb
    rfl
  · cases hb

theorem setMapData_frame {index block : ℕ} (hset : setMapData d index block = some d') :
    index < d.mapSize ∧ d' = { d with map := d'.map } := by
  rw [setMapData] at hset
  split at hset
  · next hin =>
      cases hset
      exact ⟨hin.1, rfl⟩
  · cases hset

theorem freeBlock_frame {index block : ℕ} (hfree : freeBlock d index block = some d') :
    d' = { d with blocks := d'.blocks, map := d'.map } := by
  rw [freeBlock] at hfree
  split at hfree
  · cases hfree
    rfl
  · cases hfree

theorem Placed.roomFront (h : Placed d) (hexec : roomFront d granted = some (ret, d')) :
    Placed d' ∧ SameShape d d' := by
  rw [Deque.roomFront] at hexec
  split at hexec
  · exact h.updateMap hexec
  · cases hexec
    exact ⟨h, SameShape.refl d⟩

theorem Placed.roomBack (h : Placed d) (hexec : roomBack d granted = some (ret, d')) :
    Placed d' ∧ SameShape d d' := by
  rw [Deque.roomBack] at hexec
  split at hexec
  · exact h.updateMap hexec
  · cases hexec
    exact ⟨h, SameShape.refl d⟩

/-! ## Calls -/

theorem Counted.pushFront (h : Counted d n)
    (hexec : dequePushFront d x granted ptr = some (ret, d')) :
    Counted d' (if ret = 0 then n + 1 else n) := by
  have hunit := h.unitNum_lt
  have hstart := h.start_cur_lt
  have hnumber := h.number_eq
  rw [dequePushFront] at hexec
  split at hexec
  · next hcur =>
      rcases Option.bind_eq_some_iff.mp hexec with ⟨block, -, hrest⟩
      rcases Option.bind_eq_some_iff.mp hrest with ⟨d₁, hstore, hout⟩
      cases hout
      have hdec : u4Sub d.start.cur 1 = d.start.cur - 1 := u4Sub_of_le (by omega) (by omega)
      rw [storeUnit_frame hstore, hdec, if_pos rfl]
      refine ⟨⟨h.mapSize_lt, h.mapBytes_eq, h.index_le, h.stop_index_lt⟩, hunit, ?_, h.stop_cur_lt, ?_⟩
      · change d.start.cur - 1 < d.unitNum
        omega
      · change d.start.cur - 1 + (n + 1) = span d * d.unitNum + d.stop.cur
        omega
  · next hcur =>
      rcases Option.bind_eq_some_iff.mp hexec with ⟨⟨ret₁, d₁⟩, hroom, hrest⟩
      rcases h.toPlaced.roomFront hroom with ⟨hplaced, hshape⟩
      have h₁ := h.sameShape hplaced hshape
      simp only at hrest
      split at hrest
      · cases hrest
        exact h₁
      split at hrest
      · cases hrest
        exact h₁
      rcases Option.bind_eq_some_iff.mp hrest with ⟨d₂, hset, hrest⟩
      rcases Option.bind_eq_some_iff.mp hrest with ⟨d₃, hstore, hout⟩
      cases hout
      rcases setMapData_frame hset with ⟨hin, hset'⟩
      have hle := h₁.index_le
      have hlt := h₁.stop_index_lt
      have hsize := h₁.mapSize_lt
      -- The new block has a slot only if `start.index` was not zero.
      have hindex : 1 ≤ d₁.start.index ∧ u4Sub d₁.start.index 1 = d₁.start.index - 1 := by
        have hin' : u4Sub d₁.start.index 1 < d₁.mapSize := hin
        simp only [u4Sub, u4] at hin' ⊢
        omega
      have hlast : u4Sub d₁.unitNum 1 = d₁.unitNum - 1 :=
        u4Sub_of_le (by have := h₁.start_cur_lt; omega) h₁.unitNum_lt
      have hcur' : d₁.start.cur = 0 := by
        rw [hshape.start_cur_eq]
        exact not_not.mp hcur
      rw [storeUnit_frame hstore, hset', if_pos rfl]
      refine ⟨⟨hsize, h₁.mapBytes_eq, ?_, hlt⟩, h₁.unitNum_lt, ?_, h₁.stop_cur_lt, ?_⟩
      · change u4Sub d₁.start.index 1 ≤ d₁.stop.index
        omega
      · change u4Sub d₁.unitNum 1 < d₁.unitNum
        have := h₁.start_cur_lt
        omega
      · have hspan : d₁.stop.index - u4Sub d₁.start.index 1 = span d₁ + 1 := by
          rw [span]
          omega
        have hnumber₁ := h₁.number_eq
        change u4Sub d₁.unitNum 1 + (n + 1) =
          (d₁.stop.index - u4Sub d₁.start.index 1) * d₁.unitNum + d₁.stop.cur
        rw [hspan, Nat.succ_mul]
        have := h₁.start_cur_lt
        omega

theorem Counted.pushBack (h : Counted d n)
    (hexec : dequePushBack d x granted ptr = some (ret, d')) :
    Counted d' (if ret = 0 then n + 1 else n) := by
  have hunit := h.unitNum_lt
  have hstop := h.stop_cur_lt
  have hnumber := h.number_eq
  have hinc : u4 (d.stop.cur + 1) = d.stop.cur + 1 := u4_of_lt (by omega)
  rw [dequePushBack] at hexec
  rcases Option.bind_eq_some_iff.mp hexec with ⟨block, -, hrest⟩
  rcases Option.bind_eq_some_iff.mp hrest with ⟨d₁, hstore, hrest⟩
  obtain ⟨blocks, rfl⟩ : ∃ blocks, d₁ = { d with blocks := blocks } := ⟨_, storeUnit_frame hstore⟩
  simp only [hinc] at hrest
  split at hrest
  · next hcur =>
      cases hrest
      rw [if_pos rfl]
      refine ⟨⟨h.mapSize_lt, h.mapBytes_eq, h.index_le, h.stop_index_lt⟩, hunit, h.start_cur_lt, ?_, ?_⟩
      · change d.stop.cur + 1 < d.unitNum
        omega
      · change d.start.cur + (n + 1) = span d * d.unitNum + (d.stop.cur + 1)
        omega
  · next hcur =>
      rcases Option.bind_eq_some_iff.mp hrest with ⟨⟨ret₁, d₂⟩, hroom, hrest⟩
      have hfull : Placed { d with
          blocks := blocks
          stop := { d.stop with cur := d.stop.cur + 1 } } :=
        ⟨h.mapSize_lt, h.mapBytes_eq, h.index_le, h.stop_index_lt⟩
      rcases hfull.roomBack hroom with ⟨hplaced, hshape⟩
      have hspan₂ : d₂.stop.index - d₂.start.index = d.stop.index - d.start.index := hshape.span_eq
      have hcur₂ : u4Sub d₂.stop.cur 1 = d.stop.cur := by
        have hinc₂ : d₂.stop.cur = d.stop.cur + 1 := hshape.stop_cur_eq
        rw [hinc₂, u4Sub_of_le (Nat.le_add_left _ _) (by omega), Nat.add_sub_cancel]
      -- With the element taken back the cursors count as before.
      have hback : Counted { d₂ with stop := { d₂.stop with cur := d.stop.cur } } n :=
        h.sameShape ⟨hplaced.mapSize_lt, hplaced.mapBytes_eq, hplaced.index_le,
          hplaced.stop_index_lt⟩ ⟨hspan₂, hshape.start_cur_eq, rfl, hshape.unitNum_eq⟩
      simp only [hcur₂] at hrest
      split at hrest
      · cases hrest
        exact hback
      split at hrest
      · cases hrest
        exact hback
      rcases Option.bind_eq_some_iff.mp hrest with ⟨d₃, hset, hout⟩
      cases hout
      rcases setMapData_frame hset with ⟨hin, hset'⟩
      have hlt := hplaced.stop_index_lt
      have hsize := hplaced.mapSize_lt
      have hindex : u4 (d₂.stop.index + 1) = d₂.stop.index + 1 := u4_of_lt (by omega)
      have hin' : d₂.stop.index + 1 < d₂.mapSize := by
        rw [← hindex]
        exact hin
      rw [hset', if_pos rfl]
      have hunit₂ : d₂.unitNum = d.unitNum := hshape.unitNum_eq
      have hstart₂ : d₂.start.cur = d.start.cur := hshape.start_cur_eq
      have hle := hplaced.index_le
      refine ⟨⟨hsize, hplaced.mapBytes_eq, ?_, hin⟩, ?_, ?_, ?_, ?_⟩
      · change d₂.start.index ≤ u4 (d₂.stop.index + 1)
        omega
      · change d₂.unitNum < _
        omega
      · change d₂.start.cur < d₂.unitNum
        have := h.start_cur_lt
        omega
      · change 0 < d₂.unitNum
        omega
      · have hspan : u4 (d₂.stop.index + 1) - d₂.start.index = span d + 1 := by
          rw [span]
          omega
        change d₂.start.cur + (n + 1) = (u4 (d₂.stop.index + 1) - d₂.start.index) * d₂.unitNum + 0
        rw [hspan, hunit₂, hstart₂, Nat.succ_mul]
        omega

/-- The test for the empty deque, by the count. -/
theorem Counted.isNil_iff (h : Counted d n) : isNil d ↔ n = 0 := by
  have hle := h.index_le
  have hstart := h.start_cur_lt
  have hnumber := h.number_eq
  constructor
  · rintro ⟨hindex, hcur⟩
    rw [span, hindex, Nat.sub_self, Nat.zero_mul] at hnumber
    omega
  · rintro rfl
    have hspan : span d = 0 := by
      by_contra hne
      have := Nat.le_mul_of_pos_left d.unitNum (Nat.pos_of_ne_zero hne)
      omega
    rw [hspan, Nat.zero_mul] at hnumber
    rw [span] at hspan
    exact ⟨by omega, by omega⟩

theorem Counted.popFront (h : Counted d n) {r : ℤ × Option α}
    (hexec : dequePopFront d = some (r, d')) :
    (r.1 = 0 → 0 < n) ∧ Counted d' (if r.1 = 0 then n - 1 else n) := by
  have hunit := h.unitNum_lt
  have hstart := h.start_cur_lt
  have hstop := h.stop_cur_lt
  have hlt := h.stop_index_lt
  have hsize := h.mapSize_lt
  have hnumber := h.number_eq
  have hinc : u4 (d.start.cur + 1) = d.start.cur + 1 := u4_of_lt (by omega)
  rw [dequePopFront] at hexec
  split at hexec
  · cases hexec
    exact ⟨fun hret ↦ absurd hret (show ¬ (-1 : ℤ) = 0 by decide), h⟩
  · next hnil =>
      rw [h.isNil_iff] at hnil
      rcases Option.bind_eq_some_iff.mp hexec with ⟨block, -, hrest⟩
      rcases Option.bind_eq_some_iff.mp hrest with ⟨elem, -, hrest⟩
      simp only [hinc] at hrest
      split at hrest
      · next hend =>
          rcases Option.bind_eq_some_iff.mp hrest with ⟨d₁, hfree, hout⟩
          cases hout
          refine ⟨fun _ ↦ Nat.pos_of_ne_zero hnil, ?_⟩
          rw [freeBlock_frame hfree, if_pos rfl]
          -- The last unit of the only block is never the last element.
          have hspan : 1 ≤ span d := by
            by_contra hne
            rw [show span d = 0 by omega, Nat.zero_mul] at hnumber
            omega
          have hnext : u4 (d.start.index + 1) = d.start.index + 1 := by
            rw [span] at hspan
            exact u4_of_lt (by omega)
          simp only [hnext]
          rw [span] at hspan
          refine ⟨⟨hsize, h.mapBytes_eq, ?_, hlt⟩, hunit, ?_, hstop, ?_⟩
          · change d.start.index + 1 ≤ d.stop.index
            omega
          · change 0 < d.unitNum
            omega
          · have hless : span d = d.stop.index - (d.start.index + 1) + 1 := by
              rw [span]
              omega
            change 0 + (n - 1) = (d.stop.index - (d.start.index + 1)) * d.unitNum + d.stop.cur
            rw [hless, Nat.succ_mul] at hnumber
            omega
      · next hend =>
          cases hrest
          refine ⟨fun _ ↦ Nat.pos_of_ne_zero hnil, ?_⟩
          rw [if_pos rfl]
          refine ⟨⟨hsize, h.mapBytes_eq, h.index_le, hlt⟩, hunit, ?_, hstop, ?_⟩
          · change d.start.cur + 1 < d.unitNum
            omega
          · change d.start.cur + 1 + (n - 1) = span d * d.unitNum + d.stop.cur
            omega

theorem Counted.popBack (h : Counted d n) {r : ℤ × Option α}
    (hexec : dequePopBack d = some (r, d')) :
    (r.1 = 0 → 0 < n) ∧ Counted d' (if r.1 = 0 then n - 1 else n) := by
  have hunit := h.unitNum_lt
  have hstart := h.start_cur_lt
  have hstop := h.stop_cur_lt
  have hlt := h.stop_index_lt
  have hsize := h.mapSize_lt
  have hnumber := h.number_eq
  rw [dequePopBack] at hexec
  split at hexec
  · cases hexec
    exact ⟨fun hret ↦ absurd hret (show ¬ (-1 : ℤ) = 0 by decide), h⟩
  · next hnil =>
      rw [h.isNil_iff] at hnil
      rcases Option.bind_eq_some_iff.mp hexec with ⟨block, -, hrest⟩
      split at hrest
      · next hcur =>
          have hdec : u4Sub d.stop.cur 1 = d.stop.cur - 1 := u4Sub_of_le (by omega) (by omega)
          simp only [hdec] at hrest
          rcases Option.bind_eq_some_iff.mp hrest with ⟨elem, -, hout⟩
          cases hout
          refine ⟨fun _ ↦ Nat.pos_of_ne_zero hnil, ?_⟩
          rw [if_pos rfl]
          refine ⟨⟨hsize, h.mapBytes_eq, h.index_le, hlt⟩, hunit, hstart, ?_, ?_⟩
          · change d.stop.cur - 1 < d.unitNum
            omega
          · change d.start.cur + (n - 1) = span d * d.unitNum + (d.stop.cur - 1)
            omega
      · next hcur =>
          rcases Option.bind_eq_some_iff.mp hrest with ⟨d₁, hfree, hrest⟩
          obtain ⟨blocks, map, rfl⟩ : ∃ blocks map, d₁ = { d with blocks := blocks, map := map } :=
            ⟨_, _, freeBlock_frame hfree⟩
          have hspan : 1 ≤ span d := by
            by_contra hne
            rw [show span d = 0 by omega, Nat.zero_mul] at hnumber
            omega
          rw [span] at hspan
          have hprev : u4Sub d.stop.index 1 = d.stop.index - 1 := u4Sub_of_le (by omega) (by omega)
          have hlast : u4Sub d.unitNum 1 = d.unitNum - 1 := u4Sub_of_le (by omega) hunit
          simp only [hprev, hlast] at hrest
          rcases Option.bind_eq_some_iff.mp hrest with ⟨block', -, hrest⟩
          rcases Option.bind_eq_some_iff.mp hrest with ⟨elem, -, hout⟩
          cases hout
          refine ⟨fun _ ↦ Nat.pos_of_ne_zero hnil, ?_⟩
          rw [if_pos rfl]
          refine ⟨⟨hsize, h.mapBytes_eq, ?_, ?_⟩, hunit, hstart, ?_, ?_⟩
          · change d.start.index ≤ d.stop.index - 1
            omega
          · change d.stop.index - 1 < d.mapSize
            omega
          · change d.unitNum - 1 < d.unitNum
            omega
          · have hless : span d = d.stop.index - 1 - d.start.index + 1 := by
              rw [span]
              omega
            change d.start.cur + (n - 1) =
              (d.stop.index - 1 - d.start.index) * d.unitNum + (d.unitNum - 1)
            rw [hless, Nat.succ_mul] at hnumber
            omega

/-! ## Runs -/

/-- The first block has a slot only in a map whose byte length does not wrap. -/
theorem mapSize_lt_of_init {unitSize mapSize blockSize block : ℕ} (hmap : mapSize < 4294967296)
    (heq : dequeInit unitSize mapSize blockSize block = some d) : mapSize < 536870912 := by
  rw [dequeInit] at heq
  split at heq
  · cases heq
  rw [setMapData] at heq
  split at heq
  · next hin =>
      have hbytes : (mapSize / 2 + 1) * sizeofBlock ≤ u4 (mapSize * sizeofBlock) := hin.2
      simp only [u4, sizeofBlock] at hbytes
      omega
  · cases heq

theorem counted_init (hinit : (anyMachine α).init d) : Counted d 0 := by
  rcases hinit with ⟨unitSize, mapSize, blockSize, block, hmap, hblock, -, heq⟩
  have hsize := mapSize_lt_of_init hmap heq
  have hbytes : u4 (mapSize * sizeofBlock) = mapSize * sizeofBlock :=
    u4_of_lt (by unfold sizeofBlock; omega)
  rw [dequeInit] at heq
  split at heq
  · cases heq
  next hlegal =>
    have hpos : 0 < blockSize / unitSize := Nat.div_pos (by omega) (by omega)
    have hunit : blockSize / unitSize < 4294967296 := (Nat.div_le_self _ _).trans_lt hblock
    rcases setMapData_frame heq with ⟨hin, hframe⟩
    rw [hframe]
    refine ⟨⟨hsize, hbytes, le_rfl, hin⟩, hunit, hpos, hpos, ?_⟩
    change 0 + 0 = (mapSize / 2 - mapSize / 2) * (blockSize / unitSize) + 0
    rw [Nat.sub_self, Nat.zero_mul]

theorem counted_step {xs : List α} {call : Call α} {r : ℤ × Option α}
    (h : Counted d xs.length) (hexec : exec d call = some (r, d')) :
    Counted d' (keptStep xs call r).length := by
  have hlength : (keptStep xs call r).length =
      if r.1 = 0 then (listStep xs call).length else xs.length := by
    rw [keptStep]
    split
    · rfl
    · rfl
  rw [hlength]
  cases call with
  | pushFront front granted ptr =>
      rcases Option.map_eq_some_iff.mp hexec with ⟨out, hout, heq⟩
      cases heq
      exact h.pushFront hout
  | pushBack back granted ptr =>
      rcases Option.map_eq_some_iff.mp hexec with ⟨out, hout, heq⟩
      cases heq
      rw [listStep, List.length_append, List.length_singleton]
      exact h.pushBack hout
  | popFront =>
      have hpop := (h.popFront hexec).2
      rwa [← List.length_tail] at hpop
  | popBack =>
      have hpop := (h.popBack hexec).2
      rwa [← List.length_dropLast] at hpop

theorem counted_trace {log : List (Call α × (ℤ × Option α))} (htrace : (anyMachine α).Trace d log) :
    Counted d (kept log).length := by
  induction htrace with
  | init hinit => exact counted_init hinit
  | call _ _ hexec ih =>
      rw [kept, Machine.replay_append_singleton]
      exact counted_step ih hexec

/-- Across blocks `deque_size` is the number of elements on `u4`, within one block it is zero. -/
theorem Counted.dequeSize_eq (h : Counted d n) :
    dequeSize d = if d.start.index = d.stop.index then 0 else u4 n := by
  have hle := h.index_le
  have hlt := h.stop_index_lt
  have hsize := h.mapSize_lt
  have hstart := h.start_cur_lt
  have hstop := h.stop_cur_lt
  have hunit := h.unitNum_lt
  have hnumber := h.number_eq
  rw [dequeSize]
  split
  · next hindex =>
      rw [hindex]
      exact (u4Sub_of_le le_rfl (by omega)).trans (Nat.sub_self _)
  · next hindex =>
      have hspan : u4Sub (u4Sub d.stop.index d.start.index) 1 = span d - 1 := by
        rw [u4Sub_of_le hle (by omega), u4Sub_of_le (by omega) (by omega), span]
      have hsucc : span d = span d - 1 + 1 := by
        rw [span]
        omega
      rw [hsucc, Nat.succ_mul] at hnumber
      rw [hspan, u4Sub_of_le hstart.le hunit]
      generalize (span d - 1) * d.unitNum = inner at hnumber ⊢
      simp only [u4]
      omega

/-- In every state reached, `deque_size` returns the number of elements just if the elements do not
all lie in one block and are fewer than `2^32`; `deque_empty` is always right. -/
theorem deque_size_iff {log : List (Call α × (ℤ × Option α))}
    (htrace : (anyMachine α).Trace d log) :
    (dequeSize d = (kept log).length ↔
      (d.start.index = d.stop.index → kept log = []) ∧ (kept log).length < 4294967296) ∧
    (dequeEmpty d = 0 ↔ (kept log).length = 0) := by
  have h := counted_trace htrace
  constructor
  · rw [h.dequeSize_eq]
    split
    · next hindex =>
        constructor
        · intro hzero
          exact ⟨fun _ ↦ List.eq_nil_of_length_eq_zero hzero.symm, by omega⟩
        · rintro ⟨hnil, -⟩
          rw [hnil hindex, List.length_nil]
    · next hindex =>
        constructor
        · intro heq
          refine ⟨fun hsame ↦ absurd hsame hindex, ?_⟩
          rw [← heq]
          exact u4_lt _
        · rintro ⟨-, hlt⟩
          exact u4_of_lt hlt
  · rw [← h.isNil_iff, dequeEmpty, isNil]
    split
    · next hne =>
        exact ⟨fun hret ↦ absurd hret (by decide), fun hnil ↦ (hne.elim (· hnil.1) (· hnil.2)).elim⟩
    · next heq =>
        rw [not_or, not_not, not_not] at heq
        exact ⟨fun _ ↦ heq, fun _ ↦ rfl⟩

/-- Blocks of two units and a map of two slots. -/
def pairInit : DequeT ℕ := (dequeInit 1 2 2 1).get (by with_unfolding_all decide)

theorem pairInit_init : (anyMachine ℕ).init pairInit :=
  ⟨1, 2, 2, 1, by decide, by decide, by decide, (Option.some_get _).symm⟩

theorem onePush_run :
    ((anyMachine ℕ).execAll pairInit [.pushBack 7 true 2]).isSome := by with_unfolding_all decide

/-- One element in one block: its number is reported as zero. -/
theorem deque_size_zero :
    ∃ d log, (anyMachine ℕ).Trace d log ∧ kept log = [7] ∧ dequeSize d = 0 :=
  ⟨_, _, Machine.trace_execAll pairInit_init (by with_unfolding_all decide)
    (Option.some_get onePush_run).symm, by with_unfolding_all decide, by with_unfolding_all decide⟩

theorem twoPushes_run :
    ((anyMachine ℕ).execAll pairInit [.pushBack 7 true 2, .pushBack 8 true 3]).isSome := by
  with_unfolding_all decide

theorem deque_size_two_blocks :
    ∃ d log, (anyMachine ℕ).Trace d log ∧ kept log = [7, 8] ∧ dequeSize d = 2 := by
  have htrace := Machine.trace_execAll pairInit_init (by with_unfolding_all decide)
    (Option.some_get twoPushes_run).symm
  have hkept : kept (((anyMachine ℕ).execAll pairInit
      [.pushBack 7 true 2, .pushBack 8 true 3]).get twoPushes_run).1 = [7, 8] := by
    with_unfolding_all decide
  have hsize := (deque_size_iff htrace).1
  rw [hkept] at hsize
  exact ⟨_, _, htrace, hkept, hsize.mpr ⟨by with_unfolding_all decide, by decide⟩⟩

end CPractice.Deque
