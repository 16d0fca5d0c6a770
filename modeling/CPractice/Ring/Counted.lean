import CPractice.Ring.Sequential

/-!
# The counted ring of `ring-buffer/ring1`

An earlier version of the array ring: it always uses the path for several producers and consumers,
keeps the number of its elements in a separate field, and pushes and pops several elements at once.
The loops are given a number of turns as in `Ring.Sequential`.
-/

namespace CPractice.Ring

variable {α : Type}

/-- `ring_t` of ring1. -/
structure CountedRing (α : Type) extends RingT α where
  size : ℕ

/-- `ring_init` of ring1. -/
def countedInit (unitNum unitSize : ℕ) : Option (CountedRing α) :=
  (ringInit unitNum unitSize).map fun ring ↦ ⟨ring, 0⟩

/-- The copy of consecutive elements, which must end before the end of the data area. -/
def copyBatch (ring : RingT α) (offset : ℕ) (elems : List α) : Option (RingT α) :=
  if offset + u4 (elems.length * ring.unitSize) ≤ ring.unitNum * ring.unitSize then
    some (elems.foldl (fun out elem ↦ (copyIn out.1 out.2 elem, out.2 + ring.unitSize))
      (ring, offset)).1
  else none

/-- The reservation loop of `ring_push`. -/
def batchReserve (num : ℕ) : ℕ → RingT α → Option (Option (ℕ × RingT α))
  | 0, _ => none
  | turns + 1, ring =>
      let ridx := ring.readPos
      let widx := ring.writePos
      if ringIndex (u4 (widx + num)) ring.unitNum = ringIndex ridx ring.unitNum then some none
      else if ring.writePos = widx then some (some (widx, { ring with writePos := u4 (widx + num) }))
      else batchReserve num turns ring

/-- The publication loop of `ring_push`. -/
def batchPublish (num : ℕ) : ℕ → RingT α → ℕ → Option (RingT α)
  | 0, _, _ => none
  | turns + 1, ring, widx =>
      if ring.maxReadIdx = widx then some { ring with maxReadIdx := u4 (widx + num) }
      else batchPublish num turns ring widx

/-- `ring_push` of ring1. -/
def batchPush (turns : ℕ) (ring : CountedRing α) (elems : List α) :
    Option (ℤ × CountedRing α) :=
  if elems.length = 0 then some (-1, ring)
  else do
    let reserved ← batchReserve elems.length turns ring.toRingT
    match reserved with
    | none => some (-2, ring)
    | some (widx, base) => do
        let base ← copyBatch base (elemOffset base widx) elems
        let base ← batchPublish elems.length turns base widx
        some (0, ⟨base, u4 (ring.size + elems.length)⟩)

/-- `ring_pop` of ring1: the code, the units copied out and the ring. -/
def batchPop : ℕ → CountedRing α → ℕ → Option (ℤ × List (Option α) × CountedRing α)
  | 0, _, _ => none
  | turns + 1, ring, num =>
      if num = 0 then some (-1, [], ring)
      else
        let ridx := ring.readPos
        let num := if ring.size < num then ring.size else num
        let offset := elemOffset ring.toRingT ridx
        if isEmpty ring.toRingT ridx ring.maxReadIdx then some (-2, [], ring)
        else if ring.unitNum * ring.unitSize < offset + u4 (num * ring.unitSize) then none
        else if ring.readPos = ridx then
          some (0, (List.range num).map fun i ↦ ring.cells (offset + i * ring.unitSize),
            ⟨{ ring.toRingT with readPos := u4 (ridx + num) }, u4Sub ring.size num⟩)
        else batchPop turns ring num

/-! ## One element at a time -/

/-- The counted ring holds a queue. -/
def HoldsCounted (ring : CountedRing α) (queue : List α) : Prop :=
  (∃ head, HoldsAt .mpMc ring.toRingT queue head) ∧ ring.size = queue.length

namespace HoldsCounted

variable {ring : CountedRing α} {queue : List α}

theorem elemOffset_le (h : HoldsCounted ring queue) (pos : ℕ) :
    elemOffset ring.toRingT (u4 pos) + ring.unitSize ≤ ring.unitNum * ring.unitSize := by
  rcases h.1 with ⟨head, hhead⟩
  have hlt : pos % ring.unitNum < ring.unitNum := Nat.mod_lt _ hhead.fits.num_pos
  rw [hhead.fits.elemOffset_u4, slotOf, ← Nat.succ_mul]
  exact Nat.mul_le_mul_right _ hlt

/-- A push of one element with room for it. -/
theorem batchPush_single (turns : ℕ) (elem : α) (hunit : ring.unitSize < 4294967296)
    (hnot : ¬ isFull ring.toRingT ring.writePos ring.readPos)
    (hmax : ring.maxReadIdx = ring.writePos)
    (hroom : elemOffset ring.toRingT ring.writePos + ring.unitSize ≤ ring.unitNum * ring.unitSize) :
    batchPush (turns + 1) ring [elem] =
      some (0, ⟨{ copyIn ring.toRingT (elemOffset ring.toRingT ring.writePos) elem with
        writePos := u4 (ring.writePos + 1), maxReadIdx := u4 (ring.writePos + 1) },
        u4 (ring.size + 1)⟩) := by
  unfold isFull at hnot
  have hbytes : elemOffset ring.toRingT ring.writePos + u4 ring.unitSize ≤
      ring.unitNum * ring.unitSize := by
    rw [u4_of_lt hunit]
    exact hroom
  simp only [elemOffset] at hbytes
  simp [batchPush, batchReserve, hnot, copyBatch, elemOffset, hbytes, batchPublish, copyIn, hmax]
  rfl

/-- A push of one element: refused on the full ring. -/
theorem push_single (h : HoldsCounted ring queue) (turns : ℕ) (elem : α)
    (hunit : ring.unitSize < 4294967296) :
    (queue.length < ring.unitNum - 1 ∧ ∃ ring', batchPush (turns + 1) ring [elem] = some (0, ring') ∧
        HoldsCounted ring' (queue ++ [elem]) ∧ ring'.unitNum = ring.unitNum ∧
        ring'.unitSize = ring.unitSize) ∨
      (¬ queue.length < ring.unitNum - 1 ∧ batchPush (turns + 1) ring [elem] = some (-2, ring)) := by
  have hbound := h.elemOffset_le
  rcases h with ⟨⟨head, hhead⟩, hsize⟩
  have hfull := hhead.isFull_iff
  by_cases hspace : queue.length < ring.unitNum - 1
  · left
    have hmax : ring.maxReadIdx = ring.writePos := hhead.limit.trans hhead.write.symm
    have hpush := batchPush_single turns elem hunit (fun heq ↦ (hfull.mp heq) hspace) hmax
      (by rw [hhead.write]; exact hbound _)
    have hlt := hhead.fits.num_lt
    refine ⟨hspace, _, hpush, ⟨⟨head, ?_⟩, ?_⟩, rfl, rfl⟩
    · exact hhead.push hspace rfl rfl rfl rfl rfl rfl
    · have hcount : u4 (ring.size + 1) = (queue ++ [elem]).length := by
        rw [hsize, u4_of_lt (by omega), List.length_append, List.length_singleton]
      exact hcount
  · right
    refine ⟨hspace, ?_⟩
    have hisfull := hfull.mpr hspace
    unfold isFull at hisfull
    simp [batchPush, batchReserve, hisfull]

/-- A pop of one element: refused on the empty ring, else the oldest one. -/
theorem pop_single (h : HoldsCounted ring queue) (turns : ℕ) (hunit : ring.unitSize < 4294967296) :
    (queue = [] ∧ batchPop (turns + 1) ring 1 = some (-2, [], ring)) ∨
      ∃ elem rest ring', queue = elem :: rest ∧
        batchPop (turns + 1) ring 1 = some (0, [some elem], ring') ∧ HoldsCounted ring' rest ∧
        ring'.unitNum = ring.unitNum ∧ ring'.unitSize = ring.unitSize := by
  have hbound := h.elemOffset_le
  rcases h with ⟨⟨head, hhead⟩, hsize⟩
  have hempty := hhead.isEmpty_iff
  cases queue with
  | nil =>
      left
      have hisempty : isEmpty ring.toRingT ring.readPos ring.maxReadIdx := hempty.mpr rfl
      exact ⟨rfl, by simp [batchPop, hisempty]⟩
  | cons elem rest =>
      right
      have hnot : ¬ isEmpty ring.toRingT ring.readPos ring.maxReadIdx := by
        intro hisempty
        cases hempty.mp hisempty
      have hroom : ¬ ring.unitNum * ring.unitSize <
          elemOffset ring.toRingT ring.readPos + u4 (1 * ring.unitSize) := by
        have hle := hbound head
        rw [Nat.one_mul, u4_of_lt hunit, hhead.read]
        omega
      have hcell := hhead.front_cell
      have hlt := hhead.fits.num_lt
      have hroom' := hhead.room
      rw [List.length_cons] at hsize hroom'
      have hnum : (if ring.size < 1 then ring.size else 1) = 1 := if_neg (by omega)
      refine ⟨elem, rest, ⟨{ ring.toRingT with readPos := u4 (ring.readPos + 1) },
        u4Sub ring.size 1⟩, rfl, ?_, ⟨⟨head + 1, hhead.pop rfl⟩, ?_⟩, rfl, rfl⟩
      · simp only [batchPop, hnum, if_neg hnot, if_neg hroom, Nat.one_ne_zero, if_false, if_true]
        simp [hcell]
      · have hcount : u4Sub ring.size 1 = rest.length := by
          rw [u4Sub_of_le (by omega) (by omega)]
          omega
        exact hcount

theorem init {k unitSize : ℕ} (hk : k < 32) (hpos : 0 < unitSize)
    (hfits : (2 ^ k - 1) * unitSize < 4294967296) :
    HoldsCounted (⟨⟨unitSize, 2 ^ k, 0, 0, 0, fun _ ↦ none⟩, 0⟩ : CountedRing α) [] :=
  ⟨⟨0, holdsAt_init hk hpos hfits⟩, rfl⟩

end HoldsCounted

end CPractice.Ring
