import CPractice.Ring.Counted

/-!
# Batches on the ring of `ring-buffer/ring1`

`ring_push` refuses a batch only if it would end exactly at `read_pos`, and both calls copy a batch in
one piece.  So the ring is the bounded queue it is meant to be as long as each batch is either refused
by that test or fits the room left, and no copy crosses the end of the data area.  Whole runs are
compared with the queue, and the condition is exact.
-/

namespace CPractice.Ring

open Lib

variable {α : Type} {ring : CountedRing α} {queue elems : List α} {head : ℕ}

/-! ## Calls -/

/-- `ring_init` of ring1 with its allocation granted, where the size is computed on `u4`.  The stores
to the 24 bytes of `ring_t` fault if the allocation is shorter; `some none` is the return of `-1`. -/
def batchInit (unitNum unitSize : ℕ) : Option (Option (CountedRing α)) :=
  match countedInit unitNum unitSize with
  | none => some none
  | some ring => if u4 (24 + unitSize * unitNum) < 24 then none else some (some ring)

inductive BatchCall (α : Type) where
  | push (elems : List α)
  | pop (num : ℕ)

/-- What a call returns; the elements of a pop are as many as it stores in `*elem_num`. -/
inductive BatchRet (α : Type) where
  | pushed (ret : ℤ)
  | popped (ret : ℤ) (elems : List (Option α))
  deriving DecidableEq

def batchExec (turns : ℕ) (ring : CountedRing α) :
    BatchCall α → Option (BatchRet α × CountedRing α)
  | .push elems => (batchPush turns ring elems).map fun out ↦ (.pushed out.1, out.2)
  | .pop num => (batchPop turns ring num).map fun out ↦ (.popped out.1 out.2.1, out.2.2)

/-- Batches have at least one element, and a number of elements is a `u4`. -/
def batchOk : BatchCall α → Prop
  | .push elems => 1 ≤ elems.length ∧ elems.length < 4294967296
  | .pop num => 1 ≤ num ∧ num < 4294967296

/-- A call on a queue of at most `capacity` elements. -/
def batchFifo (capacity : ℕ) (queue : List α) : BatchCall α → BatchRet α × List α
  | .push elems =>
      if queue.length + elems.length ≤ capacity then (.pushed 0, queue ++ elems)
      else (.pushed (-2), queue)
  | .pop num =>
      if queue = [] then (.popped (-2) [], [])
      else (.popped 0 ((queue.take num).map some), queue.drop num)

/-- The calls return what the queue returns, and after each the ring holds the queue. -/
def Conforms (turns capacity : ℕ) : CountedRing α → List α → List (BatchCall α) → Prop
  | _, _, [] => True
  | ring, queue, call :: calls =>
      ∃ ring', batchExec turns ring call = some ((batchFifo capacity queue call).1, ring') ∧
        HoldsCounted ring' (batchFifo capacity queue call).2 ∧
        Conforms turns capacity ring' (batchFifo capacity queue call).2 calls

/-- A batch that is refused by the test, or fits the room left and does not cross the end. -/
def BatchFits (ring : CountedRing α) : BatchCall α → Prop
  | .push elems =>
      (ring.size + elems.length ≤ ring.unitNum - 1 ∧
        ringIndex ring.writePos ring.unitNum + elems.length ≤ ring.unitNum) ∨
      ring.unitNum ∣ ring.size + elems.length
  | .pop num => ring.size ≠ 0 →
      ringIndex ring.readPos ring.unitNum + min num ring.size ≤ ring.unitNum

/-- The batches of a run fit, each in the state it is used in. -/
def BatchesFit (turns : ℕ) : CountedRing α → List (BatchCall α) → Prop
  | _, [] => True
  | ring, call :: calls =>
      BatchFits ring call ∧ ∀ out ∈ batchExec turns ring call, BatchesFit turns out.2 calls

instance (ring : CountedRing α) (call : BatchCall α) : Decidable (BatchFits ring call) :=
  match call with
  | .push elems => inferInstanceAs (Decidable ((ring.size + elems.length ≤ ring.unitNum - 1 ∧
      ringIndex ring.writePos ring.unitNum + elems.length ≤ ring.unitNum) ∨
        ring.unitNum ∣ ring.size + elems.length))
  | .pop num => inferInstanceAs (Decidable (ring.size ≠ 0 →
      ringIndex ring.readPos ring.unitNum + min num ring.size ≤ ring.unitNum))

instance decidableBatchesFit (turns : ℕ) :
    (ring : CountedRing α) → (calls : List (BatchCall α)) → Decidable (BatchesFit turns ring calls)
  | _, [] => isTrue trivial
  | ring, call :: calls =>
      have : DecidablePred fun out : BatchRet α × CountedRing α ↦ BatchesFit turns out.2 calls :=
        fun out ↦ decidableBatchesFit turns out.2 calls
      inferInstanceAs (Decidable (BatchFits ring call ∧
        ∀ out ∈ batchExec turns ring call, BatchesFit turns out.2 calls))

/-! ## Copies -/

theorem add_mod_of_lt {n pos i : ℕ} (hlt : pos % n + i < n) : (pos + i) % n = pos % n + i := by
  have hi : i % n = i := Nat.mod_eq_of_lt (by omega)
  rw [Nat.add_mod_of_add_mod_lt (by rwa [hi]), hi]

theorem slotOf_add {base : RingT α} {pos i : ℕ} (hlt : pos % base.unitNum + i < base.unitNum) :
    slotOf base pos + i * base.unitSize = slotOf base (pos + i) := by
  rw [slotOf, slotOf, add_mod_of_lt hlt, Nat.add_mul]

/-- The elements of the queue are in their slots. -/
structure Window (base : RingT α) (queue : List α) (head : ℕ) : Prop where
  fits : Fits base
  room : queue.length < base.unitNum
  cells : ∀ i, i < queue.length → base.cells (slotOf base (head + i)) = queue[i]?

/-- One more element is copied behind the queue. -/
theorem Window.copy {base : RingT α} (h : Window base queue head) (elem : α)
    (hroom : queue.length + 1 < base.unitNum) :
    Window (copyIn base (slotOf base (head + queue.length)) elem) (queue ++ [elem]) head := by
  refine ⟨⟨h.fits.pow, h.fits.size_pos, h.fits.room⟩, ?_, ?_⟩
  · rw [List.length_append, List.length_singleton]
    exact hroom
  · intro i hi
    rw [List.length_append, List.length_singleton] at hi
    have hslot : slotOf (copyIn base (slotOf base (head + queue.length)) elem) (head + i) =
        slotOf base (head + i) := rfl
    rw [hslot]
    rcases (Nat.lt_succ_iff.mp hi).eq_or_lt with heq | hlt
    · rw [heq, copyIn_self, List.getElem?_append_right (le_refl _), Nat.sub_self]
      rfl
    · rw [copyIn_slot h.fits (by omega) (by omega) (by omega), h.cells i hlt,
        List.getElem?_append_left hlt]

/-- What a copy leaves alone. -/
structure SameCounters (base base' : RingT α) : Prop where
  unitSize : base'.unitSize = base.unitSize
  unitNum : base'.unitNum = base.unitNum
  writePos : base'.writePos = base.writePos
  readPos : base'.readPos = base.readPos
  maxReadIdx : base'.maxReadIdx = base.maxReadIdx

/-- The elements of a batch that does not cross the end, one after another. -/
theorem Window.copies {base : RingT α} (h : Window base queue head) {offset size : ℕ}
    (hsize : size = base.unitSize) (hroom : queue.length + elems.length < base.unitNum)
    (hend : (head + queue.length) % base.unitNum + elems.length ≤ base.unitNum)
    (hoffset : elems ≠ [] → offset = slotOf base (head + queue.length)) :
    Window (elems.foldl (fun out elem ↦ (copyIn out.1 out.2 elem, out.2 + size)) (base, offset)).1
        (queue ++ elems) head ∧
      SameCounters base
        (elems.foldl (fun out elem ↦ (copyIn out.1 out.2 elem, out.2 + size)) (base, offset)).1 := by
  induction elems generalizing base queue offset with
  | nil =>
      rw [List.append_nil]
      exact ⟨h, rfl, rfl, rfl, rfl, rfl⟩
  | cons elem elems ih =>
      rw [List.length_cons] at hroom hend
      rw [hoffset (List.cons_ne_nil _ _), List.foldl_cons]
      have hcopy := h.copy elem (by omega)
      have hlength : head + (queue ++ [elem]).length = head + queue.length + 1 := by
        rw [List.length_append, List.length_singleton, Nat.add_assoc]
      -- The next slot is behind this one, unless this one is the last of the batch.
      have hnext : elems ≠ [] →
          (head + queue.length + 1) % base.unitNum = (head + queue.length) % base.unitNum + 1 := by
        intro hne
        have := List.length_pos_of_ne_nil hne
        exact add_mod_of_lt (by omega)
      have hroom' : (queue ++ [elem]).length + elems.length < base.unitNum := by
        rw [List.length_append, List.length_singleton]
        omega
      have hend' : (head + (queue ++ [elem]).length) % base.unitNum + elems.length ≤
          base.unitNum := by
        rw [hlength]
        by_cases hnil : elems = []
        · rw [hnil, List.length_nil, Nat.add_zero]
          exact (Nat.mod_lt _ h.fits.num_pos).le
        · rw [hnext hnil]
          omega
      have hoffset' : elems ≠ [] → slotOf base (head + queue.length) + size =
          slotOf base (head + (queue ++ [elem]).length) := by
        intro hne
        have := List.length_pos_of_ne_nil hne
        rw [hlength, hsize, ← Nat.one_mul base.unitSize]
        exact slotOf_add (by omega)
      rcases ih hcopy hsize hroom' hend' hoffset' with ⟨hwindow, hsame⟩
      rw [List.append_assoc, List.singleton_append] at hwindow
      exact ⟨hwindow, hsame.unitSize, hsame.unitNum, hsame.writePos, hsame.readPos,
        hsame.maxReadIdx⟩

/-! ## Pushes -/

/-- The full test of a batch. -/
theorem batch_refused_iff (h : HoldsAt .mpMc ring.toRingT queue head) (num : ℕ) :
    ringIndex (u4 (ring.writePos + num)) ring.unitNum = ringIndex ring.readPos ring.unitNum ↔
      ring.unitNum ∣ queue.length + num := by
  rw [h.write, h.read, u4_add, h.fits.ringIndex_u4, h.fits.ringIndex_u4, Nat.add_assoc]
  have hiff := Nat.modEq_iff_dvd' (n := ring.unitNum) (Nat.le_add_right head (queue.length + num))
  rw [Nat.add_sub_cancel_left] at hiff
  exact eq_comm.trans hiff

theorem batchPush_refused (turns : ℕ) (hne : elems.length ≠ 0)
    (hrefused : ringIndex (u4 (ring.writePos + elems.length)) ring.unitNum =
      ringIndex ring.readPos ring.unitNum) :
    batchPush (turns + 1) ring elems = some (-2, ring) := by
  simp [batchPush, batchReserve, hne, hrefused]

theorem batchPush_accepted (turns : ℕ) (hne : elems.length ≠ 0)
    (hnot : ¬ ringIndex (u4 (ring.writePos + elems.length)) ring.unitNum =
      ringIndex ring.readPos ring.unitNum) :
    batchPush (turns + 1) ring elems =
      (copyBatch { ring.toRingT with writePos := u4 (ring.writePos + elems.length) }
        (elemOffset ring.toRingT ring.writePos) elems).bind fun base ↦
          (batchPublish elems.length (turns + 1) base ring.writePos).bind fun base ↦
            some (0, ⟨base, u4 (ring.size + elems.length)⟩) := by
  simp only [batchPush, batchReserve, if_neg hne, if_neg hnot, if_true, Option.bind_eq_bind,
    Option.bind_some]
  rfl

/-- The bytes of a batch that fits the room left. -/
theorem batch_bytes {base : RingT α} (h : Fits base) {num : ℕ} (hnum : num ≤ base.unitNum - 1) :
    u4 (num * base.unitSize) = num * base.unitSize :=
  u4_of_lt ((Nat.mul_le_mul_right _ hnum).trans_lt h.room)

/-- The copy of a batch that fits the room left is inside the data area exactly when the batch does
not cross its end. -/
theorem batch_inside_iff (h : Fits ring.toRingT) {num : ℕ} (hnum : num ≤ ring.unitNum - 1) (pos : ℕ) :
    elemOffset ring.toRingT (u4 pos) + u4 (num * ring.unitSize) ≤ ring.unitNum * ring.unitSize ↔
      ringIndex (u4 pos) ring.unitNum + num ≤ ring.unitNum := by
  rw [h.elemOffset_u4, batch_bytes h hnum, h.ringIndex_u4, slotOf, ← Nat.add_mul]
  exact Nat.mul_le_mul_right_iff h.size_pos

/-- A batch that fits the room left and does not cross the end. -/
theorem HoldsCounted.push_fitting (h : HoldsCounted ring queue) (turns : ℕ) (hne : elems.length ≠ 0)
    (hspace : queue.length + elems.length ≤ ring.unitNum - 1)
    (hend : ringIndex ring.writePos ring.unitNum + elems.length ≤ ring.unitNum) :
    ∃ ring', batchPush (turns + 1) ring elems = some (0, ring') ∧
      HoldsCounted ring' (queue ++ elems) ∧ ring'.unitNum = ring.unitNum := by
  rcases h with ⟨⟨head, h⟩, hsize⟩
  have hroom := h.room
  have hlt := h.fits.num_lt
  have hmax : ring.maxReadIdx = ring.writePos := h.limit.trans h.write.symm
  have hnot : ¬ ringIndex (u4 (ring.writePos + elems.length)) ring.unitNum =
      ringIndex ring.readPos ring.unitNum := by
    rw [batch_refused_iff h]
    intro hdvd
    have := Nat.le_of_dvd (by omega) hdvd
    omega
  have hinside := (batch_inside_iff h.fits (by omega) (head + queue.length)).mpr (h.write ▸ hend)
  rw [← h.write] at hinside
  set base : RingT α := { ring.toRingT with writePos := u4 (ring.writePos + elems.length) } with hbase
  have hwindow : Window base queue head := ⟨⟨h.fits.pow, h.fits.size_pos, h.fits.room⟩, h.room, h.cells⟩
  have hroom' : queue.length + elems.length < base.unitNum := by
    change _ < ring.unitNum
    omega
  have hend' : (head + queue.length) % base.unitNum + elems.length ≤ base.unitNum := by
    rw [h.write, h.fits.ringIndex_u4] at hend
    exact hend
  have hoffset : elems ≠ [] →
      elemOffset ring.toRingT ring.writePos = slotOf base (head + queue.length) := by
    intro _
    rw [h.write, h.fits.elemOffset_u4]
    rfl
  rcases hwindow.copies rfl hroom' hend' hoffset with ⟨hcopied, hsame⟩
  set base' := (elems.foldl (fun out elem ↦ (copyIn out.1 out.2 elem, out.2 + base.unitSize))
    (base, elemOffset ring.toRingT ring.writePos)).1 with hbase'
  have hcopy : copyBatch base (elemOffset ring.toRingT ring.writePos) elems = some base' :=
    if_pos hinside
  have hpublish : batchPublish elems.length (turns + 1) base' ring.writePos =
      some { base' with maxReadIdx := u4 (ring.writePos + elems.length) } :=
    if_pos (hsame.maxReadIdx.trans hmax)
  have hnext : u4 (ring.writePos + elems.length) = u4 (head + (queue ++ elems).length) := by
    rw [h.write, u4_add, List.length_append, Nat.add_assoc]
  refine ⟨⟨{ base' with maxReadIdx := u4 (ring.writePos + elems.length) },
    u4 (ring.size + elems.length)⟩, ?_, ⟨⟨head, ?_⟩, ?_⟩, hsame.unitNum⟩
  · rw [batchPush_accepted turns hne hnot, hcopy, Option.bind_some, hpublish, Option.bind_some]
  · exact ⟨⟨hcopied.fits.pow, hcopied.fits.size_pos, hcopied.fits.room⟩, hsame.readPos.trans h.read,
      hsame.writePos.trans hnext, hnext, hcopied.room, hcopied.cells⟩
  · change u4 (ring.size + elems.length) = (queue ++ elems).length
    rw [hsize, List.length_append, u4_of_lt (by omega)]

/-- A call returns what the queue returns and leaves a ring that holds the new queue. -/
def Answers (turns : ℕ) (ring : CountedRing α) (queue : List α) (call : BatchCall α) : Prop :=
  ∃ ring', batchExec turns ring call =
      some ((batchFifo (ring.unitNum - 1) queue call).1, ring') ∧
    HoldsCounted ring' (batchFifo (ring.unitNum - 1) queue call).2 ∧ ring'.unitNum = ring.unitNum

/-- A batch that fits is answered as by the queue. -/
theorem HoldsCounted.push_answers (h : HoldsCounted ring queue) (turns : ℕ)
    (hne : 1 ≤ elems.length) (hfits : BatchFits ring (.push elems)) :
    Answers (turns + 1) ring queue (.push elems) := by
  have hne' : elems.length ≠ 0 := Nat.ne_of_gt hne
  obtain ⟨⟨head, hat⟩, hsize⟩ := id h
  have hroom := hat.room
  unfold Answers
  rcases hfits with ⟨hspace, hend⟩ | hdvd
  · rw [hsize] at hspace
    rw [batchFifo, if_pos hspace]
    rcases h.push_fitting turns hne' hspace hend with ⟨ring', hpush, hholds, hnum⟩
    refine ⟨ring', ?_, hholds, hnum⟩
    rw [batchExec, hpush]
    rfl
  · rw [hsize] at hdvd
    have hfull : ¬ queue.length + elems.length ≤ ring.unitNum - 1 := by
      have := Nat.le_of_dvd (by omega) hdvd
      omega
    rw [batchFifo, if_neg hfull]
    refine ⟨ring, ?_, h, rfl⟩
    rw [batchExec, batchPush_refused turns hne' ((batch_refused_iff hat _).mpr hdvd)]
    rfl

/-- A batch that is answered as by the queue fits. -/
theorem HoldsCounted.push_fits (h : HoldsCounted ring queue) (turns : ℕ) (hne : 1 ≤ elems.length)
    {ring' : CountedRing α}
    (hexec : batchExec (turns + 1) ring (.push elems) =
      some ((batchFifo (ring.unitNum - 1) queue (.push elems)).1, ring')) :
    BatchFits ring (.push elems) := by
  have hne' : elems.length ≠ 0 := Nat.ne_of_gt hne
  obtain ⟨⟨head, hat⟩, hsize⟩ := id h
  by_cases hdvd : ring.unitNum ∣ queue.length + elems.length
  · exact .inr (hsize ▸ hdvd)
  · have hnot := (batch_refused_iff hat elems.length).not.mpr hdvd
    rcases Option.map_eq_some_iff.mp hexec with ⟨out, hout, heq⟩
    rw [batchPush_accepted turns hne' hnot] at hout
    rcases Option.bind_eq_some_iff.mp hout with ⟨base, hcopy, hbase⟩
    rcases Option.bind_eq_some_iff.mp hbase with ⟨base', -, hlast⟩
    cases hlast
    -- The push was accepted, so the queue accepts it as well.
    by_cases hspace : queue.length + elems.length ≤ ring.unitNum - 1
    · refine .inl ⟨hsize ▸ hspace, ?_⟩
      by_contra hend
      rw [hat.write] at hend hcopy
      have hnone : copyBatch { ring.toRingT with
            writePos := u4 (u4 (head + queue.length) + elems.length) }
          (elemOffset ring.toRingT (u4 (head + queue.length))) elems = none :=
        if_neg ((batch_inside_iff hat.fits (by omega) _).not.mpr hend)
      rw [hnone] at hcopy
      cases hcopy
    · rw [batchFifo, if_neg hspace] at heq
      cases heq

/-! ## Pops -/

/-- The ring with `read_pos` moved past the first elements. -/
theorem HoldsAt.drop {base : RingT α} (h : HoldsAt .mpMc base queue head) {num : ℕ}
    (hnum : num ≤ queue.length) :
    HoldsAt .mpMc { base with readPos := u4 (base.readPos + num) } (queue.drop num) (head + num) := by
  have hroom := h.room
  have htop : head + num + (queue.drop num).length = head + queue.length := by
    rw [List.length_drop]
    omega
  refine ⟨⟨h.fits.pow, h.fits.size_pos, h.fits.room⟩, ?_, htop ▸ h.write, htop ▸ h.limit, ?_, ?_⟩
  · rw [h.read, u4_add]
  · rw [List.length_drop]
    exact (Nat.sub_le _ _).trans_lt hroom
  · intro i hi
    rw [List.length_drop] at hi
    have hcell := h.cells (num + i) (by omega)
    rw [← Nat.add_assoc] at hcell
    rw [List.getElem?_drop]
    exact hcell

/-- The elements that a pop of at most as many as there are copies out. -/
theorem HoldsAt.range_cells {base : RingT α} (h : HoldsAt .mpMc base queue head) {num : ℕ}
    (hnum : num ≤ queue.length) (hend : head % base.unitNum + num ≤ base.unitNum) :
    ((List.range num).map fun i ↦ base.cells (slotOf base head + i * base.unitSize)) =
      (queue.take num).map some := by
  apply List.ext_getElem
  · rw [List.length_map, List.length_range, List.length_map, List.length_take,
      Nat.min_eq_left hnum]
  · intro i hi hi'
    rw [List.length_map, List.length_range] at hi
    rw [List.getElem_map, List.getElem_range, slotOf_add (by omega), h.cells i (by omega),
      List.getElem_map, List.getElem_take]
    exact List.getElem?_eq_getElem (by omega)

theorem take_min_length (num : ℕ) : queue.take (min num queue.length) = queue.take num := by
  rcases Nat.le_total num queue.length with hle | hge
  · rw [Nat.min_eq_left hle]
  · rw [Nat.min_eq_right hge, List.take_length, List.take_of_length_le hge]

theorem drop_min_length (num : ℕ) : queue.drop (min num queue.length) = queue.drop num := by
  rcases Nat.le_total num queue.length with hle | hge
  · rw [Nat.min_eq_left hle]
  · rw [Nat.min_eq_right hge, List.drop_length, List.drop_of_length_le hge]

/-- A pop of a ring that is not empty. -/
theorem HoldsCounted.batchPop_eq (h : HoldsCounted ring queue) (turns : ℕ) {num : ℕ} (hpos : 1 ≤ num)
    (hnil : queue ≠ []) :
    batchPop (turns + 1) ring num =
      if ringIndex ring.readPos ring.unitNum + min num queue.length ≤ ring.unitNum then
        some (0, (List.range (min num queue.length)).map fun i ↦
            ring.cells (elemOffset ring.toRingT ring.readPos + i * ring.unitSize),
          ⟨{ ring.toRingT with readPos := u4 (ring.readPos + min num queue.length) },
            u4Sub ring.size (min num queue.length)⟩)
      else none := by
  obtain ⟨⟨head, hat⟩, hsize⟩ := id h
  have hroom := hat.room
  have hempty : ¬ isEmpty ring.toRingT ring.readPos ring.maxReadIdx :=
    hat.isEmpty_iff.not.mpr hnil
  have hmin : (if ring.size < num then ring.size else num) = min num queue.length := by
    rw [hsize]
    split <;> omega
  have hinside := batch_inside_iff hat.fits (by omega : min num queue.length ≤ ring.unitNum - 1) head
  rw [← hat.read] at hinside
  rw [batchPop, if_neg (Nat.ne_of_gt hpos), if_neg hempty, hmin]
  by_cases hend : ringIndex ring.readPos ring.unitNum + min num queue.length ≤ ring.unitNum
  · rw [if_pos hend, if_neg (Nat.not_lt.mpr (hinside.mpr hend)), if_pos rfl]
  · rw [if_neg hend, if_pos (Nat.not_le.mp (hinside.not.mpr hend))]

/-- A pop that does not cross the end is answered as by the queue. -/
theorem HoldsCounted.pop_answers (h : HoldsCounted ring queue) (turns : ℕ) {num : ℕ} (hpos : 1 ≤ num)
    (hfits : BatchFits ring (.pop num)) : Answers (turns + 1) ring queue (.pop num) := by
  obtain ⟨⟨head, hat⟩, hsize⟩ := id h
  unfold Answers
  by_cases hnil : queue = []
  · have hempty : isEmpty ring.toRingT ring.readPos ring.maxReadIdx := hat.isEmpty_iff.mpr hnil
    rw [batchFifo, if_pos hnil]
    refine ⟨ring, ?_, hnil ▸ h, rfl⟩
    rw [batchExec, batchPop, if_neg (Nat.ne_of_gt hpos), if_pos hempty]
    rfl
  · have hend : ringIndex ring.readPos ring.unitNum + min num queue.length ≤ ring.unitNum := by
      rw [← hsize]
      apply hfits
      rw [hsize]
      exact fun hlength ↦ hnil (List.length_eq_zero_iff.mp hlength)
    have hle : min num queue.length ≤ queue.length := Nat.min_le_right _ _
    have hroom := hat.room
    have hlt := hat.fits.num_lt
    rw [batchFifo, if_neg hnil]
    refine ⟨⟨{ ring.toRingT with readPos := u4 (ring.readPos + min num queue.length) },
      u4Sub ring.size (min num queue.length)⟩, ?_, ⟨⟨head + min num queue.length, ?_⟩, ?_⟩, rfl⟩
    · have hread : ringIndex ring.readPos ring.unitNum = head % ring.unitNum := by
        rw [hat.read, hat.fits.ringIndex_u4]
      have hcells := hat.range_cells hle (hread ▸ hend)
      have hoffset : elemOffset ring.toRingT ring.readPos = slotOf ring.toRingT head := by
        rw [hat.read, hat.fits.elemOffset_u4]
      rw [take_min_length] at hcells
      rw [batchExec, h.batchPop_eq turns hpos hnil, if_pos hend, hoffset, hcells]
      rfl
    · rw [← drop_min_length]
      exact hat.drop hle
    · change u4Sub ring.size (min num queue.length) = (queue.drop num).length
      rw [hsize, u4Sub_of_le hle (by omega), List.length_drop]
      omega

/-- A pop that is answered as by the queue does not cross the end. -/
theorem HoldsCounted.pop_fits (h : HoldsCounted ring queue) (turns : ℕ) {num : ℕ} (hpos : 1 ≤ num)
    {ring' : CountedRing α} {r : BatchRet α}
    (hexec : batchExec (turns + 1) ring (.pop num) = some (r, ring')) : BatchFits ring (.pop num) := by
  intro hcount
  have hnil : queue ≠ [] := by
    rintro rfl
    exact hcount h.2
  by_contra hend
  rw [h.2] at hend
  rw [batchExec, h.batchPop_eq turns hpos hnil, if_neg hend] at hexec
  cases hexec

/-! ## Runs -/

/-- A run conforms to the queue exactly when its batches fit.  The induction is on the calls, from any
ring that holds a queue. -/
theorem conforms_iff (h : HoldsCounted ring queue) (turns : ℕ) {capacity : ℕ}
    (hcapacity : ring.unitNum - 1 = capacity) {calls : List (BatchCall α)}
    (hok : ∀ call ∈ calls, batchOk call) :
    Conforms (turns + 1) capacity ring queue calls ↔ BatchesFit (turns + 1) ring calls := by
  induction calls generalizing ring queue with
  | nil => exact Iff.rfl
  | cons call calls ih =>
      have hcall := hok call List.mem_cons_self
      have hrest : ∀ call ∈ calls, batchOk call := fun c hc ↦ hok c (List.mem_cons_of_mem _ hc)
      have hanswers : BatchFits ring call → Answers (turns + 1) ring queue call := by
        intro hfits
        cases call with
        | push elems => exact h.push_answers turns hcall.1 hfits
        | pop num => exact h.pop_answers turns hcall.1 hfits
      have hfits : ∀ ring', batchExec (turns + 1) ring call =
          some ((batchFifo (ring.unitNum - 1) queue call).1, ring') → BatchFits ring call := by
        intro ring' hexec
        cases call with
        | push elems => exact h.push_fits turns hcall.1 hexec
        | pop num => exact h.pop_fits turns hcall.1 hexec
      rw [Answers, hcapacity] at hanswers
      rw [hcapacity] at hfits
      constructor
      · rintro ⟨ring', hexec, hholds, hconforms⟩
        have hthis := hfits ring' hexec
        rcases hanswers hthis with ⟨ring₁, hexec₁, -, hnum⟩
        rw [hexec] at hexec₁
        cases hexec₁
        refine ⟨hthis, ?_⟩
        intro out hout
        rw [hexec] at hout
        cases hout
        exact (ih hholds (by rw [hnum, hcapacity]) hrest).mp hconforms
      · rintro ⟨hthis, hall⟩
        rcases hanswers hthis with ⟨ring', hexec, hholds, hnum⟩
        exact ⟨ring', hexec, hholds,
          (ih hholds (by rw [hnum, hcapacity]) hrest).mpr (hall _ hexec)⟩

/-- `ring_init` stores outside its allocation exactly when the size of the allocation wraps. -/
theorem batchInit_eq {k unitSize : ℕ} (hsize : 0 < unitSize)
    (hproduct : 2 ^ k * unitSize < 4294967296) :
    batchInit (α := α) (2 ^ k) unitSize =
      if 24 + 2 ^ k * unitSize < 4294967296 then
        some (some ⟨⟨unitSize, 2 ^ k, 0, 0, 0, fun _ ↦ none⟩, 0⟩)
      else none := by
  have hpow : 2 ^ k &&& (2 ^ k - 1) = 0 :=
    (Nat.and_sub_one_eq_zero_iff_isPowerOfTwo (Nat.two_pow_pos k).ne').mpr ⟨k, rfl⟩
  have hinit : countedInit (α := α) (2 ^ k) unitSize =
      some ⟨⟨unitSize, 2 ^ k, 0, 0, 0, fun _ ↦ none⟩, 0⟩ := by
    simp [countedInit, ringInit, hpow, hsize.ne']
  have hwraps : u4 (24 + unitSize * 2 ^ k) < 24 ↔ ¬ 24 + 2 ^ k * unitSize < 4294967296 := by
    rw [Nat.mul_comm unitSize]
    unfold u4
    omega
  simp only [batchInit, hinit, hwraps, ite_not]

/-- From `ring_init` on, the calls of a run are those of the bounded queue exactly when the batches
fit. -/
theorem batches_conform_iff {k unitSize : ℕ} (hk : k < 32) (hsize : 1 ≤ unitSize)
    (hproduct : 2 ^ k * unitSize < 4294967296) (turns : ℕ) (calls : List (BatchCall α))
    (hok : ∀ call ∈ calls, batchOk call) :
    (∃ ring, batchInit (2 ^ k) unitSize = some (some ring) ∧
        Conforms (turns + 1) (2 ^ k - 1) ring [] calls) ↔
      24 + 2 ^ k * unitSize < 4294967296 ∧
        ∀ ring, batchInit (2 ^ k) unitSize = some (some ring) →
          BatchesFit (turns + 1) ring calls := by
  rw [batchInit_eq hsize hproduct]
  have hfits : (2 ^ k - 1) * unitSize < 4294967296 :=
    (Nat.mul_le_mul_right _ (Nat.sub_le _ _)).trans_lt hproduct
  have hruns := conforms_iff (HoldsCounted.init (α := α) hk hsize hfits) turns rfl hok
  by_cases hroom : 24 + 2 ^ k * unitSize < 4294967296
  · rw [if_pos hroom]
    constructor
    · rintro ⟨ring, hring, hconforms⟩
      cases hring
      refine ⟨hroom, ?_⟩
      rintro ring hring
      cases hring
      exact hruns.mp hconforms
    · rintro ⟨-, hall⟩
      exact ⟨_, rfl, hruns.mpr (hall _ rfl)⟩
  · rw [if_neg hroom]
    constructor
    · rintro ⟨ring, hring, -⟩
      cases hring
    · rintro ⟨hroom', -⟩
      exact absurd hroom' hroom

/-- Two batches fill the ring and are popped in the order they came in. -/
def fittingCalls : List (BatchCall ℕ) := [.push [1, 2], .push [3], .push [4], .pop 2, .pop 5]

theorem batches_conform_iff_small :
    ∃ ring, batchInit 4 1 = some (some ring) ∧ Conforms 1 3 ring [] fittingCalls := by
  apply (batches_conform_iff (k := 2) (by decide) (le_refl 1) (by decide) 0 fittingCalls ?_).mpr
  · refine ⟨by decide, ?_⟩
    intro ring hring
    rw [batchInit_eq (le_refl 1) (by decide), if_pos (by decide)] at hring
    cases hring
    with_unfolding_all decide
  · simp [fittingCalls, batchOk]

/-- The ring has one place left and accepts three elements, over the oldest one. -/
def overwritingCalls : List (BatchCall ℕ) := [.push [1, 2], .pop 2, .push [3, 4], .push [5, 6, 7]]

theorem batch_overwrites :
    ¬ ∃ ring, batchInit 4 1 = some (some ring) ∧ Conforms 1 3 ring [] overwritingCalls := by
  rintro ⟨ring, hring, hconforms⟩
  change batchInit (2 ^ 2) 1 = _ at hring
  rw [batchInit_eq (le_refl 1) (by decide), if_pos (by decide)] at hring
  cases hring
  have hok : ∀ call ∈ overwritingCalls, batchOk call := by simp [overwritingCalls, batchOk]
  have hfits := (conforms_iff (HoldsCounted.init (by decide) (le_refl 1) (by decide)) 0 rfl hok).mp
    hconforms
  exact absurd hfits (by with_unfolding_all decide)

end CPractice.Ring
