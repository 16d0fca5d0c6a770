import CPractice.Ring.Counted

/-!
# The size field of `ring-buffer/ring3`

The ring of `win_lisk` with a field `size` that every push and pop changes where it succeeds.
`sp_sc_ring_pop` increments it where the other pops decrement it, so on a ring with one producer and
one consumer the field is the number of pushes and pops together.  On the other three types it is the
number of elements in the ring.
-/

namespace CPractice.Ring.Ring3

open Lib

variable {α : Type} {ty : RingType} {ring : CountedRing α} {pushed popped : ℕ}

/-! ## The operations -/

/-- A push of the plain ring, with a change of `size` where it succeeds. -/
def countPush (change : ℕ → ℕ) (size : ℕ) (out : ℤ × RingT α) : ℤ × CountedRing α :=
  (out.1, ⟨out.2, if out.1 = 0 then change size else size⟩)

/-- A pop of the plain ring, with a change of `size` where it succeeds. -/
def countPop (change : ℕ → ℕ) (size : ℕ) (out : ℤ × Option α × RingT α) :
    ℤ × Option α × CountedRing α :=
  (out.1, out.2.1, ⟨out.2.2, if out.1 = 0 then change size else size⟩)

/-- `lisk_sync_add(ring->size, 1)` and `ring->size++`. -/
def incSize (size : ℕ) : ℕ := u4 (size + 1)

/-- `lisk_sync_sub(ring->size, 1)`. -/
def decSize (size : ℕ) : ℕ := u4Sub size 1

def mpRingPush (turns : ℕ) (ring : CountedRing α) (elem : α) : Option (ℤ × CountedRing α) :=
  (Ring.mpRingPush turns ring.toRingT elem).map (countPush incSize ring.size)

def spMcRingPush (ring : CountedRing α) (elem : α) : ℤ × CountedRing α :=
  countPush incSize ring.size (spRingPush ring.toRingT elem)

def spScRingPush (ring : CountedRing α) (elem : α) : ℤ × CountedRing α :=
  countPush incSize ring.size (spRingPush ring.toRingT elem)

def ringPush (ty : RingType) (turns : ℕ) (ring : CountedRing α) (elem : α) :
    Option (ℤ × CountedRing α) :=
  match ty with
  | .mpMc | .mpSc => mpRingPush turns ring elem
  | .spMc => some (spMcRingPush ring elem)
  | .spSc => some (spScRingPush ring elem)

def spMcRingPop (turns : ℕ) (ring : CountedRing α) : Option (ℤ × Option α × CountedRing α) :=
  (mcRingPop .spMc turns ring.toRingT).map (countPop decSize ring.size)

def mpMcRingPop (turns : ℕ) (ring : CountedRing α) : Option (ℤ × Option α × CountedRing α) :=
  (mcRingPop .mpMc turns ring.toRingT).map (countPop decSize ring.size)

/-- `sp_sc_ring_pop`, whose last store is `ring->size++`. -/
def spScRingPop (ring : CountedRing α) : ℤ × Option α × CountedRing α :=
  countPop incSize ring.size (scRingPop .spSc ring.toRingT)

def mpScRingPop (ring : CountedRing α) : ℤ × Option α × CountedRing α :=
  countPop decSize ring.size (scRingPop .mpSc ring.toRingT)

def ringPop (ty : RingType) (turns : ℕ) (ring : CountedRing α) :
    Option (ℤ × Option α × CountedRing α) :=
  match ty with
  | .mpMc => mpMcRingPop turns ring
  | .spMc => spMcRingPop turns ring
  | .mpSc => some (mpScRingPop ring)
  | .spSc => some (spScRingPop ring)

def ringSize (ring : CountedRing α) : ℕ := ring.size

/-! ## Runs -/

def exec (ty : RingType) (turns : ℕ) (ring : CountedRing α) :
    SeqCall α → Option (SeqRet α × CountedRing α)
  | .push elem => (ringPush ty turns ring elem).map fun out ↦ (.pushed out.1, out.2)
  | .pop => (ringPop ty turns ring).map fun out ↦ (.popped out.1 out.2.1, out.2.2)
  | .size => some (.size (ringSize ring), ring)

/-- The ring of one type, its loops given `turns` turns. -/
def machine (ty : RingType) (turns : ℕ) :
    Machine (CountedRing α) (SeqCall α) (SeqRet α) where
  init ring := ∃ unitNum unitSize, countedInit unitNum unitSize = some ring
  ok _ _ := True
  exec := exec ty turns

/-- Whether a call put an element into the ring, as a number. -/
def isPush : SeqRet α → ℕ
  | .pushed ret => if ret = 0 then 1 else 0
  | _ => 0

/-- Whether a call took an element out of the ring, as a number. -/
def isPop : SeqRet α → ℕ
  | .popped ret _ => if ret = 0 then 1 else 0
  | _ => 0

/-- The elements pushed in a run. -/
def pushes (log : List (SeqCall α × SeqRet α)) : ℕ := (log.map fun entry ↦ isPush entry.2).sum

/-- The elements popped in a run. -/
def pops (log : List (SeqCall α × SeqRet α)) : ℕ := (log.map fun entry ↦ isPop entry.2).sum

/-- `ring_size` is the number of elements pushed and not popped, and this is what lies between
`read_pos` and `write_pos`. -/
def SizeExact (ring : CountedRing α) (log : List (SeqCall α × SeqRet α)) : Prop :=
  ringSize ring + pops log = pushes log ∧
    u4Sub ring.writePos ring.readPos + pops log = pushes log

/-! ## One call -/

/-- The field for a number of pushes and pops. -/
def sizeOf (ty : RingType) (pushed popped : ℕ) : ℕ :=
  if ty = .spSc then u4 (pushed + popped) else pushed - popped

/-- The positions and the field after so many pushes and pops. -/
structure Counts (ty : RingType) (ring : CountedRing α) (pushed popped : ℕ) : Prop where
  pow : ∃ k < 32, ring.unitNum = 2 ^ k
  write : ring.writePos = u4 pushed
  read : ring.readPos = u4 popped
  limit : popLimit ty ring.toRingT = u4 pushed
  le : popped ≤ pushed
  room : pushed < popped + ring.unitNum
  size : ring.size = sizeOf ty pushed popped

theorem ringPush_eq_map (ty : RingType) (turns : ℕ) (ring : CountedRing α) (elem : α) :
    ringPush ty turns ring elem =
      (Ring.ringPush ty turns ring.toRingT elem).map (countPush incSize ring.size) := by
  cases ty <;> rfl

theorem ringPop_eq_map (ty : RingType) (turns : ℕ) (ring : CountedRing α) :
    ringPop ty turns ring = (Ring.ringPop ty turns ring.toRingT).map
      (countPop (if ty = .spSc then incSize else decSize) ring.size) := by
  cases ty <;> rfl

theorem sizeOf_push (hle : popped ≤ pushed) (hlt : pushed + 1 - popped < 4294967296) :
    incSize (sizeOf ty pushed popped) = sizeOf ty (pushed + 1) popped := by
  unfold incSize sizeOf
  split
  · rw [u4_add, Nat.add_right_comm]
  · rw [← Nat.sub_add_comm hle, u4_of_lt hlt]

theorem sizeOf_pop (hlt : popped < pushed) (hnum : pushed - popped < 4294967296) :
    (if ty = .spSc then incSize else decSize) (sizeOf ty pushed popped) =
      sizeOf ty pushed (popped + 1) := by
  unfold sizeOf
  split
  · rw [incSize, u4_add, Nat.add_assoc]
  · rw [decSize, u4Sub_of_le (by omega) hnum, Nat.sub_sub]

namespace Counts

theorem num_le (h : Counts ty ring pushed popped) : ring.unitNum ≤ 2147483648 := by
  rcases h.pow with ⟨k, hk, hnum⟩
  rw [hnum]
  exact Nat.pow_le_pow_right (by decide) (Nat.le_of_lt_succ hk)

/-- A push keeps the account. -/
theorem push (h : Counts ty ring pushed popped) (turns : ℕ) (elem : α) :
    ∃ r ring', exec ty (turns + 1) ring (.push elem) = some (r, ring') ∧
      Counts ty ring' (pushed + isPush r) (popped + isPop r) := by
  have hroom := h.room
  have hnum := h.num_le
  have hle := h.le
  by_cases hfull : isFull ring.toRingT ring.writePos ring.readPos
  · refine ⟨.pushed (-2), ring, ?_, by simpa [isPush, isPop] using h⟩
    rw [exec, ringPush_eq_map, Ring.ringPush_full turns hfull]
    rfl
  · have hlimit : popLimit ty ring.toRingT = ring.writePos := h.limit.trans h.write.symm
    rcases Ring.ringPush_eq turns hfull hlimit elem with
      ⟨base, hpush, hbase, -, hread, hwrite, hlimit', -⟩
    rw [h.write, h.read, isFull_iff h.pow h.le (by omega)] at hfull
    have hnext : u4 (ring.writePos + 1) = u4 (pushed + 1) := by rw [h.write, u4_add]
    refine ⟨.pushed 0, ⟨base, incSize ring.size⟩, ?_, ?_⟩
    · rw [exec, ringPush_eq_map, hpush]
      rfl
    · have hcounts : Counts ty ⟨base, incSize ring.size⟩ (pushed + 1) popped := by
        refine ⟨hbase ▸ h.pow, hwrite.trans hnext, hread.trans h.read, hlimit'.trans hnext, ?_, ?_, ?_⟩
        · omega
        · change pushed + 1 < popped + base.unitNum
          omega
        · rw [h.size]
          exact sizeOf_push hle (by omega)
      simpa [isPush, isPop] using hcounts

/-- A pop keeps the account. -/
theorem pop (h : Counts ty ring pushed popped) (turns : ℕ) :
    ∃ r ring', exec ty (turns + 1) ring .pop = some (r, ring') ∧
      Counts ty ring' (pushed + isPush r) (popped + isPop r) := by
  have hroom := h.room
  have hnum := h.num_le
  have hle := h.le
  have hempty : isEmpty ring.toRingT ring.readPos (popLimit ty ring.toRingT) ↔ pushed = popped := by
    rw [h.read, h.limit, isEmpty_iff h.pow h.le h.room]
  rw [exec, ringPop_eq_map, Ring.ringPop_eq]
  by_cases hnone : pushed = popped
  · rw [if_pos (hempty.mpr hnone)]
    exact ⟨.popped (-2) none, ring, rfl, by simpa [isPush, isPop] using h⟩
  · rw [if_neg (hempty.not.mpr hnone)]
    refine ⟨.popped 0 _, _, rfl, ?_⟩
    have hcounts : Counts ty ⟨{ ring.toRingT with readPos := u4 (ring.readPos + 1) },
        (if ty = .spSc then incSize else decSize) ring.size⟩ pushed (popped + 1) := by
      refine ⟨h.pow, h.write, ?_, ?_, ?_, ?_, ?_⟩
      · change u4 (ring.readPos + 1) = u4 (popped + 1)
        rw [h.read, u4_add]
      · rw [← h.limit]
        cases ty <;> rfl
      · omega
      · change pushed < popped + 1 + ring.unitNum
        omega
      · rw [h.size]
        exact sizeOf_pop (by omega) (by omega)
    simpa [isPush, isPop, countPop] using hcounts

theorem call (h : Counts ty ring pushed popped) (turns : ℕ) (c : SeqCall α) :
    ∃ r ring', exec ty (turns + 1) ring c = some (r, ring') ∧
      Counts ty ring' (pushed + isPush r) (popped + isPop r) := by
  cases c with
  | push elem => exact h.push turns elem
  | pop => exact h.pop turns
  | size => exact ⟨_, ring, rfl, h⟩

/-- A run keeps the account. -/
theorem run (h : Counts ty ring pushed popped) (turns : ℕ) (calls : List (SeqCall α)) :
    ∃ log ring', (machine ty (turns + 1)).execAll ring calls = some (log, ring') ∧
      Counts ty ring' (pushed + pushes log) (popped + pops log) := by
  induction calls generalizing ring pushed popped with
  | nil => exact ⟨[], ring, rfl, h⟩
  | cons c calls ih =>
      rcases h.call turns c with ⟨r, ring₁, hcall, h₁⟩
      rcases ih h₁ with ⟨log, ring₂, hrest, h₂⟩
      refine ⟨(c, r) :: log, ring₂, ?_, ?_⟩
      · rw [Machine.execAll, show (machine ty (turns + 1)).exec ring c = _ from hcall,
          Option.bind_some, hrest]
        rfl
      · have hpushed : pushed + pushes ((c, r) :: log) = pushed + isPush r + pushes log := by
          rw [pushes, List.map_cons, List.sum_cons, ← pushes, Nat.add_assoc]
        have hpopped : popped + pops ((c, r) :: log) = popped + isPop r + pops log := by
          rw [pops, List.map_cons, List.sum_cons, ← pops, Nat.add_assoc]
        rw [hpushed, hpopped]
        exact h₂

end Counts

theorem counts_init {unitNum unitSize : ℕ} (hnum : unitNum < 4294967296)
    (hinit : countedInit unitNum unitSize = some ring) : Counts ty ring 0 0 := by
  rcases Option.map_eq_some_iff.mp hinit with ⟨base, hbase, rfl⟩
  rcases ringInit_cases hnum hbase with ⟨⟨k, hk, rfl⟩, -, rfl⟩
  have hzero : 0 = u4 0 := (u4_of_lt (by decide)).symm
  refine ⟨⟨k, hk, rfl⟩, hzero, hzero, ?_, le_rfl, ?_, ?_⟩
  · cases ty <;> exact hzero
  · rw [Nat.zero_add]
    exact Nat.two_pow_pos k
  · unfold sizeOf
    split
    · exact hzero
    · rfl

/-- After any run of pushes and pops on a ring from `ring_init`, `ring_size` is exact on all types but
`RING_SP_SC`, and there only while the number of pops is a multiple of `2^31`. -/
theorem size_exact_iff (ty : RingType) (turns : ℕ) {unitNum unitSize : ℕ}
    (hnum : unitNum < 4294967296) (hinit : countedInit unitNum unitSize = some ring)
    (calls : List (SeqCall α)) :
    ∃ log ring', (machine ty (turns + 1)).execAll ring calls = some (log, ring') ∧
      (SizeExact ring' log ↔ ty ≠ .spSc ∨ 2147483648 ∣ pops log) := by
  rcases (counts_init hnum hinit).run turns calls with ⟨log, ring', hrun, h⟩
  simp only [Nat.zero_add] at h
  refine ⟨log, ring', hrun, ?_⟩
  have hle := h.le
  have hroom := h.room
  have hbound := h.num_le
  have hpositions : u4Sub ring'.writePos ring'.readPos + pops log = pushes log := by
    rw [h.write, h.read]
    unfold u4Sub u4
    omega
  simp only [SizeExact, ringSize, hpositions, and_true, h.size, sizeOf]
  by_cases hty : ty = .spSc
  · rw [if_pos hty]
    unfold u4
    simp only [hty, ne_eq, not_true_eq_false, false_or]
    omega
  · rw [if_neg hty]
    simp only [ne_eq, hty, not_false_eq_true, true_or, iff_true]
    omega

/-- Two pushes and a pop. -/
def threeCalls : List (SeqCall ℕ) := [.push 10, .push 20, .pop]

theorem size_exact_iff_small :
    ∃ log ring', (machine .spMc 1).execAll
        (⟨⟨8, 4, 0, 0, 0, fun _ ↦ none⟩, 0⟩ : CountedRing ℕ) threeCalls = some (log, ring') ∧
      SizeExact ring' log := by
  have hinit : countedInit 4 8 = some (⟨⟨8, 4, 0, 0, 0, fun _ ↦ none⟩, 0⟩ : CountedRing ℕ) := by
    with_unfolding_all rfl
  rcases size_exact_iff .spMc 0 (by decide) hinit threeCalls with ⟨log, ring', hrun, hiff⟩
  exact ⟨log, ring', hrun, hiff.mpr (.inl (by decide))⟩

/-- The same calls on `RING_SP_SC`: one element is left, and `ring_size` is three. -/
theorem size_counts_pops :
    ∃ log ring', (machine .spSc 1).execAll
        (⟨⟨8, 4, 0, 0, 0, fun _ ↦ none⟩, 0⟩ : CountedRing ℕ) threeCalls = some (log, ring') ∧
      pushes log = 2 ∧ pops log = 1 ∧ ringSize ring' = 3 ∧ ¬ SizeExact ring' log := by
  have hrun : ((machine .spSc 1).execAll
      (⟨⟨8, 4, 0, 0, 0, fun _ ↦ none⟩, 0⟩ : CountedRing ℕ) threeCalls).isSome := by
    with_unfolding_all decide
  refine ⟨_, _, (Option.some_get hrun).symm, by with_unfolding_all decide,
    by with_unfolding_all decide, by with_unfolding_all decide, ?_⟩
  rintro ⟨hsize, -⟩
  exact absurd hsize (by with_unfolding_all decide)

end CPractice.Ring.Ring3
