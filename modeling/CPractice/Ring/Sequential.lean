import CPractice.Ring.Slots

/-!
# The ring in sequential use

The eight push and pop bodies, run to completion by one thread at a time.  Each retry loop is given
a number of turns and faults when they are used up, so that a call that returns has ended its loops.
In sequential use one turn is enough: the compare-and-swap sees the value just loaded, and
`max_read_idx` is never behind.

All four types are the same bounded queue: what a list of calls returns is computed by `fifoRun`,
which knows neither the type nor the positions.
-/

namespace CPractice.Ring

open Lib

variable {α : Type} {ring : RingT α} {ty : RingType} {queue : List α}

/-! ## The operations -/

/-- The reservation loop of `mp_ring_push`; `some none` is its full return. -/
def mpReserve : ℕ → RingT α → Option (Option (ℕ × RingT α))
  | 0, _ => none
  | turns + 1, ring =>
      let ridx := ring.readPos
      let widx := ring.writePos
      if isFull ring widx ridx then some none
      else if ring.writePos = widx then some (some (widx, { ring with writePos := u4 (widx + 1) }))
      else mpReserve turns ring

/-- The publication loop of `mp_ring_push`. -/
def mpPublish : ℕ → RingT α → ℕ → Option (RingT α)
  | 0, _, _ => none
  | turns + 1, ring, widx =>
      if ring.maxReadIdx = widx then some { ring with maxReadIdx := u4 (widx + 1) }
      else mpPublish turns ring widx

def mpRingPush (turns : ℕ) (ring : RingT α) (elem : α) : Option (ℤ × RingT α) := do
  let reserved ← mpReserve turns ring
  match reserved with
  | none => some (-2, ring)
  | some (widx, ring) => do
      let ring ← mpPublish turns (copyIn ring (elemOffset ring widx) elem) widx
      some (0, ring)

/-- `sp_mc_ring_push` and `sp_sc_ring_push`, which differ only in how `write_pos` is incremented. -/
def spRingPush (ring : RingT α) (elem : α) : ℤ × RingT α :=
  let ridx := ring.readPos
  let widx := ring.writePos
  if isFull ring widx ridx then (-2, ring)
  else
    let ring := copyIn ring (elemOffset ring widx) elem
    (0, { ring with writePos := u4 (ring.writePos + 1) })

def ringPush (ty : RingType) (turns : ℕ) (ring : RingT α) (elem : α) : Option (ℤ × RingT α) :=
  match ty with
  | .mpMc | .mpSc => mpRingPush turns ring elem
  | .spMc => some (spRingPush ring elem)
  | .spSc => some (spRingPush ring elem)

/-- The loop of `mp_mc_ring_pop` and `sp_mc_ring_pop`; the limit is `max_read_idx` or
`write_pos`. -/
def mcRingPop (ty : RingType) : ℕ → RingT α → Option (ℤ × Option α × RingT α)
  | 0, _ => none
  | turns + 1, ring =>
      let ridx := ring.readPos
      if isEmpty ring ridx (popLimit ty ring) then some (-2, none, ring)
      else
        let elem := ring.cells (elemOffset ring ridx)
        if ring.readPos = ridx then some (0, elem, { ring with readPos := u4 (ridx + 1) })
        else mcRingPop ty turns ring

/-- `mp_sc_ring_pop` and `sp_sc_ring_pop`. -/
def scRingPop (ty : RingType) (ring : RingT α) : ℤ × Option α × RingT α :=
  let ridx := ring.readPos
  if isEmpty ring ridx (popLimit ty ring) then (-2, none, ring)
  else (0, ring.cells (elemOffset ring ridx), { ring with readPos := u4 (ring.readPos + 1) })

def ringPop (ty : RingType) (turns : ℕ) (ring : RingT α) : Option (ℤ × Option α × RingT α) :=
  match ty with
  | .mpMc => mcRingPop .mpMc turns ring
  | .spMc => mcRingPop .spMc turns ring
  | .mpSc => some (scRingPop .mpSc ring)
  | .spSc => some (scRingPop .spSc ring)

def ringSize (ring : RingT α) : ℕ := u4Sub ring.writePos ring.readPos

/-! ## Calls -/

inductive SeqCall (α : Type) where
  | push (elem : α)
  | pop
  | size

/-- What a call returns: a code, an element with its code, or a number. -/
inductive SeqRet (α : Type) where
  | pushed (ret : ℤ)
  | popped (ret : ℤ) (elem : Option α)
  | size (number : ℕ)
  deriving DecidableEq

def seqExec (ty : RingType) (turns : ℕ) (ring : RingT α) :
    SeqCall α → Option (SeqRet α × RingT α)
  | .push elem => (ringPush ty turns ring elem).map fun out ↦ (.pushed out.1, out.2)
  | .pop => (ringPop ty turns ring).map fun out ↦ (.popped out.1 out.2.1, out.2.2)
  | .size => some (.size (ringSize ring), ring)

/-- The ring of one type, its loops given `turns` turns. -/
def seqMachine (ty : RingType) (turns : ℕ) : Machine (RingT α) (SeqCall α) (SeqRet α) where
  init ring := ∃ unitNum unitSize, ringInit unitNum unitSize = some ring
  ok _ _ := True
  exec := seqExec ty turns

/-! ## The bounded queue -/

/-- A call on a queue of at most `capacity` elements. -/
def fifoCall (capacity : ℕ) (queue : List α) : SeqCall α → SeqRet α × List α
  | .push elem =>
      if queue.length < capacity then (.pushed 0, queue ++ [elem]) else (.pushed (-2), queue)
  | .pop =>
      match queue with
      | [] => (.popped (-2) none, [])
      | elem :: rest => (.popped 0 (some elem), rest)
  | .size => (.size queue.length, queue)

/-- The calls and what they return. -/
def fifoRun (capacity : ℕ) (queue : List α) : List (SeqCall α) → List (SeqCall α × SeqRet α)
  | [] => []
  | call :: calls =>
      (call, (fifoCall capacity queue call).1) ::
        fifoRun capacity (fifoCall capacity queue call).2 calls

/-! ## The ring holds a queue -/

/-- The ring holds the queue from the unbounded position `head` on; with several producers
`max_read_idx` has caught up with `write_pos`. -/
structure HoldsAt (ty : RingType) (ring : RingT α) (queue : List α) (head : ℕ) : Prop where
  fits : Fits ring
  read : ring.readPos = u4 head
  write : ring.writePos = u4 (head + queue.length)
  limit : popLimit ty ring = u4 (head + queue.length)
  room : queue.length < ring.unitNum
  cells : ∀ i, i < queue.length → ring.cells (slotOf ring (head + i)) = queue[i]?

namespace HoldsAt

variable {head : ℕ}

theorem isFull_iff (h : HoldsAt ty ring queue head) :
    isFull ring ring.writePos ring.readPos ↔ ¬ queue.length < ring.unitNum - 1 := by
  have hroom := h.room
  rw [h.write, h.read, Ring.isFull_iff h.fits.pow (by omega) (by omega)]
  omega

theorem isEmpty_iff (h : HoldsAt ty ring queue head) :
    isEmpty ring ring.readPos (popLimit ty ring) ↔ queue = [] := by
  have hroom := h.room
  rw [h.read, h.limit, Ring.isEmpty_iff h.fits.pow (by omega) (by omega), ← List.length_eq_zero_iff]
  omega

/-- The ring with an element behind the queue, the counters moved past it. -/
theorem push (h : HoldsAt ty ring queue head) (hspace : queue.length < ring.unitNum - 1)
    {ring' : RingT α} {elem : α} (hnum : ring'.unitNum = ring.unitNum)
    (hsize : ring'.unitSize = ring.unitSize) (hread : ring'.readPos = ring.readPos)
    (hwrite : ring'.writePos = u4 (ring.writePos + 1))
    (hlimit : popLimit ty ring' = u4 (ring.writePos + 1))
    (hcells : ring'.cells = (copyIn ring (elemOffset ring ring.writePos) elem).cells) :
    HoldsAt ty ring' (queue ++ [elem]) head := by
  have hnext : u4 (ring.writePos + 1) = u4 (head + (queue ++ [elem]).length) := by
    rw [h.write, u4_add, List.length_append, List.length_singleton, Nat.add_assoc]
  have hslot : ∀ pos, slotOf ring' pos = slotOf ring pos := by
    intro pos
    rw [slotOf, slotOf, hnum, hsize]
  refine ⟨⟨hnum ▸ h.fits.pow, hsize ▸ h.fits.size_pos, ?_⟩, hread.trans h.read,
    hwrite.trans hnext, hlimit.trans hnext, ?_, ?_⟩
  · rw [hnum, hsize]
    exact h.fits.room
  · rw [hnum, List.length_append, List.length_singleton]
    omega
  · intro i hi
    rw [List.length_append, List.length_singleton] at hi
    rw [hcells, hslot, h.write, h.fits.elemOffset_u4]
    rcases (Nat.lt_succ_iff.mp hi).eq_or_lt with heq | hlt
    · rw [heq, copyIn_self, List.getElem?_append_right (le_refl _), Nat.sub_self]
      rfl
    · rw [copyIn_slot h.fits (by omega) (by omega) (by omega), h.cells i hlt,
        List.getElem?_append_left hlt]

/-- The ring with `read_pos` moved past the first element. -/
theorem pop {elem : α} {rest : List α} (h : HoldsAt ty ring (elem :: rest) head)
    {ring' : RingT α} (hring : ring' = { ring with readPos := u4 (ring.readPos + 1) }) :
    HoldsAt ty ring' rest (head + 1) := by
  subst hring
  have htop : head + (elem :: rest).length = head + 1 + rest.length := by
    rw [List.length_cons]
    omega
  have hroom := h.room
  rw [List.length_cons] at hroom
  refine ⟨⟨h.fits.pow, h.fits.size_pos, h.fits.room⟩, ?_, htop ▸ h.write, ?_, ?_, ?_⟩
  · rw [h.read, u4_add]
  · have hlimit := h.limit
    rw [htop] at hlimit
    rw [← hlimit]
    cases ty with
    | spSc => rfl
    | spMc => rfl
    | mpSc => rfl
    | mpMc => rfl
  · exact Nat.lt_of_succ_lt hroom
  · intro i hi
    have hcell := h.cells (i + 1) (by rw [List.length_cons]; omega)
    rw [List.getElem?_cons_succ, ← Nat.add_assoc, Nat.add_right_comm] at hcell
    exact hcell

theorem front_cell {elem : α} {rest : List α} (h : HoldsAt ty ring (elem :: rest) head) :
    ring.cells (elemOffset ring ring.readPos) = some elem := by
  have hcell := h.cells 0 (by simp)
  rw [h.read, h.fits.elemOffset_u4]
  exact hcell

end HoldsAt

/-! ## One call -/

/-- A call returns what the queue returns and leaves a ring that holds the new queue. -/
def Agrees (ty : RingType) (turns : ℕ) (ring : RingT α) (queue : List α) (call : SeqCall α) : Prop :=
  ∃ ring' head', seqExec ty (turns + 1) ring call =
      some ((fifoCall (ring.unitNum - 1) queue call).1, ring') ∧
    ring'.unitNum = ring.unitNum ∧
    HoldsAt ty ring' (fifoCall (ring.unitNum - 1) queue call).2 head'

section
variable {head : ℕ} (turns : ℕ)

/-- With room left and `max_read_idx` up to date, both loops of `mp_ring_push` end in one turn. -/
theorem mpRingPush_eq (hnot : ¬ isFull ring ring.writePos ring.readPos)
    (hmax : ring.maxReadIdx = ring.writePos) (elem : α) :
    mpRingPush (turns + 1) ring elem =
      some (0, { copyIn ring (elemOffset ring ring.writePos) elem with
        writePos := u4 (ring.writePos + 1), maxReadIdx := u4 (ring.writePos + 1) }) := by
  simp only [mpRingPush, mpReserve, if_neg hnot, if_true, Option.bind_eq_bind, Option.bind_some,
    mpPublish, copyIn, elemOffset, hmax]
  rfl

theorem mpRingPush_full (hfull : isFull ring ring.writePos ring.readPos) (elem : α) :
    mpRingPush (turns + 1) ring elem = some (-2, ring) := by
  simp [mpRingPush, mpReserve, if_pos hfull]

theorem spRingPush_eq (hnot : ¬ isFull ring ring.writePos ring.readPos) (elem : α) :
    spRingPush ring elem = (0, { copyIn ring (elemOffset ring ring.writePos) elem with
      writePos := u4 (ring.writePos + 1) }) := if_neg hnot

theorem ringPush_full (hfull : isFull ring ring.writePos ring.readPos) (elem : α) :
    ringPush ty (turns + 1) ring elem = some (-2, ring) := by
  cases ty with
  | spSc => rw [ringPush, spRingPush, if_pos hfull]
  | spMc => rw [ringPush, spRingPush, if_pos hfull]
  | mpSc => exact mpRingPush_full turns hfull elem
  | mpMc => exact mpRingPush_full turns hfull elem

/-- All four pushes with room left: one element more, behind `write_pos`. -/
theorem ringPush_eq (hnot : ¬ isFull ring ring.writePos ring.readPos)
    (hlimit : popLimit ty ring = ring.writePos) (elem : α) :
    ∃ ring', ringPush ty (turns + 1) ring elem = some (0, ring') ∧
      ring'.unitNum = ring.unitNum ∧ ring'.unitSize = ring.unitSize ∧
      ring'.readPos = ring.readPos ∧ ring'.writePos = u4 (ring.writePos + 1) ∧
      popLimit ty ring' = u4 (ring.writePos + 1) ∧
      ring'.cells = (copyIn ring (elemOffset ring ring.writePos) elem).cells := by
  cases ty with
  | spSc => exact ⟨_, congrArg some (spRingPush_eq hnot elem), rfl, rfl, rfl, rfl, rfl, rfl⟩
  | spMc => exact ⟨_, congrArg some (spRingPush_eq hnot elem), rfl, rfl, rfl, rfl, rfl, rfl⟩
  | mpSc => exact ⟨_, mpRingPush_eq turns hnot hlimit elem, rfl, rfl, rfl, rfl, rfl, rfl⟩
  | mpMc => exact ⟨_, mpRingPush_eq turns hnot hlimit elem, rfl, rfl, rfl, rfl, rfl, rfl⟩

theorem ringPush_space (h : HoldsAt ty ring queue head)
    (hspace : queue.length < ring.unitNum - 1) (elem : α) :
    ∃ ring', ringPush ty (turns + 1) ring elem = some (0, ring') ∧
      ring'.unitNum = ring.unitNum ∧ HoldsAt ty ring' (queue ++ [elem]) head := by
  have hnot : ¬ isFull ring ring.writePos ring.readPos := by
    rw [h.isFull_iff]
    exact not_not.mpr hspace
  rcases ringPush_eq turns hnot (h.limit.trans h.write.symm) elem with
    ⟨ring', hpush, hnum, hsize, hread, hwrite, hlimit, hcells⟩
  exact ⟨ring', hpush, hnum, h.push hspace hnum hsize hread hwrite hlimit hcells⟩

theorem push_agrees (h : HoldsAt ty ring queue head) (elem : α) :
    Agrees ty turns ring queue (.push elem) := by
  unfold Agrees
  by_cases hspace : queue.length < ring.unitNum - 1
  · rcases ringPush_space turns h hspace elem with ⟨ring', hpush, hnum, hholds⟩
    simp only [fifoCall, if_pos hspace]
    refine ⟨ring', head, ?_, hnum, hholds⟩
    rw [seqExec, hpush]
    rfl
  · simp only [fifoCall, if_neg hspace]
    refine ⟨ring, head, ?_, rfl, h⟩
    rw [seqExec, ringPush_full turns (h.isFull_iff.mpr hspace)]
    rfl

/-- All four pops: refused on the empty ring, else the element at `read_pos`. -/
theorem ringPop_eq (ty : RingType) (ring : RingT α) :
    ringPop ty (turns + 1) ring =
      if isEmpty ring ring.readPos (popLimit ty ring) then some (-2, none, ring)
      else some (0, ring.cells (elemOffset ring ring.readPos),
        { ring with readPos := u4 (ring.readPos + 1) }) := by
  cases ty with
  | spSc => exact apply_ite some ..
  | spMc => simp [ringPop, mcRingPop]
  | mpSc => exact apply_ite some ..
  | mpMc => simp [ringPop, mcRingPop]

theorem pop_agrees (h : HoldsAt ty ring queue head) : Agrees ty turns ring queue .pop := by
  have hempty := h.isEmpty_iff
  unfold Agrees
  rw [seqExec, ringPop_eq]
  cases queue with
  | nil =>
      rw [if_pos (hempty.mpr rfl)]
      exact ⟨ring, head, rfl, rfl, h⟩
  | cons elem rest =>
      rw [if_neg (fun hnil ↦ absurd (hempty.mp hnil) (List.cons_ne_nil _ _)), h.front_cell]
      exact ⟨_, head + 1, rfl, rfl, h.pop rfl⟩

theorem size_agrees (h : HoldsAt ty ring queue head) : Agrees ty turns ring queue .size := by
  have hroom := h.room
  have hlt := h.fits.num_lt
  have hsize : ringSize ring = queue.length := by
    rw [ringSize, h.write, h.read]
    unfold u4Sub u4
    omega
  exact ⟨ring, head, by rw [seqExec, hsize]; rfl, rfl, h⟩

theorem call_agrees (h : HoldsAt ty ring queue head) (call : SeqCall α) :
    Agrees ty turns ring queue call := by
  cases call with
  | push elem => exact push_agrees turns h elem
  | pop => exact pop_agrees turns h
  | size => exact size_agrees turns h

/-! ## Runs -/

/-- The run lemma: the calls return what the queue returns, call by call. -/
theorem run_agrees (calls : List (SeqCall α)) (h : HoldsAt ty ring queue head) :
    ∃ ring', (seqMachine ty (turns + 1)).execAll ring calls =
      some (fifoRun (ring.unitNum - 1) queue calls, ring') := by
  induction calls generalizing ring queue head with
  | nil => exact ⟨ring, rfl⟩
  | cons call calls ih =>
      rcases call_agrees turns h call with ⟨ring₁, head₁, hexec, hnum, hholds⟩
      rcases ih hholds with ⟨ring', hrest⟩
      rw [hnum] at hrest
      refine ⟨ring', ?_⟩
      have hcall : (seqMachine ty (turns + 1)).exec ring call =
          some ((fifoCall (ring.unitNum - 1) queue call).1, ring₁) := hexec
      rw [Machine.execAll, hcall, Option.bind_some, hrest]
      rfl

theorem holdsAt_init {k unitSize : ℕ} (hk : k < 32) (hsize : 0 < unitSize)
    (hfits : (2 ^ k - 1) * unitSize < 4294967296) :
    HoldsAt ty (⟨unitSize, 2 ^ k, 0, 0, 0, fun _ ↦ none⟩ : RingT α) [] 0 := by
  have hzero : u4 0 = 0 := u4_of_lt (by decide)
  refine ⟨⟨⟨k, hk, rfl⟩, hsize, hfits⟩, hzero.symm, hzero.symm, ?_, Nat.two_pow_pos k, by simp⟩
  cases ty with
  | spSc => exact hzero.symm
  | spMc => exact hzero.symm
  | mpSc => exact hzero.symm
  | mpMc => exact hzero.symm

end

end CPractice.Ring
