import CPractice.Base
import CPractice.Lib.Refinement

/-!
# The lock-free ring of `lisk_ring.c`

Producers and consumers run `ring_push` and `ring_pop` on one ring.  A thread is a program counter
with its locals; each load or store of `read_pos`, `write_pos` or `max_read_idx`, each
compare-and-swap and each copy of an element is one atomic step, and the steps of the threads
interleave in any order.  The increments `write_pos++` and `read_pos++` are a load and a store.

The positions are `u4` and wrap.  An element is copied to the byte offset `ring_index(pos) *
unit_size`, computed on `u4` as in the source: the ring's memory `cells` holds the element copied to
an offset as long as no later copy overlaps it, and a read of an overlapped cell gives no element.

Ghost state: `pushed` lists the elements in the order in which `write_pos` passed them, `popped` what
the pops returned in the order of `read_pos`, and `published` counts the steps of `max_read_idx`.  A
consumer remembers in `seen` how many pops had been done when it loaded `read_pos`.
-/

namespace CPractice.Ring

open Lib

/-- `RING_SP_SC`, `RING_SP_MC`, `RING_MP_SC`, `RING_MP_MC`. -/
inductive RingType where
  | spSc
  | spMc
  | mpSc
  | mpMc
  deriving DecidableEq

/-- `ring_t`; `cells` is `data` by byte offset. -/
structure RingT (α : Type) where
  unitSize : ℕ
  unitNum : ℕ
  writePos : ℕ
  readPos : ℕ
  maxReadIdx : ℕ
  cells : ℕ → Option α

variable {α : Type}

/-! ## The ring -/

/-- `ring_init`; `none` stands for the `-1` of an illegal parameter. -/
def ringInit (unitNum unitSize : ℕ) : Option (RingT α) :=
  if unitNum = 0 ∨ unitSize = 0 ∨ unitNum &&& (unitNum - 1) ≠ 0 then none
  else some ⟨unitSize, unitNum, 0, 0, 0, fun _ ↦ none⟩

def ringIndex (count unitNum : ℕ) : ℕ := if unitNum ≠ 0 then count &&& (unitNum - 1) else 0

/-- The offset of an element, `ring_index(pos, unit_num) * unit_size` on `u4`. -/
def elemOffset (ring : RingT α) (pos : ℕ) : ℕ := u4 (ringIndex pos ring.unitNum * ring.unitSize)

/-- The bytes from `a` and from `b` on, `size` each, share a byte. -/
def overlaps (size a b : ℕ) : Prop := a < b + size ∧ b < a + size

instance (size a b : ℕ) : Decidable (overlaps size a b) := inferInstanceAs (Decidable (_ ∧ _))

/-- `CPY(ring->data + offset, elem, unit_size)`. -/
def copyIn (ring : RingT α) (offset : ℕ) (elem : α) : RingT α :=
  { ring with
    cells := fun o ↦ if o = offset then some elem
      else if overlaps ring.unitSize offset o then none else ring.cells o }

/-- The full test of the pushes. -/
def isFull (ring : RingT α) (widx ridx : ℕ) : Prop :=
  ringIndex (u4 (widx + 1)) ring.unitNum = ringIndex ridx ring.unitNum

/-- The empty test of the pops. -/
def isEmpty (ring : RingT α) (ridx limit : ℕ) : Prop :=
  ringIndex ridx ring.unitNum = ringIndex limit ring.unitNum

instance (ring : RingT α) (widx ridx : ℕ) : Decidable (isFull ring widx ridx) :=
  inferInstanceAs (Decidable (_ = _))

instance (ring : RingT α) (ridx limit : ℕ) : Decidable (isEmpty ring ridx limit) :=
  inferInstanceAs (Decidable (_ = _))

/-! ## Threads -/

/-- Where a producer is in a push of `elem`. -/
inductive PushPc (α : Type) where
  | idle
  | start (elem : α)
  | gotRidx (elem : α) (ridx : ℕ)
  | gotWidx (elem : α) (widx : ℕ)
  | reserved (elem : α) (widx place : ℕ)
  | copied (elem : α) (widx place : ℕ)
  | bumping (elem : α) (value : ℕ)

/-- Where a consumer is in a pop. -/
inductive PopPc (α : Type) where
  | idle
  | start
  | gotRidx (ridx seen : ℕ)
  | gotLimit (ridx seen : ℕ)
  | copied (elem : Option α) (ridx seen : ℕ)
  | bumping (elem : Option α) (value : ℕ)

/-- The ring, the threads and the history. -/
structure State (α : Type) where
  ring : RingT α
  producers : ℕ → PushPc α
  consumers : ℕ → PopPc α
  pushed : List α
  popped : List (Option α)
  published : ℕ

def setProducer (s : State α) (p : ℕ) (pc : PushPc α) : State α :=
  { s with producers := Function.update s.producers p pc }

def setConsumer (s : State α) (c : ℕ) (pc : PopPc α) : State α :=
  { s with consumers := Function.update s.consumers c pc }

/-- A store of `write_pos` that puts `elem` behind it. -/
def storeWrite (s : State α) (value : ℕ) (elem : α) : State α :=
  { s with ring := { s.ring with writePos := value }, pushed := s.pushed ++ [elem] }

/-- A store of `read_pos` that takes `elem`. -/
def storeRead (s : State α) (value : ℕ) (elem : Option α) : State α :=
  { s with ring := { s.ring with readPos := value }, popped := s.popped ++ [elem] }

/-- A store of `max_read_idx`. -/
def storeMaxRead (s : State α) (value : ℕ) : State α :=
  { s with ring := { s.ring with maxReadIdx := value }, published := s.published + 1 }

/-- The copy of `elem` into the ring. -/
def copyElem (s : State α) (widx : ℕ) (elem : α) : State α :=
  { s with ring := copyIn s.ring (elemOffset s.ring widx) elem }

/-! ## `ring_push` -/

/-- What the pushes do once `read_pos` and `write_pos` are loaded and the ring is not full:
`mp_ring_push` tries to reserve the place, the others copy at once. -/
def afterLoads (ty : RingType) (s : State α) (p : ℕ) (elem : α) (widx : ℕ) : State α :=
  match ty with
  | .spSc | .spMc =>
      setProducer (copyElem s widx elem) p (.copied elem widx s.pushed.length)
  | .mpSc | .mpMc =>
      if s.ring.writePos = widx then
        setProducer (storeWrite s (u4 (widx + 1)) elem) p (.reserved elem widx s.pushed.length)
      else setProducer s p (.start elem)

/-- What the pushes do after the copy: make the element visible. -/
def afterCopy (ty : RingType) (s : State α) (p : ℕ) (elem : α) (widx place : ℕ) : State α :=
  match ty with
  | .spSc => setProducer s p (.bumping elem s.ring.writePos)
  | .spMc => setProducer (storeWrite s (u4 (s.ring.writePos + 1)) elem) p .idle
  | .mpSc | .mpMc =>
      if s.ring.maxReadIdx = widx then setProducer (storeMaxRead s (u4 (widx + 1))) p .idle
      else setProducer s p (.copied elem widx place)

/-- One step of the producer `p`. -/
def producerStep (ty : RingType) (s : State α) (p : ℕ) : Option (State α) :=
  match s.producers p with
  | .idle => none
  | .start elem => some (setProducer s p (.gotRidx elem s.ring.readPos))
  | .gotRidx elem ridx =>
      if isFull s.ring s.ring.writePos ridx then some (setProducer s p .idle)
      else some (setProducer s p (.gotWidx elem s.ring.writePos))
  | .gotWidx elem widx => some (afterLoads ty s p elem widx)
  | .reserved elem widx place =>
      some (setProducer (copyElem s widx elem) p (.copied elem widx place))
  | .copied elem widx place => some (afterCopy ty s p elem widx place)
  | .bumping elem value => some (setProducer (storeWrite s (u4 (value + 1)) elem) p .idle)

/-! ## `ring_pop` -/

/-- The position a pop compares `read_pos` with. -/
def popLimit (ty : RingType) (ring : RingT α) : ℕ :=
  match ty with
  | .spSc | .spMc => ring.writePos
  | .mpSc | .mpMc => ring.maxReadIdx

/-- What the pops do after the copy: advance `read_pos`. -/
def afterRead (ty : RingType) (s : State α) (c : ℕ) (elem : Option α) (ridx : ℕ) : State α :=
  match ty with
  | .spSc => setConsumer s c (.bumping elem s.ring.readPos)
  | .mpSc => setConsumer (storeRead s (u4 (s.ring.readPos + 1)) elem) c .idle
  | .spMc | .mpMc =>
      if s.ring.readPos = ridx then setConsumer (storeRead s (u4 (ridx + 1)) elem) c .idle
      else setConsumer s c .start

/-- One step of the consumer `c`. -/
def consumerStep (ty : RingType) (s : State α) (c : ℕ) : Option (State α) :=
  match s.consumers c with
  | .idle => none
  | .start => some (setConsumer s c (.gotRidx s.ring.readPos s.popped.length))
  | .gotRidx ridx seen =>
      if isEmpty s.ring ridx (popLimit ty s.ring) then some (setConsumer s c .idle)
      else some (setConsumer s c (.gotLimit ridx seen))
  | .gotLimit ridx seen =>
      some (setConsumer s c (.copied (s.ring.cells (elemOffset s.ring ridx)) ridx seen))
  | .copied elem ridx _ => some (afterRead ty s c elem ridx)
  | .bumping elem value => some (setConsumer (storeRead s (u4 (value + 1)) elem) c .idle)

/-! ## Runs -/

/-- A thread starts a call or makes its next step. -/
inductive Action (α : Type) where
  | push (p : ℕ) (elem : α)
  | producer (p : ℕ)
  | pop (c : ℕ)
  | consumer (c : ℕ)

def step (ty : RingType) (s : State α) : Action α → Option (Unit × State α)
  | .push p elem =>
      match s.producers p with
      | .idle => some ((), setProducer s p (.start elem))
      | _ => none
  | .producer p => (producerStep ty s p).map fun s ↦ ((), s)
  | .pop c =>
      match s.consumers c with
      | .idle => some ((), setConsumer s c .start)
      | _ => none
  | .consumer c => (consumerStep ty s c).map fun s ↦ ((), s)

/-- Single-producer rings have one producer, single-consumer rings one consumer. -/
def allowed (ty : RingType) : Action α → Prop
  | .push p _ | .producer p => ty = .spSc ∨ ty = .spMc → p = 0
  | .pop c | .consumer c => ty = .spSc ∨ ty = .mpSc → c = 0

instance (ty : RingType) : (action : Action α) → Decidable (allowed ty action)
  | .push p _ => inferInstanceAs (Decidable (ty = .spSc ∨ ty = .spMc → p = 0))
  | .producer p => inferInstanceAs (Decidable (ty = .spSc ∨ ty = .spMc → p = 0))
  | .pop c => inferInstanceAs (Decidable (ty = .spSc ∨ ty = .mpSc → c = 0))
  | .consumer c => inferInstanceAs (Decidable (ty = .spSc ∨ ty = .mpSc → c = 0))

/-- Fewer than `2^32` pops pass between the load of `read_pos` and the compare-and-swap. -/
def popSpan (s : State α) : PopPc α → Prop
  | .copied _ _ seen => s.popped.length < seen + 4294967296
  | _ => True

instance (s : State α) : (pc : PopPc α) → Decidable (popSpan s pc)
  | .copied _ _ seen => inferInstanceAs (Decidable (s.popped.length < seen + 4294967296))
  | .idle | .start | .gotRidx _ _ | .gotLimit _ _ | .bumping _ _ => isTrue trivial

/-- No pop spans `2^32` others. -/
def spans (s : State α) : Action α → Prop
  | .consumer c => popSpan s (s.consumers c)
  | _ => True

instance (s : State α) : (action : Action α) → Decidable (spans s action)
  | .consumer c => inferInstanceAs (Decidable (popSpan s (s.consumers c)))
  | .push _ _ | .producer _ | .pop _ => isTrue trivial

/-- A ring straight from `ring_init`, all threads idle. -/
def fromInit (s : State α) : Prop :=
  ∃ unitNum unitSize ring, unitNum < 4294967296 ∧ unitSize < 4294967296 ∧
    ringInit unitNum unitSize = some ring ∧
    s = ⟨ring, fun _ ↦ .idle, fun _ ↦ .idle, [], [], 0⟩

/-- Every interleaving of the threads on a ring of the type. -/
def machine (ty : RingType) : Machine (State α) (Action α) Unit where
  init := fromInit
  ok s action := allowed ty action ∧ spans s action
  exec := step ty

instance (ty : RingType) (s : State α) (action : Action α) :
    Decidable ((machine ty).ok s action) :=
  inferInstanceAs (Decidable (_ ∧ _))

end CPractice.Ring
