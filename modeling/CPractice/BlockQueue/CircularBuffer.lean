import CPractice.Base
import Mathlib.Data.Nat.ModEq

/-!
# `circular_buffer` of `bounded_queue.h`

An array of `capacity_` elements with a read and a write position.  The buffer is empty where the two are
equal and full where the write position is one behind the read position, so one element of the array is
never in use.  `buffer_` holds nothing that can be read until it is stored.
-/

namespace CPractice.BlockQueue

structure CircularBuffer (α : Type) where
  buffer : ℕ → Option α
  capacity : ℕ
  readPos : ℕ
  writePos : ℕ

variable {α : Type}

/-- `circular_buffer(size_t capacity)`: `none` is an exception, thrown for zero, and by `new T[capacity]`
for more elements than an array can have. -/
def circularBuffer (α : Type) (capacity : ℕ) : Option (CircularBuffer α) :=
  if capacity < 1 then none
  else if 9223372036854775808 ≤ capacity then none
  else some ⟨fun _ ↦ none, capacity, 0, 0⟩

namespace CircularBuffer

def size (b : CircularBuffer α) : ℕ := u8Sub (u8 (b.writePos + b.capacity)) b.readPos % b.capacity

def empty (b : CircularBuffer α) : Bool := b.readPos == b.writePos

def full (b : CircularBuffer α) : Bool := u8 (b.writePos + 1) % b.capacity == b.readPos

/-- `push_back`; the store must be in the array. -/
def pushBack (b : CircularBuffer α) (item : α) : Option (Bool × CircularBuffer α) :=
  if b.full then some (false, b)
  else if b.writePos < b.capacity then
    some (true, { b with
      buffer := Function.update b.buffer b.writePos (some item)
      writePos := u8 (b.writePos + 1) % b.capacity })
  else none

/-- `front`; of an empty buffer it is the static element. -/
def front [Inhabited α] (b : CircularBuffer α) : Option α :=
  if b.empty then some default
  else if b.readPos < b.capacity then b.buffer b.readPos
  else none

def popFront (b : CircularBuffer α) : CircularBuffer α :=
  if b.empty then b else { b with readPos := u8 (b.readPos + 1) % b.capacity }

/-! ## The list in the buffer -/

/-- The buffer holds `list`. -/
structure Repr (b : CircularBuffer α) (list : List α) : Prop where
  fits : b.capacity < 9223372036854775808
  read_lt : b.readPos < b.capacity
  room : list.length < b.capacity
  write_eq : b.writePos = (b.readPos + list.length) % b.capacity
  elems : ∀ i (hi : i < list.length), b.buffer ((b.readPos + i) % b.capacity) = some list[i]

variable {b : CircularBuffer α} {list : List α}

theorem mod_eq_wrap {n c : ℕ} (h : n < 2 * c) : n % c = if n < c then n else n - c := by
  split
  · next hlt => exact Nat.mod_eq_of_lt hlt
  · next hge =>
      rw [Nat.mod_eq_sub_mod (by omega)]
      exact Nat.mod_eq_of_lt (by omega)

/-- Positions fewer than a whole turn apart are different. -/
theorem position_inj {c p i j : ℕ} (hi : i < c) (hj : j < c)
    (heq : (p + i) % c = (p + j) % c) : i = j := by
  have h := Nat.ModEq.add_left_cancel' p heq
  rw [Nat.ModEq, Nat.mod_eq_of_lt hi, Nat.mod_eq_of_lt hj] at h
  exact h

theorem repr_circularBuffer {capacity : ℕ} (h : circularBuffer α capacity = some b) :
    Repr b [] ∧ b.capacity = capacity := by
  rw [circularBuffer] at h
  split at h
  · cases h
  · split at h
    · cases h
    · next hpos hlt =>
        cases Option.some.inj h
        have hzero : 0 < capacity := by omega
        exact ⟨⟨Nat.not_le.mp hlt, hzero, hzero, (Nat.zero_mod _).symm, fun i hi ↦ absurd hi (by simp)⟩,
          rfl⟩

namespace Repr

theorem capacity_pos (h : Repr b list) : 0 < b.capacity := Nat.zero_lt_of_lt h.read_lt

theorem write_lt (h : Repr b list) : b.writePos < b.capacity := by
  rw [h.write_eq]
  exact Nat.mod_lt _ h.capacity_pos

theorem next_eq (h : Repr b list) {pos : ℕ} (hpos : pos < b.capacity) : u8 (pos + 1) = pos + 1 := by
  have hfits := h.fits
  exact u8_of_lt (by omega)

theorem empty_iff (h : Repr b list) : b.empty = true ↔ list = [] := by
  have hroom := h.room
  rw [empty, beq_iff_eq, h.write_eq]
  constructor
  · intro heq
    have hzero : (b.readPos + 0) % b.capacity = (b.readPos + list.length) % b.capacity := by
      rw [Nat.add_zero, Nat.mod_eq_of_lt h.read_lt, ← heq]
    exact List.length_eq_zero_iff.mp (position_inj h.capacity_pos hroom hzero).symm
  · rintro rfl
    rw [List.length_nil, Nat.add_zero, Nat.mod_eq_of_lt h.read_lt]

theorem full_iff (h : Repr b list) : b.full = true ↔ list.length + 1 = b.capacity := by
  have hroom := h.room
  have hread := h.read_lt
  rw [full, beq_iff_eq, h.next_eq h.write_lt, h.write_eq, Nat.mod_add_mod, Nat.add_assoc]
  constructor
  · intro heq
    by_contra hne
    have hzero : (b.readPos + (list.length + 1)) % b.capacity = (b.readPos + 0) % b.capacity := by
      rw [heq, Nat.add_zero, Nat.mod_eq_of_lt hread]
    have hinj := position_inj (by omega) h.capacity_pos hzero
    omega
  · intro heq
    rw [heq, Nat.add_mod_right, Nat.mod_eq_of_lt hread]

theorem size_eq (h : Repr b list) : b.size = list.length := by
  have hfits := h.fits
  have hwrite := h.write_lt
  have hread := h.read_lt
  have hroom := h.room
  have hsum : u8Sub (u8 (b.writePos + b.capacity)) b.readPos = b.writePos + b.capacity - b.readPos := by
    rw [u8_of_lt (by omega)]
    exact u8Sub_of_le (by omega) (by omega)
  rw [size, hsum, h.write_eq, mod_eq_wrap (by omega : b.readPos + list.length < 2 * b.capacity)]
  split
  · have heq : b.readPos + list.length + b.capacity - b.readPos = list.length + b.capacity := by omega
    rw [heq, Nat.add_mod_right, Nat.mod_eq_of_lt hroom]
  · have heq : b.readPos + list.length - b.capacity + b.capacity - b.readPos = list.length := by omega
    rw [heq, Nat.mod_eq_of_lt hroom]

theorem pushBack (h : Repr b list) (hfull : b.full = false) (item : α) :
    ∃ b', b.pushBack item = some (true, b') ∧ b'.capacity = b.capacity ∧ Repr b' (list ++ [item]) := by
  have hroom : list.length + 1 < b.capacity := by
    have hne : list.length + 1 ≠ b.capacity := by
      intro heq
      rw [h.full_iff.mpr heq] at hfull
      cases hfull
    have := h.room
    omega
  have hpush : b.pushBack item = some (true, { b with
      buffer := Function.update b.buffer b.writePos (some item)
      writePos := u8 (b.writePos + 1) % b.capacity }) := by
    rw [CircularBuffer.pushBack, if_neg (by simp [hfull]), if_pos h.write_lt]
  refine ⟨_, hpush, rfl, ?_⟩
  constructor
  case fits => exact h.fits
  case read_lt => exact h.read_lt
  case room =>
    rw [List.length_append]
    exact hroom
  case write_eq =>
    rw [h.next_eq h.write_lt, h.write_eq, Nat.mod_add_mod, List.length_append, List.length_singleton,
      Nat.add_assoc]
  case elems =>
    intro i hi
    rw [List.length_append, List.length_singleton] at hi
    dsimp only
    by_cases hlast : i = list.length
    · subst hlast
      rw [← h.write_eq, Function.update_self, List.getElem_concat_length rfl]
    · have hlt : i < list.length := by omega
      rw [List.getElem_append_left hlt, Function.update_of_ne, h.elems i hlt]
      rw [h.write_eq]
      exact fun heq ↦ hlast (position_inj (by omega) (by omega) heq)

theorem front [Inhabited α] {x : α} (h : Repr b (x :: list)) : b.front = some x := by
  have hempty : ¬ b.empty = true := fun he ↦ absurd (h.empty_iff.mp he) (by simp)
  have hhead := h.elems 0 (by simp)
  rw [Nat.add_zero, Nat.mod_eq_of_lt h.read_lt] at hhead
  rw [CircularBuffer.front, if_neg hempty, if_pos h.read_lt, hhead]
  rfl

theorem popFront {x : α} (h : Repr b (x :: list)) : Repr b.popFront list := by
  have hempty : ¬ b.empty = true := fun he ↦ absurd (h.empty_iff.mp he) (by simp)
  have hroom := h.room
  rw [List.length_cons] at hroom
  have hshift : ∀ i, ((b.readPos + 1) % b.capacity + i) % b.capacity =
      (b.readPos + (i + 1)) % b.capacity := by
    intro i
    rw [Nat.mod_add_mod, Nat.add_assoc, Nat.add_comm 1 i]
  rw [CircularBuffer.popFront, if_neg hempty, h.next_eq h.read_lt]
  constructor
  case fits => exact h.fits
  case read_lt => exact Nat.mod_lt _ h.capacity_pos
  case room => exact Nat.lt_of_succ_lt hroom
  case write_eq =>
    dsimp only
    rw [hshift, h.write_eq, List.length_cons]
  case elems =>
    intro i hi
    dsimp only
    rw [hshift, h.elems (i + 1) (by rw [List.length_cons]; omega), List.getElem_cons_succ]

end Repr

@[simp]
theorem popFront_capacity (b : CircularBuffer α) : b.popFront.capacity = b.capacity := by
  rw [popFront]
  split <;> rfl

end CircularBuffer

end CPractice.BlockQueue
