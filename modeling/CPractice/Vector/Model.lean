import CPractice.Math.PowerOfTwo
import CPractice.Memory

/-!
# The vector of `lisk_vector.c`

A vector is a block of bytes with `number` elements of `length` bytes each at its front.  All sizes are
`u4` and wrap.  Memory outside of the vector (a source array, the temporary buffer of
`lisk_vector_reverse`) is a list of its own; a copy that leaves one of the blocks is `none`.  What the
system does with a request for memory is an argument of the functions that make one.
-/

namespace CPractice.Vector

open Memory PowerOfTwo

/-! ## The vector -/

/-- `lisk_vector_t`. -/
structure Vect where
  capacity : ℕ
  number : ℕ
  length : ℕ
  data : Option Bytes

/-- `lisk_vector_init`: the value returned, with the vector if that is zero. -/
def init (number length : ℕ) (grant : Grant) : ℤ × Option Vect :=
  if number = 0 ∨ length = 0 then (-1, none)
  else
    let capacity := roundUp (u4 (number * length))
    match malloc capacity grant with
    | none => (-2, none)
    | some block => (0, some ⟨capacity, 0, length, some block⟩)

/-- `lisk_vector_uninit`. -/
def uninit (vect : Vect) : Vect := if vect.data.isSome then ⟨0, 0, 0, none⟩ else vect

/-- `lisk_vector_realloc`.  `REALLOC` stores its result before that is tested. -/
def vectRealloc (vect : Vect) (number : ℕ) (grant : Grant) : ℤ × Vect :=
  if vect.capacity = 0 then (-1, vect)
  else if number = 0 then (0, uninit vect)
  else
    let vectLen := u4 (vect.length * number)
    match realloc vect.data vectLen grant with
    | none => (-2, { vect with data := none })
    | some block =>
        (0, { vect with
              data := some block
              capacity := vectLen
              number := if number < vect.number then number else vect.number })

/-- The part of `lisk_vector_insert` that makes room. -/
def grow (vect : Vect) (size : ℕ) (grant : Grant) : ℤ × Vect :=
  if vect.capacity < u4 (u4 (vect.number + size) * vect.length) then
    vectRealloc vect (roundUp (u4 (vect.number + size))) grant
  else (0, vect)

/-- The part of `lisk_vector_insert` that moves the elements from the position on. -/
def openGap (vect : Vect) (pos size : ℕ) : Option (ℤ × Option Bytes) :=
  let cursor := u4 (pos * vect.length)
  if pos < vect.number then
    cpyWithin vect.data (cursor + u4 (size * vect.length)) cursor
      (u4 (u4Sub vect.number pos * vect.length))
  else some (0, vect.data)

/-- The part that copies the array, if there is one. -/
def copyArray (vect : Vect) (data : Option Bytes) (pos : ℕ) (array : Option Bytes) (size : ℕ) :
    Option (ℤ × Option Bytes) :=
  match array with
  | some array => cpyInto data (u4 (pos * vect.length)) array (u4 (size * vect.length))
  | none => some (0, data)

def place (vect : Vect) (pos : ℕ) (array : Option Bytes) (size : ℕ) : Option (ℤ × Vect) := do
  let (ret, data) ← openGap vect pos size
  if ret ≠ 0 then some (-2, { vect with data := data })
  else do
    let (ret, data) ← copyArray vect data pos array size
    if ret ≠ 0 then some (-2, { vect with data := data })
    else some (0, { vect with data := data, number := u4 (vect.number + size) })

/-- `lisk_vector_insert` of an array that is not part of the vector. -/
def insert (vect : Vect) (pos : ℕ) (array : Option Bytes) (size : ℕ) (grant : Grant) :
    Option (ℤ × Vect) :=
  if size = 0 ∨ vect.number < pos then some (-1, vect)
  else
    let grown := grow vect size grant
    if grown.1 ≠ 0 then some (-2, grown.2) else place grown.2 pos array size

def pushBack (vect : Vect) (array : Option Bytes) (size : ℕ) (grant : Grant) : Option (ℤ × Vect) :=
  insert vect vect.number array size grant

def clear (vect : Vect) : Vect := { vect with number := 0 }

def assign (vect : Vect) (array : Option Bytes) (size : ℕ) (grant : Grant) : Option (ℤ × Vect) :=
  if size = 0 then some (-1, vect) else pushBack (clear vect) array size grant

/-- `lisk_vector_erase`: the offset of the pointer returned, `none` for `nil`. -/
def erase (vect : Vect) (pos size : ℕ) : Option (Option ℕ × Vect) :=
  if size = 0 then some (none, vect)
  else if vect.number = 0 then some (none, vect)
  else if vect.number ≤ pos ∨ vect.number < u4 (pos + size) ∨ u4 (vect.number * vect.length) = 0 then
    some (none, vect)
  else
    let cpyLen := u4 (u4Sub vect.number (u4 (pos + size)) * vect.length)
    if 0 < cpyLen then do
      let dst := u4 (pos * vect.length)
      let (ret, data) ← cpyWithin vect.data dst (dst + u4 (size * vect.length)) cpyLen
      if ret ≠ 0 then some (none, { vect with data := data })
      else some (some dst, { vect with data := data, number := u4Sub vect.number size })
    else some (none, { vect with number := u4Sub vect.number size })

def popUp (vect : Vect) : Option (Option ℕ × Vect) :=
  if vect.number = 0 then some (none, vect) else erase vect 0 1

def popBack (vect : Vect) : Option (Option ℕ × Vect) :=
  if vect.number = 0 then some (none, vect) else erase vect (u4Sub vect.number 1) 1

/-- `CPY(temp_buf, data + off, len)`: the bytes that are in the buffer afterwards. -/
def cpyOut (data : Option Bytes) (off len tempSize : ℕ) (temp : Bytes) : Option Bytes :=
  if len ≤ 0 then some temp
  else do
    let block ← data
    if off + len ≤ block.length ∧ len ≤ tempSize then some ((block.drop off).take len) else none

/-- The loop of `lisk_vector_reverse`. -/
def reverseLoop (length tempSize : ℕ) : ℕ → ℕ → ℕ → Bytes → Option Bytes → Option (Option Bytes)
  | 0, _, _, _, _ => none
  | turns + 1, lf, rg, temp, data =>
      if lf < rg then do
        let temp ← cpyOut data (u4 (lf * length)) length tempSize temp
        let (_, data) ← cpyWithin data (u4 (lf * length)) (u4 (rg * length)) length
        let (_, data) ← cpyInto data (u4 (rg * length)) temp length
        reverseLoop length tempSize turns (u4 (lf + 1)) (u4Sub rg 1) temp data
      else some data

/-- `lisk_vector_reverse`.  Elements of more than 1024 bytes go through a buffer of their own. -/
def reverse (vect : Vect) (grant : Grant) : Option (ℤ × Vect) :=
  if vect.number = 0 then some (-1, vect)
  else if 1024 < vect.length ∧ (malloc vect.length grant).isNone then some (-2, vect)
  else do
    let tempSize := if 1024 < vect.length then vect.length else 1024
    let data ← reverseLoop vect.length tempSize (vect.number + 1) 0 (u4Sub vect.number 1) [] vect.data
    some (0, { vect with data := data })

/-- What a call returns: a number, a pointer into the vector by its offset, or nothing. -/
inductive Ret
  | code (value : ℤ)
  | pointer (offset : Option ℕ)
  | void

/-- A number other than zero, or `nil`. -/
def Ret.IsError : Ret → Prop
  | .code value => value ≠ 0
  | .pointer offset => offset = none
  | .void => False

end CPractice.Vector
