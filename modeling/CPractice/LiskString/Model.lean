import CPractice.Math.PowerOfTwo
import CPractice.Memory

/-!
# The string object of `lisk_string.c`

A `lisk_string` owns a block of `capacity` bytes with `length` bytes of text and a terminator behind
them.  Its sizes are `u4` and wrap; a write outside of the block is `none`.
-/

namespace CPractice.LiskString

open Memory PowerOfTwo

/-- `lisk_string_t`. -/
structure Text where
  capacity : ℕ
  length : ℕ
  data : Option Bytes

/-- `data[idx] = '\0'`. -/
def terminate (data : Option Bytes) (idx : ℕ) : Option (Option Bytes) := do
  let block ← data
  if idx < block.length then some (some (block.set idx 0)) else none

/-- `lisk_string_init`: the value returned, with the string if that is zero. -/
def init (size : ℕ) (grant : Grant) : Option (ℤ × Option Text) :=
  let capacity := roundUp (if size = 0 then 1 else size)
  match malloc capacity grant with
  | none => some (-2, none)
  | some block => do
      let data ← terminate (some block) 0
      some (0, some ⟨capacity, 0, data⟩)

/-- `lisk_string_uninit`. -/
def uninit (str : Text) : Text := if str.data.isSome then ⟨0, 0, none⟩ else str

/-- `lisk_string_realloc`.  `REALLOC` stores its result before that is tested. -/
def strRealloc (str : Text) (size : ℕ) (grant : Grant) : Option (ℤ × Text) :=
  if size = 0 then some (0, uninit str)
  else if str.capacity = 0 then some (-1, str)
  else
    match realloc str.data size grant with
    | none => some (-2, { str with data := none })
    | some block =>
        if size ≤ str.length then do
          let data ← terminate (some block) (u4Sub size 1)
          some (0, ⟨size, u4Sub size 1, data⟩)
        else some (0, ⟨size, str.length, some block⟩)

/-- The part of `lisk_string_insert` that makes room for a length and a terminator. -/
def grow (str : Text) (capacity : ℕ) (grant : Grant) : Option (ℤ × Text) :=
  if str.capacity < capacity then strRealloc str (roundUp capacity) grant else some (0, str)

/-- The part that moves the text from the position on; `strLen` was read before room was made. -/
def openGap (str : Text) (strLen pos bufLen : ℕ) : Option (ℤ × Option Bytes) :=
  if pos < strLen then cpyWithin str.data (pos + bufLen) pos (u4Sub strLen pos) else some (0, str.data)

/-- The part that fills the gap. -/
def place (str : Text) (strLen pos : ℕ) (buf : Bytes) (bufLen : ℕ) : Option (ℤ × Text) := do
  let (ret, data) ← openGap str strLen pos bufLen
  if ret ≠ 0 then some (-2, { str with data := data })
  else do
    let (ret, data) ← cpyInto data pos buf bufLen
    if ret ≠ 0 then some (-2, { str with data := data })
    else do
      let length := u4 (str.length + bufLen)
      let data ← terminate data length
      some (0, { str with length := length, data := data })

/-- `lisk_string_insert`; `none` for the buffer is `nil`. -/
def insert (str : Text) (pos : ℕ) (buf : Option Bytes) (bufLen : ℕ) (grant : Grant) :
    Option (ℤ × Text) :=
  match buf with
  | none => some (-1, str)
  | some buf =>
      if bufLen = 0 ∨ str.length < pos then some (-1, str)
      else do
        let (ret, grown) ← grow str (u4 (u4 (str.length + bufLen) + 1)) grant
        if ret ≠ 0 then some (-2, grown) else place grown str.length pos buf bufLen

def append (str : Text) (buf : Option Bytes) (bufLen : ℕ) (grant : Grant) : Option (ℤ × Text) :=
  insert str str.length buf bufLen grant

def clear (str : Text) : Option Text :=
  if str.data.isNone then some str
  else do
    let data ← terminate str.data 0
    some { str with length := 0, data := data }

/-- `lisk_string_init_copy`: the value returned, with the string if that is zero.  `none` for the buffer
is `nil`. -/
def initCopy (buffer : Option Bytes) (size : ℕ) (grant : Grant) : Option (ℤ × Option Text) :=
  match buffer with
  | none => some (-1, none)
  | some buffer => do
      let size := if size = 0 then 1 else size
      let (_, made) ← init (u4 (size + 1)) grant
      match made with
      | none => some (-2, none)
      | some str => do
          let (ret, data) ← cpyInto str.data 0 buffer size
          if ret ≠ 0 then some (-2, some (uninit { str with data := data }))
          else do
            let data ← terminate data size
            some (0, some { str with length := size, data := data })

/-- `lisk_string_copy`. -/
def copy (str : Text) (buf : Option Bytes) (bufLen : ℕ) (grant : Grant) : Option (ℤ × Text) :=
  match buf with
  | none => some (-1, str)
  | some buf =>
      if bufLen = 0 then some (-1, str)
      else do
        let data ← terminate str.data 0
        append { str with length := 0, data := data } (some buf) bufLen grant

/-- `str[dst] = str[i] ^ str[j]`. -/
def xorInto (str : Bytes) (dst i j : ℕ) : Option Bytes := do
  let a ← str[i]?
  let b ← str[j]?
  some (str.set dst (a ^^^ b))

/-- The three assignments of one turn of `_reverse_str`. -/
def xorSwap (str : Bytes) (first last : ℕ) : Option Bytes := do
  let str ← xorInto str first first last
  let str ← xorInto str last first last
  xorInto str first first last

/-- The loop of `_reverse_str`, with a bound on its turns. -/
def reverseLoop : ℕ → ℕ → ℕ → Bytes → Option Bytes
  | 0, _, _, _ => none
  | turns + 1, first, last, str =>
      if first < last then do
        let str ← xorSwap str first last
        reverseLoop turns (first + 1) (last - 1) str
      else some str

/-- `_reverse_str` of a string that is not `nil`. -/
def reverseStr (str : Bytes) : Option Bytes :=
  if 0 ∉ str then none
  else
    let strlen := (str.takeWhile (· ≠ 0)).length
    if strlen ≤ 1 then some str else reverseLoop strlen 0 (strlen - 1) str

/-- `lisk_string_reverse`. -/
def reverse (str : Text) : Option (ℤ × Text) :=
  if str.capacity = 0 then some (-1, str)
  else
    match str.data with
    | none => some (0, str)
    | some block => do
        let block ← reverseStr block
        some (0, { str with data := some block })

end CPractice.LiskString
