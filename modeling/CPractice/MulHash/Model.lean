import CPractice.Base
import CPractice.Lib.Refinement
import CPractice.Math.Prime

/-!
# The multi-row hash of `lisk_mul_hash.c`

Row `i` has `prime[i]` slots, and a key may be stored in any row, in the slot `hash % prime[i]`.  All
slots lie in one shared memory area, `elem_size` bytes apart, and an operation walks the rows with a
running offset.

The area is modelled by byte offset.  `cells root` is what the two headers at `root` say: zeros, an
element, or, where a store went over them from elsewhere, nothing that can be relied on; a read of
such a cell and every access past the end of the area fault.  The hash function is a parameter.
-/

namespace CPractice.MulHash

open Lib Math

/-- `sizeof(key_t) + sizeof(value_t)`. -/
def headerSize : ℕ := 24

/-- `MAX_HASH_ROW`. -/
def maxHashRow : ℕ := 1000

/-- What is at a root: nothing, an element, or bytes of another element. -/
inductive Cell where
  | zero
  | elem (key value : Bytes)
  | torn
  deriving DecidableEq

/-- The bytes of a cell that matter for reading it. -/
def Cell.extent : Cell → ℕ
  | .elem key value => headerSize + key.length + value.length
  | _ => headerSize

/-- `mul_hash_t`, with the bytes behind `data`. -/
structure MulHashT where
  maxKeySize : ℕ
  maxValueSize : ℕ
  prime : List ℕ
  area : ℕ
  cells : ℕ → Cell

/-- `elem_size`, held in a `u4`. -/
def elemSize (maxKeySize maxValueSize : ℕ) : ℕ := u4 (headerSize + maxKeySize + maxValueSize)

/-- `sizeof(shm_t) + sizeof(mul_hash_t) + sizeof(n8) * row`, what stands before `data`. -/
def prologSize (row : ℕ) : ℕ := 280 + 46 + 8 * row

/-- `mul_hash_init`; `some none` is a refusal.  `get_shm` passes the size as a `DWORD`, and an area
of `2 ^ 32` bytes or more is cleared past its end. -/
def mulHashInit (row col maxKeySize maxValueSize : ℕ) : Option (Option MulHashT) :=
  if row ≤ 1 ∨ maxHashRow ≤ row ∨ col < 1 ∨ maxKeySize = 0 ∨ maxValueSize = 0 then some none
  else do
    let primes ← getPrimeArr col row
    if primes.getLastD 0 < row then some none
    else do
      let elemNum ← n8 primes.sum
      let shmSize ← n8 (elemNum * elemSize maxKeySize maxValueSize)
      if prologSize row + shmSize.toNat < 4294967296 then
        some (some ⟨maxKeySize, maxValueSize, primes.map Int.toNat, shmSize.toNat, fun _ ↦ .zero⟩)
      else none

/-! ## The walk over the rows -/

/-- The values of `root` in the loops of the operations. -/
def rootsFrom (size hashKey : ℕ) : List ℕ → ℕ → List ℕ
  | [], _ => []
  | prime :: primes, startPos =>
      u8 (u8 (startPos + hashKey % prime) * size) ::
        rootsFrom size hashKey primes (u8 (startPos + prime))

def MulHashT.roots (mh : MulHashT) (hashKey : ℕ) : List ℕ :=
  rootsFrom (elemSize mh.maxKeySize mh.maxValueSize) hashKey mh.prime 0

/-- A read of the headers at `root`. -/
def readCell (mh : MulHashT) (root : ℕ) : Option Cell :=
  if root + headerSize ≤ mh.area then
    match mh.cells root with
    | .torn => none
    | cell => some cell
  else none

/-- The first root whose cell passes the test. -/
def walk (mh : MulHashT) (stops : Cell → Bool) : List ℕ → Option (Option ℕ)
  | [] => some none
  | root :: roots => do
      let cell ← readCell mh root
      if stops cell then some (some root) else walk mh stops roots

/-- A store of `size` bytes at `root` that leaves `cell` there. -/
def store (mh : MulHashT) (root size : ℕ) (cell : Cell) : Option MulHashT :=
  if root + size ≤ mh.area then
    some { mh with cells := fun other ↦
      if other = root then cell
      else if other < root + size ∧ root < other + (mh.cells other).extent then .torn
      else mh.cells other }
  else none

section
variable (cmp : Bytes → Bytes → ℤ) (hash : Bytes → ℕ)

/-- The test of `mul_hash_insert`: the size of the key is zero. -/
def insertStops : Cell → Bool
  | .elem key _ => key.length = 0
  | _ => true

/-- The test of `mul_hash_find`. -/
def findStops (key : Bytes) : Cell → Bool
  | .elem key' value => value.length ≠ 0 ∧ key'.length = key.length ∧ cmp key' key = 0
  | _ => false

/-- The test of `mul_hash_erase`; the key of an empty slot has another size. -/
def eraseStops (key : Bytes) : Cell → Bool
  | .elem key' _ => key'.length = key.length ∧ cmp key' key = 0
  | _ => false

def mulHashInsert (mh : MulHashT) (key value : Bytes) : Option (ℤ × MulHashT) :=
  if key = [] ∨ value = [] ∨ mh.maxKeySize < key.length ∨ mh.maxValueSize < value.length then
    some (-1, mh)
  else do
    let root ← walk mh insertStops (mh.roots (hash key))
    match root with
    | none => some (-2, mh)
    | some root => do
        let mh ← store mh root (headerSize + key.length + value.length) (.elem key value)
        some (0, mh)

/-- `mul_hash_find`, with the value read through the pointer it returns. -/
def mulHashFind (mh : MulHashT) (key : Bytes) : Option (ℤ × Option Bytes) :=
  if key = [] then some (-1, none)
  else do
    let root ← walk mh (findStops cmp key) (mh.roots (hash key))
    match root with
    | none => some (-2, none)
    | some root =>
        match mh.cells root with
        | .elem _ value => some (0, some value)
        | _ => none

/-- What clearing `size` bytes leaves at a root. -/
def clearedCell (size : ℕ) : Cell := if headerSize ≤ size then .zero else .torn

def mulHashErase (mh : MulHashT) (key : Bytes) : Option (ℤ × MulHashT) :=
  if key = [] then some (-1, mh)
  else do
    let root ← walk mh (eraseStops cmp key) (mh.roots (hash key))
    match root with
    | none => some (-2, mh)
    | some root => do
        let size := elemSize mh.maxKeySize mh.maxValueSize
        let mh ← store mh root size (clearedCell size)
        some (0, mh)

/-! ## Calls -/

inductive Call where
  | insert (key value : Bytes)
  | find (key : Bytes)
  | erase (key : Bytes)
  deriving DecidableEq

inductive Ret where
  | code (ret : ℤ)
  | found (ret : ℤ) (value : Option Bytes)
  deriving DecidableEq

def callExec (mh : MulHashT) : Call → Option (Ret × MulHashT)
  | .insert key value => (mulHashInsert hash mh key value).map fun out ↦ (.code out.1, out.2)
  | .find key => (mulHashFind cmp hash mh key).map fun out ↦ (.found out.1 out.2, mh)
  | .erase key => (mulHashErase cmp hash mh key).map fun out ↦ (.code out.1, out.2)

end

/-- A table straight from `mul_hash_init` with parameters of their types. -/
def fromInit (mh : MulHashT) : Prop :=
  ∃ row col maxKeySize maxValueSize, maxKeySize < 65536 ∧ maxValueSize < 4294967296 ∧
    mulHashInit row col maxKeySize maxValueSize = some (some mh)

def machine (cmp : Bytes → Bytes → ℤ) (hash : Bytes → ℕ) : Machine MulHashT Call Ret where
  init := fromInit
  ok _ _ := True
  exec := callExec cmp hash

end CPractice.MulHash
