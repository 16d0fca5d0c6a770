import CPractice.Base
import CPractice.Lib.Refinement

/-!
# The block deque of `lisk_deque.c`

A deque is an array `map` of block pointers; the elements lie in the blocks from `start.index` to
`end.index`, the first at unit `start.cur` of its block and the last just before unit `end.cur`.
Pushing over a block boundary allocates a block, and `dequeUpdateMap` recentres the map, doubling
it when at least half of it is used.

Memory is explicit.  A map slot is `none` until a block pointer is stored there, a block is in
`blocks` from its allocation to its release, and the units of a fresh block are `none`.  A read of
such a slot, an index past the array, or an access past a block's bytes makes the call fault.  The
outcome of each allocation is an argument of the push: whether the larger map was granted, and the
address of the new block (`0` when `ALLOC` fails).  All offset arithmetic is the source's, on `u4`.
-/

namespace CPractice.Deque

/-- `sizeof(block_t)`: one pointer. -/
def sizeofBlock : ℕ := 8

/-- The `start` and `end` cursors. -/
structure Cursor where
  index : ℕ
  cur : ℕ
  deriving DecidableEq

/-- An allocated block: its size in bytes and, by byte offset, the units stored so far. -/
structure Block (α : Type) where
  bytes : ℕ
  data : ℕ → Option α

/-- `deque_t`, with the map array (`map`, `mapBytes` as allocated) and the heap of blocks. -/
structure DequeT (α : Type) where
  map : ℕ → Option ℕ
  mapBytes : ℕ
  mapSize : ℕ
  start : Cursor
  stop : Cursor
  unitNum : ℕ
  unitSize : ℕ
  blocks : ℕ → Option (Block α)

/-- An element pointer: the block and the byte offset in it. -/
abbrev ElemPtr := ℕ × ℕ

variable {α : Type}

/-! ## Memory accesses -/

/-- `deque->map[index]` lies inside the array. -/
def inMap (d : DequeT α) (index : ℕ) : Prop :=
  index < d.mapSize ∧ (index + 1) * sizeofBlock ≤ d.mapBytes

instance (d : DequeT α) (index : ℕ) : Decidable (inMap d index) :=
  inferInstanceAs (Decidable (_ ∧ _))

/-- A read of `deque->map[index].data`. -/
def mapData (d : DequeT α) (index : ℕ) : Option ℕ :=
  if inMap d index then d.map index else none

/-- A store to `deque->map[index].data`. -/
def setMapData (d : DequeT α) (index block : ℕ) : Option (DequeT α) :=
  if inMap d index then some { d with map := Function.update d.map index (some block) } else none

/-- `CPY(ELEM_PTR(vp, block, offset), elem, unit_size)`. -/
def storeUnit (d : DequeT α) (ptr : ElemPtr) (elem : α) : Option (DequeT α) := do
  let b ← d.blocks ptr.1
  if ptr.2 + d.unitSize ≤ b.bytes then
    let b := { b with data := Function.update b.data ptr.2 (some elem) }
    some { d with blocks := Function.update d.blocks ptr.1 (some b) }
  else none

/-- `CPY(elem, ELEM_PTR(vp, block, offset), unit_size)`. -/
def loadUnit (d : DequeT α) (ptr : ElemPtr) : Option α := do
  let b ← d.blocks ptr.1
  if ptr.2 + d.unitSize ≤ b.bytes then b.data ptr.2 else none

/-- `ALLOC` of a block: the address holds `bytes` uninitialised bytes. -/
def allocBlock (d : DequeT α) (block bytes : ℕ) : DequeT α :=
  { d with blocks := Function.update d.blocks block (some ⟨bytes, fun _ ↦ none⟩) }

/-- The memory without `block`, whose slot is set to nil. -/
def release (d : DequeT α) (index block : ℕ) : DequeT α :=
  { d with
    blocks := Function.update d.blocks block none
    map := Function.update d.map index none }

/-- `DEALLOC(block->data)`: only an allocated block can be released. -/
def freeBlock (d : DequeT α) (index block : ℕ) : Option (DequeT α) :=
  if (d.blocks block).isSome then some (release d index block) else none

/-- `CPY` of `num` slots from `source + src` to `target + dst`. -/
def copySlots (target source : ℕ → Option ℕ) (dst src num : ℕ) : ℕ → Option ℕ :=
  fun i ↦ if dst ≤ i ∧ i < dst + num then source (src + (i - dst)) else target i

/-- `copy_data` on maps of the given sizes.  The length in bytes is cut to `u4`, and a copy of length
zero touches neither map. -/
def copyData (target source : ℕ → Option ℕ) (targetBytes sourceBytes dst src num : ℕ) :
    Option (ℕ → Option ℕ) :=
  let len := u4 (num * sizeofBlock)
  if len = 0 then some target
  else if dst * sizeofBlock + len ≤ targetBytes ∧ src * sizeofBlock + len ≤ sourceBytes then
    some (copySlots target source dst src (len / sizeofBlock))
  else none

/-- `copy_data` within one map: slots that stay where they are are not touched. -/
def moveData (map : ℕ → Option ℕ) (mapBytes dst src num : ℕ) : Option (ℕ → Option ℕ) :=
  if dst = src then some map else copyData map map mapBytes mapBytes dst src num

/-! ## The operations -/

/-- `_deque_init` with its allocations granted, the first block at `block`; `none` stands for the
`-1` of an illegal parameter. -/
def dequeInit (unitSize mapSize blockSize block : ℕ) : Option (DequeT α) :=
  if unitSize = 0 ∨ mapSize = 0 ∨ blockSize < unitSize then none
  else
    let start : Cursor := ⟨mapSize / 2, 0⟩
    let unitNum := blockSize / unitSize
    let d : DequeT α :=
      { map := fun _ ↦ none
        mapBytes := u4 (mapSize * sizeofBlock)
        mapSize := mapSize
        start := start
        stop := start
        unitNum := unitNum
        unitSize := unitSize
        blocks := fun _ ↦ none }
    setMapData (allocBlock d block (u4 (unitNum * unitSize))) start.index block

/-- `deque_update_map`; `granted` is the outcome of the allocation in its second branch. -/
def dequeUpdateMap (d : DequeT α) (granted : Bool) : Option (ℤ × DequeT α) :=
  let num := u4 (u4Sub d.stop.index d.start.index + 1)
  if u4 (num * 2) < d.mapSize then do
    let pos := u4Sub d.mapSize num / 2
    let map ← moveData d.map d.mapBytes pos d.start.index num
    some (0, { d with
      map := map
      start := { d.start with index := pos }
      stop := { d.stop with index := u4Sub (u4 (pos + num)) 1 } })
  else if granted then do
    let mapBytes := u4 (u4 (d.mapSize * 2) * sizeofBlock)
    let pos := u4Sub d.mapSize (num / 2)
    let map ← copyData (fun _ ↦ none) d.map mapBytes d.mapBytes pos d.start.index num
    some (0, { d with
      map := map
      mapBytes := mapBytes
      mapSize := u4 (d.mapSize * 2)
      start := { d.start with index := pos }
      stop := { d.stop with index := u4Sub (u4 (pos + num)) 1 } })
  else some (-2, d)

/-- The test for the empty deque made by `deque_front`, `deque_back` and both pops. -/
def isNil (d : DequeT α) : Prop :=
  d.start.index = d.stop.index ∧ d.start.cur = d.stop.cur

instance (d : DequeT α) : Decidable (isNil d) := inferInstanceAs (Decidable (_ ∧ _))

/-- `deque_empty`. -/
def dequeEmpty (d : DequeT α) : ℤ :=
  if d.start.index ≠ d.stop.index ∨ d.start.cur ≠ d.stop.cur then -2 else 0

/-- `deque_size`.  Within one block it subtracts the block indices, not the units. -/
def dequeSize (d : DequeT α) : ℕ :=
  if d.start.index = d.stop.index then u4Sub d.stop.index d.start.index
  else
    u4 (u4 (u4Sub d.unitNum d.start.cur + d.stop.cur) +
      u4 (u4Sub (u4Sub d.stop.index d.start.index) 1 * d.unitNum))

/-- `deque_at`. -/
def dequeAt (d : DequeT α) (pos : ℕ) : Option ElemPtr := do
  let pos := u4 (pos + d.start.cur)
  let block ← mapData d (u4 (d.start.index + pos / d.unitNum))
  some (block, u4 (pos % d.unitNum * d.unitSize))

/-- `deque_front`: the outer `none` is a fault, the inner one the nil pointer. -/
def dequeFront (d : DequeT α) : Option (Option ElemPtr) :=
  if isNil d then some none
  else do
    let block ← mapData d d.start.index
    some (some (block, u4 (d.start.cur * d.unitSize)))

/-- `deque_back`. -/
def dequeBack (d : DequeT α) : Option (Option ElemPtr) :=
  if isNil d then some none
  else if d.stop.cur ≠ 0 then do
    let block ← mapData d d.stop.index
    some (some (block, u4 (u4Sub d.stop.cur 1 * d.unitSize)))
  else do
    let block ← mapData d (u4Sub d.stop.index 1)
    some (some (block, u4 (u4Sub d.unitNum 1 * d.unitSize)))

/-- The relayout that `deque_push_front` makes when `start.index` is zero. -/
def roomFront (d : DequeT α) (granted : Bool) : Option (ℤ × DequeT α) :=
  if d.start.index = 0 then dequeUpdateMap d granted else some (0, d)

/-- The relayout that `deque_push_back` makes when `end.index` is the last slot. -/
def roomBack (d : DequeT α) (granted : Bool) : Option (ℤ × DequeT α) :=
  if d.stop.index = u4Sub d.mapSize 1 then dequeUpdateMap d granted else some (0, d)

/-- `deque_push_front`. -/
def dequePushFront (d : DequeT α) (front : α) (granted : Bool) (ptr : ℕ) :
    Option (ℤ × DequeT α) := do
  if d.start.cur ≠ 0 then
    let d := { d with start := { d.start with cur := u4Sub d.start.cur 1 } }
    let block ← mapData d d.start.index
    let d ← storeUnit d (block, u4 (d.start.cur * d.unitSize)) front
    some (0, d)
  else
    let (ret, d) ← roomFront d granted
    if ret ≠ 0 then some (-2, d)
    else if ptr = 0 then some (-2, d)
    else
      let d := allocBlock d ptr (u4 (d.unitNum * d.unitSize))
      let d := { d with start := { d.start with index := u4Sub d.start.index 1 } }
      let d ← setMapData d d.start.index ptr
      let d := { d with start := { d.start with cur := u4Sub d.unitNum 1 } }
      let d ← storeUnit d (ptr, u4 (d.start.cur * d.unitSize)) front
      some (0, d)

/-- `deque_push_back`: the element is stored first, and taken back by `end.cur--` on failure. -/
def dequePushBack (d : DequeT α) (back : α) (granted : Bool) (ptr : ℕ) :
    Option (ℤ × DequeT α) := do
  let block ← mapData d d.stop.index
  let d ← storeUnit d (block, u4 (d.stop.cur * d.unitSize)) back
  let d := { d with stop := { d.stop with cur := u4 (d.stop.cur + 1) } }
  if d.stop.cur ≠ d.unitNum then some (0, d)
  else
    let (ret, d) ← roomBack d granted
    if ret ≠ 0 then
      some (-2, { d with stop := { d.stop with cur := u4Sub d.stop.cur 1 } })
    else if ptr = 0 then
      some (-2, { d with stop := { d.stop with cur := u4Sub d.stop.cur 1 } })
    else
      let d := allocBlock d ptr (u4 (d.unitNum * d.unitSize))
      let d := { d with stop := { d.stop with index := u4 (d.stop.index + 1) } }
      let d ← setMapData d d.stop.index ptr
      some (0, { d with stop := { d.stop with cur := 0 } })

/-- `deque_pop_front`; the copied element is `none` when the list is empty. -/
def dequePopFront (d : DequeT α) : Option ((ℤ × Option α) × DequeT α) := do
  if isNil d then some ((-1, none), d)
  else
    let block ← mapData d d.start.index
    let elem ← loadUnit d (block, u4 (d.start.cur * d.unitSize))
    let d := { d with start := { d.start with cur := u4 (d.start.cur + 1) } }
    if d.start.cur = d.unitNum then
      let d ← freeBlock d d.start.index block
      some ((0, some elem), { d with start := ⟨u4 (d.start.index + 1), 0⟩ })
    else some ((0, some elem), d)

/-- `deque_pop_back`. -/
def dequePopBack (d : DequeT α) : Option ((ℤ × Option α) × DequeT α) := do
  if isNil d then some ((-1, none), d)
  else
    let block ← mapData d d.stop.index
    if d.stop.cur ≠ 0 then
      let d := { d with stop := { d.stop with cur := u4Sub d.stop.cur 1 } }
      let elem ← loadUnit d (block, u4 (d.stop.cur * d.unitSize))
      some ((0, some elem), d)
    else
      let d ← freeBlock d d.stop.index block
      let d := { d with stop := ⟨u4Sub d.stop.index 1, d.unitNum⟩ }
      let block ← mapData d d.stop.index
      let elem ← loadUnit d (block, u4 (u4Sub d.stop.cur 1 * d.unitSize))
      some ((0, some elem), { d with stop := { d.stop with cur := u4Sub d.stop.cur 1 } })

/-! ## The deque as a machine -/

/-- The calls that change a deque, each with the outcomes of its allocations. -/
inductive Call (α : Type) where
  | pushFront (front : α) (granted : Bool) (ptr : ℕ)
  | pushBack (back : α) (granted : Bool) (ptr : ℕ)
  | popFront
  | popBack

/-- One call: its return value and the element it copied out. -/
def exec (d : DequeT α) : Call α → Option ((ℤ × Option α) × DequeT α)
  | .pushFront front granted ptr =>
      (dequePushFront d front granted ptr).map fun out ↦ ((out.1, none), out.2)
  | .pushBack back granted ptr =>
      (dequePushBack d back granted ptr).map fun out ↦ ((out.1, none), out.2)
  | .popFront => dequePopFront d
  | .popBack => dequePopBack d

end CPractice.Deque
