import CPractice.Base
import CPractice.Lib.Refinement

/-!
# A block of the memory pool of `lisk_mem_pool.c`

A block is one allocation cut into chunks.  A chunk starts with a header of two words, `pre` and
`next`; bit 0 of `next` is the free bit, the rest is the address of the following chunk, and the
last chunk ends at `BLOCK_END`.  The payload handed to a user is what follows the header.

Memory is a map from the addresses of 8-byte words to their contents.  An access that is unaligned
or outside the block's data faults.  Sizes are `u4` as in the source: `chunkMemSize` is a pointer
difference and so counts headers (`sizeof(chunk_t)` = 16 bytes), while the requested sizes it is
compared with count bytes.  The ghost field `stores` lists the words the bookkeeping writes.
-/

namespace CPractice.MemPool

open Lib

/-- `UNIT_SIZE`: `sizeof(chunk_t)`, two pointers. -/
def unitSize : ℕ := 16

/-- `MIN_CHUNK_SIZE`. -/
def minChunkSize : ℕ := unitSize * 3

/-- The offset of `data` in `block_t`: two `u4` and two pointers, packed. -/
def dataOffset : ℕ := 24

/-- `ALIGN_SIZE(size, UNIT_SIZE)`: the mask clears the bits below `UNIT_SIZE`. -/
def alignSize (size : ℕ) : ℕ := (size + unitSize - 1) / unitSize * unitSize

/-- `block_t`; `data` is the address of the bytes behind the block's own header. -/
structure BlockT where
  size : ℕ
  free : ℕ
  bottom : ℕ
  data : ℕ
  mem : ℕ → ℕ
  stores : List ℕ

/-- `BLOCK_END(block)`. -/
def blockEnd (b : BlockT) : ℕ := b.data + b.size

/-! ## Memory accesses -/

/-- The word at `a` is aligned and lies in the block. -/
def inBlock (b : BlockT) (a : ℕ) : Prop :=
  b.data ≤ a ∧ a + 8 ≤ blockEnd b ∧ (a - b.data) % 8 = 0

instance (b : BlockT) (a : ℕ) : Decidable (inBlock b a) :=
  inferInstanceAs (Decidable (_ ∧ _))

def loadWord (b : BlockT) (a : ℕ) : Option ℕ :=
  if inBlock b a then some (b.mem a) else none

def writeWord (b : BlockT) (a word : ℕ) : BlockT :=
  { b with mem := Function.update b.mem a word, stores := a :: b.stores }

def storeWord (b : BlockT) (a word : ℕ) : Option BlockT :=
  if inBlock b a then some (writeWord b a word) else none

/-- The address of `chunk->pre`. -/
def preField (chunk : ℕ) : ℕ := chunk

/-- The address of `chunk->next`. -/
def nextField (chunk : ℕ) : ℕ := chunk + 8

/-! ## Chunk headers -/

def getFreebit (b : BlockT) (chunk : ℕ) : Option ℕ := do
  let word ← loadWord b (nextField chunk)
  some (word % 2)

def setFreebit (b : BlockT) (chunk : ℕ) : Option BlockT := do
  let word ← loadWord b (nextField chunk)
  storeWord b (nextField chunk) (word / 2 * 2 + 1)

def clrFreebit (b : BlockT) (chunk : ℕ) : Option BlockT := do
  let word ← loadWord b (nextField chunk)
  storeWord b (nextField chunk) (word / 2 * 2)

def chunkNext (b : BlockT) (chunk : ℕ) : Option ℕ := do
  let word ← loadWord b (nextField chunk)
  some (word / 2 * 2)

/-- `PTR_OFFSET` on two `chunk_p`. -/
def ptrOffset (ptr0 ptr1 : ℕ) : ℕ :=
  if ptr0 < ptr1 then (ptr1 - ptr0) / unitSize else (ptr0 - ptr1) / unitSize

def chunkMemSize (b : BlockT) (chunk : ℕ) : Option ℕ :=
  if chunk = 0 then some 0
  else do
    let next ← chunkNext b chunk
    some (u4 (ptrOffset chunk next))

/-! ## `block_init` -/

/-- The fields of a block of `size` bytes at `data`. -/
def newBlock (size data : ℕ) (mem : ℕ → ℕ) : BlockT :=
  { size := size, free := size, bottom := data, data := data, mem := mem, stores := [] }

/-- One free chunk over the whole block. -/
def formatBlock (b : BlockT) : Option BlockT := do
  let chunk := b.bottom
  let b ← storeWord b (preField chunk) 0
  let b ← storeWord b (nextField chunk) (blockEnd b)
  setFreebit b chunk

/-- `block_init`, with the address `ALLOC` returned (`0` when it failed) and the content `mem` of
the memory there.  A size that `ALIGN_SIZE` wraps to `0` leaves no room for the first header. -/
def blockInit (size addr : ℕ) (mem : ℕ → ℕ) : Option (ℤ × Option BlockT) :=
  if size = 0 then some (-1, none)
  else if addr = 0 then some (-2, none)
  else do
    let b ← formatBlock (newBlock (u4 (alignSize size)) (addr + dataOffset) mem)
    some (0, some b)

/-! ## `block_malloc` -/

/-- The test of the search loop: `cur_chunk` is free and large enough, and smaller than the best
chunk so far. -/
def betterFit (freebit curChunkSize size chunk chunkSize : ℕ) : Prop :=
  freebit ≠ 0 ∧ size ≤ curChunkSize ∧ (chunk = 0 ∨ curChunkSize < chunkSize)

instance (freebit curChunkSize size chunk chunkSize : ℕ) :
    Decidable (betterFit freebit curChunkSize size chunk chunkSize) :=
  inferInstanceAs (Decidable (_ ∧ _))

/-- The best-fit loop of `block_malloc`, from `cur_chunk` with the best chunk so far. -/
def bestFit (b : BlockT) (size : ℕ) : ℕ → ℕ → ℕ → ℕ → Option ℕ
  | 0, _, _, _ => none
  | fuel + 1, curChunk, chunk, chunkSize =>
      if curChunk = blockEnd b then some chunk
      else do
        let curChunkSize ← chunkMemSize b curChunk
        let freebit ← getFreebit b curChunk
        let next ← chunkNext b curChunk
        if betterFit freebit curChunkSize size chunk chunkSize then
          bestFit b size fuel next curChunk curChunkSize
        else bestFit b size fuel next chunk chunkSize

/-- The chunk to return: all of `chunk`, or its last `size` headers' worth. -/
def pickRet (b : BlockT) (chunk size : ℕ) : Option (ℕ × BlockT) := do
  let chunkSize ← chunkMemSize b chunk
  if u4Sub chunkSize size < minChunkSize then some (chunk, b)
  else do
    let next ← chunkNext b chunk
    let ret := next - size * unitSize
    let word ← loadWord b (nextField chunk)
    let b ← storeWord b (nextField ret) word
    some (ret, b)

/-- `if (IS_NEQ(next, block_end)) next->pre = ret`. -/
def setPre (b : BlockT) (next ret : ℕ) : Option BlockT :=
  if next = blockEnd b then some b else storeWord b (preField next) ret

/-- Link a split-off chunk behind the one it was cut from. -/
def linkRet (b : BlockT) (chunk ret : ℕ) : Option BlockT :=
  if chunk = ret then some b
  else do
    let b ← storeWord b (preField ret) chunk
    let next ← chunkNext b chunk
    let b ← setPre b next ret
    let b ← storeWord b (nextField chunk) ret
    setFreebit b chunk

/-- Take `size` out of the free chunk `chunk`. -/
def takeChunk (b : BlockT) (chunk size : ℕ) : Option (ℕ × BlockT) := do
  let (ret, b) ← pickRet b chunk size
  let b ← clrFreebit b ret
  let b ← linkRet b chunk ret
  some (ret + unitSize, { b with free := u4Sub b.free size })

/-- Enough iterations for any chain of chunks in the block. -/
def walkFuel (b : BlockT) : ℕ := b.size / unitSize + 1

def blockMalloc (b : BlockT) (size : ℕ) : Option (ℕ × BlockT) :=
  if size = 0 then some (0, b)
  else
    let size := u4 (size + unitSize)
    if b.free < alignSize size then some (0, b)
    else do
      let size := u4 (alignSize size)
      let chunk ← bestFit b size (walkFuel b) b.bottom 0 0
      if chunk = 0 then some (0, b) else takeChunk b chunk size

/-! ## `block_free` -/

/-- `block->free += size`. -/
def addFree (b : BlockT) (size : ℕ) : BlockT := { b with free := u4 (b.free + size) }

/-- `set_freebit(chunk); block->free += chunk_mem_size(chunk) - UNIT_SIZE`. -/
def releaseChunk (b : BlockT) (chunk : ℕ) : Option BlockT := do
  let b ← setFreebit b chunk
  let chunkSize ← chunkMemSize b chunk
  some (addFree b (u4Sub chunkSize unitSize))

/-- `chunk->next = next->next; block->free += UNIT_SIZE`. -/
def absorb (b : BlockT) (chunk next : ℕ) : Option BlockT := do
  let word ← loadWord b (nextField next)
  let b ← storeWord b (nextField chunk) word
  some (addFree b unitSize)

/-- Merge the released chunk with a free chunk after it. -/
def mergeNext (b : BlockT) (chunk next : ℕ) : Option BlockT :=
  if next = blockEnd b then some b
  else do
    let freebit ← getFreebit b next
    if freebit ≠ 0 then absorb b chunk next else some b

/-- Merge the released chunk into a free chunk before it. -/
def mergePre (b : BlockT) (pre chunk : ℕ) : Option BlockT :=
  if pre = 0 then some b
  else do
    let freebit ← getFreebit b pre
    if freebit ≠ 0 then absorb b pre chunk else some b

def blockFree (b : BlockT) (ptr : ℕ) : Option (ℤ × BlockT) :=
  if ptr = 0 then some (-1, b)
  else if ptr ≤ b.data ∨ blockEnd b ≤ ptr then some (-1, b)
  else do
    let chunk := ptr - unitSize
    let b ← releaseChunk b chunk
    let next ← chunkNext b chunk
    let b ← mergeNext b chunk next
    let pre ← loadWord b (preField chunk)
    let b ← mergePre b pre chunk
    some (0, b)

/-- The walk of `print_block_chunk`: the chunks from `chunk` to `BLOCK_END`. -/
def chunksFrom (b : BlockT) : ℕ → ℕ → Option (List ℕ)
  | 0, _ => none
  | fuel + 1, chunk =>
      if chunk = blockEnd b then some []
      else do
        let next ← chunkNext b chunk
        let rest ← chunksFrom b fuel next
        some (chunk :: rest)

/-- The chunks reached from `bottom`. -/
def blockChunks (b : BlockT) : Option (List ℕ) := chunksFrom b (walkFuel b) b.bottom

/-! ## Runs of a block and its users -/

/-- A block with its live allocations: the pointer handed out and the size asked for. -/
structure Heap where
  block : BlockT
  live : ℕ → Option ℕ

inductive Call where
  | malloc (size : ℕ)
  | free (ptr : ℕ)
  | write (addr word : ℕ)
  deriving DecidableEq

inductive Ret where
  | ptr (p : ℕ)
  | code (n : ℤ)
  | done
  deriving DecidableEq

/-- A user may store any word inside a live allocation. -/
def userMay (h : Heap) (addr : ℕ) : Prop :=
  (addr - h.block.data) % 8 = 0 ∧ ∃ ptr ≤ addr, ∃ size ∈ h.live ptr, addr < ptr + size

instance (h : Heap) (addr : ℕ) : Decidable (userMay h addr) :=
  inferInstanceAs (Decidable (_ ∧ _))

/-- Sizes are positive and below the block size, pointers passed to `block_free` are live. -/
def callOk (h : Heap) : Call → Prop
  | .malloc size => 0 < size ∧ size < h.block.size
  | .free ptr => (h.live ptr).isSome
  | .write addr _ => userMay h addr

instance (h : Heap) : (call : Call) → Decidable (callOk h call)
  | .malloc _ => inferInstanceAs (Decidable (_ ∧ _))
  | .free _ => inferInstanceAs (Decidable (_ = true))
  | .write addr _ => inferInstanceAs (Decidable (userMay h addr))

/-- The block before a call, with no store yet. -/
def fresh (b : BlockT) : BlockT := { b with stores := [] }

/-- The live allocations after `block_malloc` returned `ptr`. -/
def granted (live : ℕ → Option ℕ) (ptr size : ℕ) : ℕ → Option ℕ :=
  if ptr = 0 then live else Function.update live ptr (some size)

def callExec (h : Heap) : Call → Option (Ret × Heap)
  | .malloc size => do
      let (ptr, block) ← blockMalloc (fresh h.block) size
      some (.ptr ptr, { block := block, live := granted h.live ptr size })
  | .free ptr => do
      let (ret, block) ← blockFree (fresh h.block) ptr
      some (.code ret, { block := block, live := Function.update h.live ptr none })
  | .write addr word =>
      some (.done, { h with
        block := { h.block with mem := Function.update h.block.mem addr word, stores := [] } })

/-- A block straight from `block_init`, at an address aligned as `ALLOC` aligns it. -/
def fromInit (h : Heap) : Prop :=
  (∃ size addr mem, addr % 8 = 0 ∧ blockInit size addr mem = some (0, some h.block)) ∧
    h.live = fun _ ↦ none

/-- Every run of `block_malloc`, `block_free` and users writing their payloads. -/
def blockMachine : Machine Heap Call Ret where
  init := fromInit
  ok := callOk
  exec := callExec

instance (h : Heap) (call : Call) : Decidable (blockMachine.ok h call) :=
  inferInstanceAs (Decidable (callOk h call))

end CPractice.MemPool
