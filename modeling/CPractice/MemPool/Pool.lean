import CPractice.MemPool.Model

/-!
# The pool of `lisk_mem_pool.c`

A pool is a list of blocks of one size.  `mem_pool_alloc` serves a request from the first block of the
list that can, or from a new block in front of the list; a request of a whole block or more goes to the
system, with two words in front of it that `mem_pool_dealloc` recognizes.  A block other than the first
whose `free` is its `size` after a release goes back to the system.

The lists `system` and `returned` are ghosts: the direct allocations that are live, and the blocks that
were given back, as they were then.
-/

namespace CPractice.MemPool

open Lib

/-- `BLOCK_SIZE`. -/
def blockUnit : ℕ := 4096

/-- `SYS_ALLOC_FLAG`. -/
def sysAllocFlag : ℕ := 0xF012F105

/-- `mem_pool_t`; a block comes with its live allocations. -/
structure PoolT where
  blockNum : ℕ
  blockSize : ℕ
  blockList : List Heap
  system : List (ℕ × ℕ)
  returned : List Heap

/-- `mem_pool_init`, with the addresses of the pool and of its first block (`0` when `ALLOC` failed). -/
def memPoolInit (blockSize poolAddr addr : ℕ) (mem : ℕ → ℕ) : Option (ℤ × Option PoolT) :=
  if blockSize = 0 then some (-1, none)
  else if poolAddr = 0 then some (-2, none)
  else do
    let blockSize := u4 (blockSize + blockUnit - 1) / blockUnit * blockUnit
    let (_, block) ← blockInit blockSize addr mem
    match block with
    | none => some (-2, none)
    | some block => some (0, some
        { blockNum := 1
          blockSize := blockSize
          blockList := [⟨block, fun _ ↦ none⟩]
          system := []
          returned := [] })

/-! ## `mem_pool_alloc` -/

/-- `block_malloc` on a block with its live allocations. -/
def heapMalloc (h : Heap) (size : ℕ) : Option (ℕ × Heap) := do
  let (ptr, block) ← blockMalloc h.block size
  some (ptr, ⟨block, granted h.live ptr size⟩)

/-- The branch for a request of a block or more.  Its size is a `u4`: where adding the two words wraps,
`arr[1]` lies outside of what was allocated. -/
def systemAlloc (p : PoolT) (size addr : ℕ) : Option (ℕ × PoolT) :=
  if addr = 0 then some (0, p)
  else if u4 (size + 8) < 8 then none
  else some (addr + 8, { p with system := (addr + 8, u4Sub (u4 (size + 8)) 8) :: p.system })

/-- `if (IS_GT(block->free, size))`, a block in its turn. -/
def tryBlock (h : Heap) (size : ℕ) : Option (ℕ × Heap) :=
  if size < h.block.free then heapMalloc h size else some (0, h)

/-- The loop over the blocks: the pointer from the first that serves the request, `0` if none does. -/
def allocFrom (size : ℕ) : List Heap → Option (ℕ × List Heap)
  | [] => some (0, [])
  | h :: rest => do
      let (ptr, h) ← tryBlock h size
      if ptr ≠ 0 then some (ptr, h :: rest)
      else do
        let (ptr, rest) ← allocFrom size rest
        some (ptr, h :: rest)

/-- The new block is linked before it is known to serve the request. -/
def allocNew (p : PoolT) (size addr : ℕ) (mem : ℕ → ℕ) : Option (ℕ × PoolT) := do
  let (_, block) ← blockInit p.blockSize addr mem
  match block with
  | none => some (0, p)
  | some block => do
      let (ptr, h) ← heapMalloc ⟨block, fun _ ↦ none⟩ size
      some (ptr, { p with blockList := h :: p.blockList, blockNum := u4 (p.blockNum + 1) })

/-- `mem_pool_alloc`; `addr` and `mem` are what the system returns if it is asked. -/
def memPoolAlloc (p : PoolT) (size addr : ℕ) (mem : ℕ → ℕ) : Option (ℕ × PoolT) :=
  if size = 0 then some (0, p)
  else if p.blockSize ≤ size then systemAlloc p size addr
  else do
    let (ptr, blocks) ← allocFrom size p.blockList
    if ptr ≠ 0 then some (ptr, { p with blockList := blocks }) else allocNew p size addr mem

/-! ## `mem_pool_dealloc` -/

/-- `block_free` on a block with its live allocations. -/
def heapFree (h : Heap) (ptr : ℕ) : Option (ℤ × Heap) := do
  let (ret, block) ← blockFree h.block ptr
  some (ret, if ret = 0 then ⟨block, Function.update h.live ptr none⟩ else h)

/-- `arr[0]` and `arr[1]`: the words in front of a direct allocation, or the halves of the `next` word
of a chunk. -/
def arrWords (p : PoolT) (ptr : ℕ) : Option (ℕ × ℕ) :=
  match p.system.lookup ptr with
  | some size => some (sysAllocFlag, size)
  | none => do
      let h ← p.blockList.find? fun h ↦ h.block.data < ptr ∧ ptr < blockEnd h.block
      let word ← loadWord h.block (ptr - 8)
      some (u4 word, u4 (word / 4294967296))

/-- The loop over the blocks, with `pre` non-nil behind the first: the last value of `block_free`, the
block that is unlinked, and the list. -/
def deallocFrom (ptr : ℕ) : Bool → ℤ → List Heap → Option (ℤ × Option Heap × List Heap)
  | _, ret, [] => some (ret, none, [])
  | pre, _, h :: rest => do
      let (ret, h) ← heapFree h ptr
      if ret = 0 then
        if h.block.size = h.block.free ∧ pre then some (0, some h, rest)
        else some (0, none, h :: rest)
      else do
        let (ret, gone, rest) ← deallocFrom ptr true ret rest
        some (ret, gone, h :: rest)

/-- `block_uninit` of an unlinked block. -/
def unlink (p : PoolT) (gone : Option Heap) : PoolT :=
  match gone with
  | none => p
  | some h => { p with blockNum := u4Sub p.blockNum 1, returned := h :: p.returned }

def memPoolDealloc (p : PoolT) (ptr : ℕ) : Option (ℤ × PoolT) :=
  if ptr = 0 then some (-1, p)
  else do
    let (arr0, arr1) ← arrWords p ptr
    if arr0 = sysAllocFlag ∧ p.blockSize ≤ arr1 then
      some (0, { p with system := p.system.filter fun entry ↦ entry.1 ≠ ptr })
    else do
      let (ret, gone, blocks) ← deallocFrom ptr false 0 p.blockList
      some (if ret ≠ 0 then -2 else 0, unlink { p with blockList := blocks } gone)

/-! ## Runs of a pool and its users -/

/-- A user stores a word; only the block it lies in sees it. -/
def userStore (addr word : ℕ) (h : Heap) : Heap :=
  if inBlock h.block addr then
    { h with block := { h.block with mem := Function.update h.block.mem addr word } }
  else h

inductive PoolCall where
  | alloc (size addr : ℕ) (mem : ℕ → ℕ)
  | dealloc (ptr : ℕ)
  | write (addr word : ℕ)

def poolExec (p : PoolT) : PoolCall → Option (Ret × PoolT)
  | .alloc size addr mem => do
      let (ptr, p) ← memPoolAlloc p size addr mem
      some (.ptr ptr, p)
  | .dealloc ptr => do
      let (ret, p) ← memPoolDealloc p ptr
      some (.code ret, p)
  | .write addr word => some (.done, { p with blockList := p.blockList.map (userStore addr word) })

/-- The bytes that `mem_pool_alloc` asks the system for, if it does. -/
def askedFor (p : PoolT) (size : ℕ) : ℕ :=
  if p.blockSize ≤ size then u4 (size + 8) else dataOffset + p.blockSize

/-- What `ALLOC` promises: the memory is aligned and apart from all that is in use. -/
def osGrants (p : PoolT) (addr len : ℕ) : Prop :=
  addr % 8 = 0 ∧
    (∀ h ∈ p.blockList, addr + len ≤ h.block.data - dataOffset ∨ blockEnd h.block ≤ addr) ∧
    ∀ entry ∈ p.system, addr + len ≤ entry.1 - 8 ∨ entry.1 + entry.2 ≤ addr

instance (p : PoolT) (addr len : ℕ) : Decidable (osGrants p addr len) :=
  inferInstanceAs (Decidable (_ ∧ _ ∧ _))

/-- The pointer is a live one of a block. -/
def livesIn (p : PoolT) (ptr : ℕ) : Prop := ∃ h ∈ p.blockList, (h.live ptr).isSome

instance (p : PoolT) (ptr : ℕ) : Decidable (livesIn p ptr) :=
  inferInstanceAs (Decidable (∃ h ∈ p.blockList, (h.live ptr).isSome))

/-- The system refuses memory or grants it, released pointers are live, and users stay in their
payloads. -/
def poolOk (p : PoolT) : PoolCall → Prop
  | .alloc size addr _ => size < 4294967296 ∧ (addr = 0 ∨ osGrants p addr (askedFor p size))
  | .dealloc ptr => livesIn p ptr ∨ (p.system.lookup ptr).isSome
  | .write addr _ => ∃ h ∈ p.blockList, userMay h addr

instance (p : PoolT) : (call : PoolCall) → Decidable (poolOk p call)
  | .alloc _ _ _ => inferInstanceAs (Decidable (_ ∧ _))
  | .dealloc _ => inferInstanceAs (Decidable (_ ∨ _))
  | .write addr _ => inferInstanceAs (Decidable (∃ h ∈ p.blockList, userMay h addr))

/-- A pool straight from `mem_pool_init`. -/
def poolInit (p : PoolT) : Prop :=
  ∃ blockSize poolAddr addr mem, blockSize < 4294967296 ∧ addr % 8 = 0 ∧
    memPoolInit blockSize poolAddr addr mem = some (0, some p)

/-- Every run of `mem_pool_alloc`, `mem_pool_dealloc` and users writing their payloads. -/
def poolMachine : Machine PoolT PoolCall Ret where
  init := poolInit
  ok := poolOk
  exec := poolExec

instance (p : PoolT) (call : PoolCall) : Decidable (poolMachine.ok p call) :=
  inferInstanceAs (Decidable (poolOk p call))

end CPractice.MemPool
