import CPractice.MemPool.PoolSteps

/-!
# Requests that a pool serves

`chunk_mem_size` counts headers, and the sizes it is compared with count bytes.  So a request needs a
chunk of sixteen times its size, and a new block serves it only if the block is that large.  When it is
not, the block has been linked already.
-/

namespace CPractice.MemPool

open Lib

variable {h : Heap} {p : PoolT} {b : BlockT} {size addr : ℕ} {mem : ℕ → ℕ}

/-- A request is served from a chunk of as many headers as it has bytes. -/
theorem chosen_fits (hinv : Inv h) (hpos : 0 < size) (hsize : size < h.block.size)
    (hchosen : chosen h.block size ≠ 0) : alignSize (size + unitSize) * unitSize ≤ h.block.size := by
  obtain ⟨heads, hl, hfree⟩ := hinv
  obtain ⟨hmem, -, hunits⟩ := (blockMalloc_eq hl.toTiling hfree hpos hsize).2.resolve_left hchosen
  have hge := hl.ge_data _ hmem
  have hend := hl.next_le_end hmem
  unfold blockEnd at hend
  unfold unitSize at *
  omega

/-- The search in a new block finds its only chunk. -/
theorem chosen_new (hl : Layout b {b.data} fun _ ↦ none) (hfree : b.free = b.size)
    (hnext : nextOf b.mem b.data = blockEnd b)
    (hfits : alignSize (size + unitSize) * unitSize ≤ b.size) : chosen b size = b.data := by
  have hmem : b.data ∈ ({b.data} : Set ℕ) := rfl
  have hpos := hl.data_pos
  have hlt := hl.lt_end _ hmem
  have hbit : freeOf b.mem b.data ≠ 0 := fun hzero ↦ by simpa using (hl.live_iff _ hmem).mp hzero
  have hsize : alignSize (size + unitSize) ≤ (blockEnd b - b.data) / 16 := by
    unfold blockEnd unitSize at *
    omega
  have hfuel : ∃ fuel, walkFuel b = fuel + 2 := by
    refine ⟨b.size / unitSize - 1, ?_⟩
    have hge := (alignSize_bounds (size + unitSize)).1
    unfold walkFuel unitSize at *
    omega
  obtain ⟨fuel, hfuel⟩ := hfuel
  have hbetter : betterFit (freeOf b.mem b.data) ((blockEnd b - b.data) / 16)
      (alignSize (size + unitSize)) 0 0 := ⟨hbit, hsize, .inl rfl⟩
  have hroom : ¬ b.free < alignSize (size + unitSize) := by
    unfold unitSize at *
    omega
  rw [chosen, if_neg hroom, hfuel, hl.bottom_eq, bestFit, if_neg hlt.ne]
  simp only [hl.chunkMemSize_eq hmem, hl.getFreebit_eq hmem, hl.chunkNext_eq hmem, hnext,
    Option.bind_eq_bind, Option.bind_some]
  rw [if_pos hbetter, bestFit, if_pos rfl]
  rfl

/-- What a pool owes a request that fits a block: a pointer if the system grants memory, and no change of
its list of blocks without one. -/
def Served (p : PoolT) (size addr : ℕ) (mem : ℕ → ℕ) : Prop :=
  ∃ ptr p', memPoolAlloc p size addr mem = some (ptr, p') ∧ (addr ≠ 0 → ptr ≠ 0) ∧
    (ptr = 0 → p'.blockList = p.blockList ∧ p'.blockNum = p.blockNum)

/-- A step of the allocation serves the request exactly if the system refuses or the block holds sixteen
times its size. -/
theorem AllocStep.served_iff {ptr : ℕ} {p' : PoolT} (hstep : AllocStep p size addr mem ptr p')
    (hinv : PoolInv p) (hpos : 0 < size) (hsize : size < p.blockSize) (haddr8 : addr % 8 = 0) :
    ((addr ≠ 0 → ptr ≠ 0) ∧ (ptr = 0 → p'.blockList = p.blockList ∧ p'.blockNum = p.blockNum)) ↔
      addr = 0 ∨ alignSize (size + unitSize) * unitSize ≤ p.blockSize := by
  cases hstep with
  | served hlist hfront hchosen hmalloc =>
      rename_i front back h h'
      have hh : h ∈ p.blockList := by simp [hlist]
      have hhsize := hinv.size_eq h hh
      obtain ⟨ptr', h'', hmalloc', -, -, hiff, -⟩ :=
        heapMalloc_spec (hinv.inv h hh) hpos (hhsize ▸ hsize)
      rw [hmalloc] at hmalloc'
      cases hmalloc'
      have hptr : ptr ≠ 0 := mt hiff.mp hchosen
      have hfits := chosen_fits (hinv.inv h hh) hpos (hhsize ▸ hsize) hchosen
      exact iff_of_true ⟨fun _ ↦ hptr, fun hzero ↦ absurd hzero hptr⟩ (.inr (hhsize ▸ hfits))
  | refused hnone hzero =>
      exact iff_of_true ⟨fun hne ↦ absurd hzero hne, fun _ ↦ ⟨rfl, rfl⟩⟩ (.inl hzero)
  | added hnone hne hinit hmalloc =>
      rename_i b h'
      obtain ⟨b', hinit', hlayout, hbsize, -, hbfree, hnext, hinvB⟩ :=
        blockInit_unit mem hinv.unit_le hinv.size_le hinv.align hne haddr8
      rw [hinit] at hinit'
      cases hinit'
      obtain ⟨ptr', h'', hmalloc', -, -, hiff, -⟩ :=
        heapMalloc_spec hinvB hpos (hsize.trans_eq hbsize.symm)
      rw [hmalloc] at hmalloc'
      cases hmalloc'
      constructor
      · rintro ⟨hserved, -⟩
        have hchosen := mt hiff.mpr (hserved hne)
        have hfits := chosen_fits hinvB hpos (hsize.trans_eq hbsize.symm) hchosen
        exact .inr (hfits.trans_eq hbsize)
      · intro hfits
        have hchosen := chosen_new hlayout (hbfree.trans hbsize.symm) hnext
          ((hfits.resolve_left hne).trans_eq hbsize.symm)
        have hptr : ptr ≠ 0 := mt hiff.mp (hchosen.trans_ne hlayout.data_pos.ne')
        exact ⟨fun _ ↦ hptr, fun hzero ↦ absurd hzero hptr⟩

/-- In every run, a request that fits a block is served, or leaves the list of blocks alone where the
system refuses, exactly if sixteen times its size fits a block. -/
theorem alloc_served_iff {log : List (PoolCall × Ret)} (htrace : poolMachine.Trace p log)
    (hpos : 0 < size) (hfits : alignSize size + unitSize ≤ p.blockSize)
    (hgrant : addr = 0 ∨ osGrants p addr (dataOffset + p.blockSize)) :
    Served p size addr mem ↔ addr = 0 ∨ alignSize (size + unitSize) * unitSize ≤ p.blockSize := by
  have hinv := trace_poolInv htrace
  have hsize : size < p.blockSize := by
    have hge := (alignSize_bounds size).1
    unfold unitSize at hfits
    omega
  have haddr8 : addr % 8 = 0 := by
    rcases hgrant with hrefused | hgrant
    · omega
    · exact hgrant.1
  obtain ⟨ptr, p', halloc, hstep⟩ := memPoolAlloc_spec mem hinv hpos hsize haddr8
  rw [← hstep.served_iff hinv hpos hsize haddr8]
  constructor
  · rintro ⟨ptr', q, halloc', hserved⟩
    rw [halloc] at halloc'
    cases halloc'
    exact hserved
  · exact fun hserved ↦ ⟨ptr, p', halloc, hserved⟩

theorem alloc_served_iff_small : Served smallPool 100 8192 (fun _ ↦ 0) :=
  (alloc_served_iff (.init smallPool_init) (by decide) (by decide) (.inr (by decide))).mpr
    (.inr (by decide))

/-- The pool has `4096` free bytes.  A request of 241 bytes needs 272 with its header, finds no chunk of
272 headers in the old block or a new one, and leaves an unused block in the list. -/
theorem fitting_request_unserved :
    ∃ p log, poolMachine.Trace p log ∧ alignSize 241 + unitSize ≤ p.blockSize ∧
      osGrants p 8192 (dataOffset + p.blockSize) ∧ ¬ Served p 241 8192 fun _ ↦ 0 := by
  refine ⟨smallPool, [], .init smallPool_init, by decide, by decide, ?_⟩
  rintro ⟨ptr, p', halloc, hserved, -⟩
  have hnil : (memPoolAlloc smallPool 241 8192 fun _ ↦ 0).map Prod.fst = some 0 := by decide +kernel
  rw [halloc] at hnil
  exact hserved (by decide) (Option.some.inj hnil)

end CPractice.MemPool
