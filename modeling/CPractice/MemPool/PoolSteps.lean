import CPractice.MemPool.Pool
import CPractice.MemPool.Safety
import Mathlib.Data.List.Pairwise

/-!
# What a pool can do in one step

`AllocStep` and `PoolStep` list what a call can do to a pool: which block served it, how the list of
blocks changed, and that the others were left alone.  From them, `PoolInv` holds in every run: the blocks
keep the invariant of `block_malloc` and `block_free`, have the size of the pool, and lie apart from each
other and from the direct allocations.
-/

namespace CPractice.MemPool

open Lib

variable {h h' : Heap} {p p' : PoolT} {b : BlockT} {ptr size addr word : ℕ} {mem : ℕ → ℕ}

/-! ## One block -/

theorem heapMalloc_spec (hinv : Inv h) (hpos : 0 < size) (hsize : size < h.block.size) :
    ∃ ptr h', heapMalloc h size = some (ptr, h') ∧ Inv h' ∧ SameFrame h.block h'.block ∧
      (ptr = 0 ↔ chosen h.block size = 0) ∧ (ptr = 0 → h' = h) := by
  obtain ⟨heads, hl, hfree⟩ := hinv
  obtain ⟨ptr, b', heads', hmalloc, hl', hfree', hframe, hiff, hsame⟩ :=
    blockMalloc_layout hl hfree hpos hsize
  refine ⟨ptr, _, Option.bind_eq_some_iff.mpr ⟨_, hmalloc, rfl⟩, ⟨heads', hl', hfree'⟩, hframe, hiff, ?_⟩
  intro hzero
  rw [hsame hzero, granted, if_pos hzero]

/-- A live pointer lies in its block, behind a `next` word with a clear free bit. -/
theorem live_inside (hinv : Inv h) (hlive : (h.live ptr).isSome) :
    h.block.data < ptr ∧ ptr < blockEnd h.block ∧
      ∃ word, loadWord h.block (ptr - 8) = some word ∧ word % 2 = 0 := by
  obtain ⟨heads, hl, -⟩ := hinv
  obtain ⟨size, hsome⟩ := Option.isSome_iff_exists.mp hlive
  obtain ⟨hle, hc⟩ := hl.live_head ptr size hsome
  obtain ⟨hfits, hpos⟩ := hl.live_fits ptr size hsome
  have hge := hl.ge_data _ hc
  have hend := hl.next_le_end hc
  have hfield : nextField (ptr - unitSize) = ptr - 8 := by
    unfold nextField
    unfold unitSize at *
    omega
  have hbit : freeOf h.block.mem (ptr - unitSize) = 0 := by
    refine (hl.live_iff _ hc).mpr ?_
    rwa [Nat.sub_add_cancel hle]
  rw [freeOf, hfield] at hbit
  refine ⟨?_, by omega, _, loadWord_eq (hfield ▸ hl.inBlock_next hc), hbit⟩
  unfold unitSize at *
  omega

theorem heapFree_spec (hinv : Inv h) (hlive : (h.live ptr).isSome) :
    ∃ h', heapFree h ptr = some (0, h') ∧ Inv h' ∧ SameFrame h.block h'.block ∧
      h'.live = Function.update h.live ptr none := by
  obtain ⟨heads, hl, -⟩ := hinv
  obtain ⟨size, hsome⟩ := Option.isSome_iff_exists.mp hlive
  obtain ⟨b', heads', hfree, hl', hfree', hframe⟩ := blockFree_layout hl hsome
  exact ⟨_, Option.bind_eq_some_iff.mpr ⟨_, hfree, rfl⟩, ⟨heads', hl', hfree'⟩, hframe, rfl⟩

/-- A block refuses a pointer outside of its data. -/
theorem heapFree_outside (hptr : ptr ≠ 0) (hout : ptr ≤ h.block.data ∨ blockEnd h.block ≤ ptr) :
    heapFree h ptr = some (-1, h) := by
  rw [heapFree, blockFree, if_neg hptr, if_pos hout]
  rfl

theorem userStore_frame (addr word : ℕ) (h : Heap) :
    SameFrame h.block (userStore addr word h).block := by
  rw [userStore]
  split <;> exact ⟨rfl, rfl, rfl⟩

theorem userStore_live (addr word : ℕ) (h : Heap) : (userStore addr word h).live = h.live := by
  rw [userStore]
  split <;> rfl

/-- A block that does not hold the word does not change. -/
theorem userStore_outside (hout : ¬ inBlock h.block addr) : userStore addr word h = h := if_neg hout

/-- A store of a user changes no header word. -/
theorem userStore_mem {heads : Set ℕ} (hl : Layout h.block heads h.live) (hmay : userMay h addr) {c : ℕ}
    (hc : c ∈ heads) :
    (userStore addr word h).block.mem (nextField c) = h.block.mem (nextField c) ∧
      (userStore addr word h).block.mem (preField c) = h.block.mem (preField c) := by
  obtain ⟨-, ptr, hge, size, hlive, hlt⟩ := hmay
  obtain ⟨hnext, hpre⟩ := hl.user_word hlive hge hlt hc
  rw [userStore]
  split
  · exact ⟨Function.update_of_ne hnext.symm _ _, Function.update_of_ne hpre.symm _ _⟩
  · exact ⟨rfl, rfl⟩

theorem userStore_inv (hinv : Inv h) (hmay : userMay h addr) : Inv (userStore addr word h) := by
  obtain ⟨heads, hl, hfree⟩ := hinv
  refine ⟨heads, ?_, ?_⟩
  · rw [userStore_live]
    exact hl.of_agree (userStore_frame addr word h) (fun d hd ↦ (userStore_mem hl hmay hd).1)
      fun d hd ↦ (userStore_mem hl hmay hd).2
  · rw [userStore]
    split <;> exact hfree

theorem formatBlock_isSome (hsize : 16 ≤ b.size) (hbottom : b.bottom = b.data) :
    (formatBlock b).isSome := by
  have hpre : inBlock b (preField b.bottom) := by
    unfold inBlock preField blockEnd
    omega
  have hnext : inBlock b (nextField b.bottom) := by
    unfold inBlock nextField blockEnd
    omega
  rw [formatBlock]
  simp only [storeWord_eq hpre, Option.bind_eq_bind, Option.bind_some]
  rw [storeWord_eq (by simpa using hnext), Option.bind_some,
    setFreebit_eq (by simpa using hnext)]
  rfl

/-- A new block is one free chunk. -/
theorem blockInit_spec (mem : ℕ → ℕ) (hsize : 16 ≤ size) (hlt : size < 4294967296)
    (halign : size % 16 = 0) (haddr : addr ≠ 0) (haddr8 : addr % 8 = 0) :
    ∃ b, blockInit size addr mem = some (0, some b) ∧ Layout b {b.data} (fun _ ↦ none) ∧
      b.size = size ∧ b.data = addr + 24 ∧ b.free = size ∧ nextOf b.mem b.data = blockEnd b := by
  have hround : u4 (alignSize size) = size := by
    have heq : alignSize size = size := by
      unfold alignSize unitSize
      omega
    rw [heq, u4_of_lt hlt]
  obtain ⟨b, hb⟩ := Option.isSome_iff_exists.mp (formatBlock_isSome
    (b := newBlock size (addr + dataOffset) mem) hsize rfl)
  have hinit : blockInit size addr mem = some (0, some b) := by
    rw [blockInit, if_neg (by omega), if_neg haddr, hround]
    exact Option.bind_eq_some_iff.mpr ⟨b, hb, rfl⟩
  obtain ⟨hlayout, hframe, hfree, hnext⟩ := formatBlock_layout
    (b := newBlock size (addr + dataOffset) mem) hlt halign
    (by simp only [newBlock, dataOffset]; omega) (by simp only [newBlock, dataOffset]; omega) rfl hb
  exact ⟨b, hinit, hlayout, hframe.size, hframe.data, hfree, hnext⟩

/-- A new block of a size that `mem_pool_init` has rounded. -/
theorem blockInit_unit (mem : ℕ → ℕ) (hunit : blockUnit ≤ size) (hle : size + blockUnit ≤ 4294967296)
    (halign : size % blockUnit = 0) (haddr : addr ≠ 0) (haddr8 : addr % 8 = 0) :
    ∃ b, blockInit size addr mem = some (0, some b) ∧ Layout b {b.data} (fun _ ↦ none) ∧
      b.size = size ∧ b.data = addr + 24 ∧ b.free = size ∧ nextOf b.mem b.data = blockEnd b ∧
      Inv ⟨b, fun _ ↦ none⟩ := by
  unfold blockUnit at hunit hle halign
  obtain ⟨b, hinit, hlayout, hsize, hdata, hfree, hnext⟩ :=
    blockInit_spec mem (by omega : 16 ≤ size) (by omega) (by omega) haddr haddr8
  have hlt : b.free < 4294967296 := by omega
  exact ⟨b, hinit, hlayout, hsize, hdata, hfree, hnext, _, hlayout, hlt⟩

/-! ## The invariant of all runs of a pool -/

/-- The memory of two blocks, their own headers included, does not overlap. -/
def Apart (h h' : Heap) : Prop :=
  blockEnd h.block ≤ h'.block.data - dataOffset ∨ blockEnd h'.block ≤ h.block.data - dataOffset

structure PoolInv (p : PoolT) : Prop where
  unit_le : blockUnit ≤ p.blockSize
  size_le : p.blockSize + blockUnit ≤ 4294967296
  align : p.blockSize % blockUnit = 0
  inv : ∀ h ∈ p.blockList, Inv h
  size_eq : ∀ h ∈ p.blockList, h.block.size = p.blockSize
  header : ∀ h ∈ p.blockList, dataOffset < h.block.data
  apart : p.blockList.Pairwise Apart
  system_size : ∀ entry ∈ p.system, 8 ≤ entry.1 ∧ p.blockSize ≤ entry.2
  system_apart : ∀ entry ∈ p.system, ∀ h ∈ p.blockList,
    entry.1 + entry.2 ≤ h.block.data - dataOffset ∨ blockEnd h.block ≤ entry.1 - 8

theorem apart_congr_right {g : Heap} (hframe : SameFrame h.block h'.block) : Apart g h' ↔ Apart g h := by
  rw [Apart, Apart, hframe.blockEnd_eq, hframe.data]

theorem apart_congr_left {g : Heap} (hframe : SameFrame h.block h'.block) : Apart h' g ↔ Apart h g := by
  rw [Apart, Apart, hframe.blockEnd_eq, hframe.data]

/-- Changing the content of one block keeps the invariant. -/
theorem PoolInv.replace {front back : List Heap} (hinv : PoolInv p)
    (hlist : p.blockList = front ++ h :: back) (hframe : SameFrame h.block h'.block) (hinv' : Inv h') :
    PoolInv { p with blockList := front ++ h' :: back } := by
  have hmem : h ∈ p.blockList := by simp [hlist]
  have hsub : ∀ g ∈ front ++ h' :: back, g = h' ∨ g ∈ p.blockList := by
    intro g hg
    rw [hlist]
    simp only [List.mem_append, List.mem_cons] at hg ⊢
    tauto
  refine
    { hinv with inv := ?_, size_eq := ?_, header := ?_, apart := ?_, system_apart := ?_ }
  · intro g hg
    rcases hsub g hg with rfl | hold
    · exact hinv'
    · exact hinv.inv g hold
  · intro g hg
    rcases hsub g hg with rfl | hold
    · exact hframe.size.trans (hinv.size_eq h hmem)
    · exact hinv.size_eq g hold
  · intro g hg
    rcases hsub g hg with rfl | hold
    · exact hframe.data ▸ hinv.header h hmem
    · exact hinv.header g hold
  · have hapart := hinv.apart
    rw [hlist] at hapart
    simp only [List.pairwise_append, List.pairwise_cons, List.mem_cons, forall_eq_or_imp] at hapart ⊢
    obtain ⟨hfront, ⟨hback, htail⟩, hcross⟩ := hapart
    refine ⟨hfront, ⟨fun g hg ↦ (apart_congr_left hframe).mpr (hback g hg), htail⟩, fun g hg ↦ ?_⟩
    exact ⟨(apart_congr_right hframe).mpr (hcross g hg).1, (hcross g hg).2⟩
  · intro entry hentry g hg
    rcases hsub g hg with rfl | hold
    · rw [hframe.data, hframe.blockEnd_eq]
      exact hinv.system_apart entry hentry h hmem
    · exact hinv.system_apart entry hentry g hold

/-- Fewer blocks keep it. -/
theorem PoolInv.sublist {blocks : List Heap} (hinv : PoolInv p) (hsub : blocks.Sublist p.blockList)
    (gone : Option Heap) : PoolInv (unlink { p with blockList := blocks } gone) := by
  have hblocks : PoolInv { p with blockList := blocks } :=
    { hinv with
      inv := fun g hg ↦ hinv.inv g (hsub.subset hg)
      size_eq := fun g hg ↦ hinv.size_eq g (hsub.subset hg)
      header := fun g hg ↦ hinv.header g (hsub.subset hg)
      apart := hinv.apart.sublist hsub
      system_apart := fun entry hentry g hg ↦ hinv.system_apart entry hentry g (hsub.subset hg) }
  cases gone with
  | none => exact hblocks
  | some h => exact { hblocks with }

/-- A new block where the system granted memory keeps it. -/
theorem PoolInv.cons (hinv : PoolInv p) (hgrant : osGrants p addr (dataOffset + p.blockSize))
    (haddr : addr ≠ 0) (hsize : h.block.size = p.blockSize) (hdata : h.block.data = addr + dataOffset)
    (hinv' : Inv h) :
    PoolInv { p with blockList := h :: p.blockList, blockNum := u4 (p.blockNum + 1) } := by
  obtain ⟨-, hblocks, hsystem⟩ := hgrant
  have hend : blockEnd h.block = addr + (dataOffset + p.blockSize) := by
    rw [blockEnd, hsize, hdata]
    omega
  refine
    { hinv with inv := ?_, size_eq := ?_, header := ?_, apart := ?_, system_apart := ?_ }
  · rintro g (_ | ⟨_, hg⟩)
    · exact hinv'
    · exact hinv.inv g hg
  · rintro g (_ | ⟨_, hg⟩)
    · exact hsize
    · exact hinv.size_eq g hg
  · rintro g (_ | ⟨_, hg⟩)
    · omega
    · exact hinv.header g hg
  · refine List.pairwise_cons.mpr ⟨fun g hg ↦ ?_, hinv.apart⟩
    rw [Apart, hend, hdata, Nat.add_sub_cancel]
    exact hblocks g hg
  · rintro entry hentry g (_ | ⟨_, hg⟩)
    · rw [hend, hdata, Nat.add_sub_cancel]
      exact (hsystem entry hentry).symm
    · exact hinv.system_apart entry hentry g hg

theorem PoolInv.system_cons (hinv : PoolInv p) (hgrant : osGrants p addr (size + 8))
    (hsize : p.blockSize ≤ size) : PoolInv { p with system := (addr + 8, size) :: p.system } := by
  obtain ⟨-, hblocks, -⟩ := hgrant
  refine { hinv with system_size := ?_, system_apart := ?_ }
  · rintro entry (_ | ⟨_, hentry⟩)
    · exact ⟨Nat.le_add_left _ _, hsize⟩
    · exact hinv.system_size entry hentry
  · rintro entry (_ | ⟨_, hentry⟩) g hg
    · have happart := hblocks g hg
      rw [Nat.add_sub_cancel]
      omega
    · exact hinv.system_apart entry hentry g hg

theorem PoolInv.system_filter (hinv : PoolInv p) (keep : ℕ × ℕ → Bool) :
    PoolInv { p with system := p.system.filter keep } :=
  { hinv with
    system_size := fun entry hentry ↦ hinv.system_size entry (List.mem_of_mem_filter hentry)
    system_apart := fun entry hentry ↦ hinv.system_apart entry (List.mem_of_mem_filter hentry) }

instance : Std.Symm Apart := ⟨fun _ _ happart ↦ Or.symm happart⟩

theorem PoolInv.apart_of_ne {g : Heap} (hinv : PoolInv p) (hg : g ∈ p.blockList) (hh : h ∈ p.blockList)
    (hne : g ≠ h) : Apart g h :=
  hinv.apart.forall hg hh hne

/-- The user of one block stores into no other. -/
theorem PoolInv.userStore_eq {g : Heap} (hinv : PoolInv p) (hh : h ∈ p.blockList) (hmay : userMay h addr)
    (hg : g ∈ p.blockList) (hne : g ≠ h) : userStore addr word g = g := by
  obtain ⟨heads, hl, -⟩ := hinv.inv h hh
  obtain ⟨-, ptr, hge, size, hlive, hlt⟩ := hmay
  obtain ⟨hle, hc⟩ := hl.live_head ptr size hlive
  have hfits := (hl.live_fits ptr size hlive).1
  have hdata := hl.ge_data _ hc
  have hend := hl.next_le_end hc
  have happart := hinv.apart_of_ne hg hh hne
  refine userStore_outside ?_
  unfold inBlock
  unfold Apart at happart
  omega

/-- A store of a user keeps it. -/
theorem PoolInv.write (hinv : PoolInv p) (hh : h ∈ p.blockList) (hmay : userMay h addr) :
    PoolInv { p with blockList := p.blockList.map (userStore addr word) } := by
  have hframe := userStore_frame addr word
  refine
    { hinv with inv := ?_, size_eq := ?_, header := ?_, apart := ?_, system_apart := ?_ }
  · intro g hg
    obtain ⟨g₀, hg₀, rfl⟩ := List.mem_map.mp hg
    by_cases heq : g₀ = h
    · exact heq ▸ userStore_inv (hinv.inv h hh) hmay
    · rw [hinv.userStore_eq hh hmay hg₀ heq]
      exact hinv.inv g₀ hg₀
  · intro g hg
    obtain ⟨g₀, hg₀, rfl⟩ := List.mem_map.mp hg
    exact (hframe g₀).size.trans (hinv.size_eq g₀ hg₀)
  · intro g hg
    obtain ⟨g₀, hg₀, rfl⟩ := List.mem_map.mp hg
    exact (hframe g₀).data ▸ hinv.header g₀ hg₀
  · refine List.pairwise_map.mpr (hinv.apart.imp fun {x y} happart ↦ ?_)
    exact (apart_congr_left (hframe x)).mpr ((apart_congr_right (hframe y)).mpr happart)
  · intro entry hentry g hg
    obtain ⟨g₀, hg₀, rfl⟩ := List.mem_map.mp hg
    rw [(hframe g₀).data, (hframe g₀).blockEnd_eq]
    exact hinv.system_apart entry hentry g₀ hg₀

/-! ## The loops over the blocks -/

/-- A block with a fitting chunk passes the test of its `free`. -/
theorem free_of_chosen (hchosen : chosen b size ≠ 0) : size < b.free := by
  have hge : size + 16 ≤ alignSize (size + unitSize) := (alignSize_bounds (size + unitSize)).1
  by_contra hlt
  exact hchosen (if_pos (by omega))

theorem tryBlock_spec (hinv : Inv h) (hpos : 0 < size) (hsize : size < h.block.size) :
    ∃ ptr h', tryBlock h size = some (ptr, h') ∧ (chosen h.block size = 0 → ptr = 0 ∧ h' = h) ∧
      (chosen h.block size ≠ 0 → ptr ≠ 0 ∧ heapMalloc h size = some (ptr, h')) := by
  obtain ⟨ptr, h', hmalloc, -, -, hiff, hsame⟩ := heapMalloc_spec hinv hpos hsize
  by_cases hchosen : chosen h.block size = 0
  · have hptr := hiff.mpr hchosen
    refine ⟨0, h, ?_, fun _ ↦ ⟨rfl, rfl⟩, fun hne ↦ absurd hchosen hne⟩
    rw [tryBlock, hmalloc, hptr, hsame hptr]
    split <;> rfl
  · refine ⟨ptr, h', ?_, fun hzero ↦ absurd hzero hchosen, fun _ ↦ ⟨mt hiff.mp hchosen, hmalloc⟩⟩
    rw [tryBlock, if_pos (free_of_chosen hchosen), hmalloc]

/-- The blocks without a fitting chunk are passed over. -/
theorem allocFrom_front {front : List Heap} (back : List Heap) (hpos : 0 < size)
    (hinv : ∀ g ∈ front, Inv g ∧ size < g.block.size) (hnone : ∀ g ∈ front, chosen g.block size = 0) :
    allocFrom size (front ++ back) = (allocFrom size back).map fun out ↦ (out.1, front ++ out.2) := by
  induction front with
  | nil => simp
  | cons g front ih =>
      obtain ⟨ptr, g', htry, hskip, -⟩ := tryBlock_spec (hinv g (by simp)).1 hpos (hinv g (by simp)).2
      obtain ⟨rfl, rfl⟩ := hskip (hnone g (by simp))
      have hrest := ih (fun x hx ↦ hinv x (by simp [hx])) fun x hx ↦ hnone x (by simp [hx])
      rw [List.cons_append, allocFrom, htry, hrest]
      cases allocFrom size back with
      | none => rfl
      | some out => rfl

/-- The first block that meets a test. -/
theorem exists_first {blocks : List Heap} {served : Heap → Prop} [DecidablePred served]
    (hsome : ∃ h ∈ blocks, served h) :
    ∃ front h back, blocks = front ++ h :: back ∧ (∀ g ∈ front, ¬ served g) ∧ served h := by
  obtain ⟨h, hfind⟩ : ∃ h, blocks.find? (fun g ↦ decide (served g)) = some h := by
    refine Option.isSome_iff_exists.mp (List.find?_isSome.mpr ?_)
    obtain ⟨h, hmem, hserved⟩ := hsome
    exact ⟨h, hmem, by simpa using hserved⟩
  obtain ⟨hserved, front, back, hlist, hfront⟩ := List.find?_eq_some_iff_append.mp hfind
  exact ⟨front, h, back, hlist, fun g hg ↦ by simpa using hfront g hg, by simpa using hserved⟩

/-- What a small request does to a pool. -/
inductive AllocStep (p : PoolT) (size addr : ℕ) (mem : ℕ → ℕ) : ℕ → PoolT → Prop where
  | served {front back : List Heap} {h h' : Heap} {ptr : ℕ} :
      p.blockList = front ++ h :: back → (∀ g ∈ front, chosen g.block size = 0) →
      chosen h.block size ≠ 0 → heapMalloc h size = some (ptr, h') →
      AllocStep p size addr mem ptr { p with blockList := front ++ h' :: back }
  | refused : (∀ g ∈ p.blockList, chosen g.block size = 0) → addr = 0 → AllocStep p size addr mem 0 p
  | added {b : BlockT} {h' : Heap} {ptr : ℕ} :
      (∀ g ∈ p.blockList, chosen g.block size = 0) → addr ≠ 0 →
      blockInit p.blockSize addr mem = some (0, some b) →
      heapMalloc ⟨b, fun _ ↦ none⟩ size = some (ptr, h') →
      AllocStep p size addr mem ptr
        { p with blockList := h' :: p.blockList, blockNum := u4 (p.blockNum + 1) }

theorem memPoolAlloc_spec (mem : ℕ → ℕ) (hinv : PoolInv p) (hpos : 0 < size) (hsize : size < p.blockSize)
    (haddr : addr % 8 = 0) :
    ∃ ptr p', memPoolAlloc p size addr mem = some (ptr, p') ∧ AllocStep p size addr mem ptr p' := by
  have hblocks : ∀ g ∈ p.blockList, Inv g ∧ size < g.block.size :=
    fun g hg ↦ ⟨hinv.inv g hg, hinv.size_eq g hg ▸ hsize⟩
  have hcall : memPoolAlloc p size addr mem = (allocFrom size p.blockList).bind fun out ↦
      if out.1 ≠ 0 then some (out.1, { p with blockList := out.2 }) else allocNew p size addr mem := by
    rw [memPoolAlloc, if_neg (by omega), if_neg (by omega)]
    rfl
  by_cases hall : ∀ g ∈ p.blockList, chosen g.block size = 0
  · have hloop : allocFrom size p.blockList = some (0, p.blockList) := by
      have hfront := allocFrom_front [] hpos hblocks hall
      simpa [allocFrom] using hfront
    have hnew : memPoolAlloc p size addr mem = allocNew p size addr mem := by
      rw [hcall, hloop]
      rfl
    rw [hnew]
    by_cases hzero : addr = 0
    · refine ⟨0, p, ?_, .refused hall hzero⟩
      rw [allocNew, blockInit, if_neg (by omega), if_pos hzero]
      rfl
    · obtain ⟨b, hinit, -, hbsize, -, -, -, hinvB⟩ :=
        blockInit_unit mem hinv.unit_le hinv.size_le hinv.align hzero haddr
      obtain ⟨ptr, h', hmalloc, -⟩ := heapMalloc_spec hinvB hpos (hsize.trans_eq hbsize.symm)
      refine ⟨ptr, _, ?_, .added hall hzero hinit hmalloc⟩
      rw [allocNew, hinit, Option.bind_eq_bind, Option.bind_some]
      simp only [hmalloc, Option.bind_eq_bind, Option.bind_some]
  · push Not at hall
    obtain ⟨front, h, back, hlist, hfront, hchosen⟩ := exists_first hall
    have hfront' : ∀ g ∈ front, chosen g.block size = 0 := fun g hg ↦ not_not.mp (hfront g hg)
    have hsub : ∀ g ∈ front, Inv g ∧ size < g.block.size := fun g hg ↦ hblocks g (by simp [hlist, hg])
    have hh := hblocks h (by simp [hlist])
    obtain ⟨ptr, h', htry, -, htake⟩ := tryBlock_spec hh.1 hpos hh.2
    obtain ⟨hptr, hmalloc⟩ := htake hchosen
    refine ⟨ptr, _, ?_, .served hlist hfront' hchosen hmalloc⟩
    have hback : allocFrom size (h :: back) = some (ptr, h' :: back) := by
      rw [allocFrom, htry, Option.bind_eq_bind, Option.bind_some]
      simp only [if_pos hptr]
    rw [hcall, hlist, allocFrom_front _ hpos hsub hfront', hback]
    simp only [Option.map_some, Option.bind_some, if_pos hptr]

/-- The block that holds the pointer releases it; it is unlinked if it has become free and is not the
first. -/
theorem deallocFrom_found {front : List Heap} (back : List Heap) (hptr : ptr ≠ 0)
    (hout : ∀ g ∈ front, ptr ≤ g.block.data ∨ blockEnd g.block ≤ ptr)
    (hfree : heapFree h ptr = some (0, h')) (pre : Bool) (ret : ℤ) :
    deallocFrom ptr pre ret (front ++ h :: back) =
      if h'.block.size = h'.block.free ∧ (pre = true ∨ front ≠ []) then some (0, some h', front ++ back)
      else some (0, none, front ++ h' :: back) := by
  induction front generalizing pre ret with
  | nil =>
      rw [List.nil_append, deallocFrom, hfree, Option.bind_eq_bind, Option.bind_some]
      simp
  | cons g front ih =>
      have hskip := heapFree_outside (h := g) hptr (hout g (by simp))
      have hrest := ih (fun x hx ↦ hout x (by simp [hx])) true (-1)
      rw [List.cons_append, deallocFrom, hskip, Option.bind_eq_bind, Option.bind_some]
      simp only [show ¬ (-1 : ℤ) = 0 by decide, if_false, hrest]
      by_cases hempty : h'.block.size = h'.block.free
      · simp [hempty]
      · simp [hempty]

/-- No block in front of the one that holds an address holds it too. -/
theorem PoolInv.exists_holder (hinv : PoolInv p) (hh : h ∈ p.blockList) (hdata : h.block.data < ptr)
    (hend : ptr < blockEnd h.block) :
    ∃ front back, p.blockList = front ++ h :: back ∧
      ∀ g ∈ front, ¬ (g.block.data < ptr ∧ ptr < blockEnd g.block) := by
  have hsome : ∃ g ∈ p.blockList, g.block.data < ptr ∧ ptr < blockEnd g.block := ⟨h, hh, hdata, hend⟩
  obtain ⟨front, h₁, back, hlist, hfront, hin⟩ := exists_first hsome
  have heq : h₁ = h := by
    by_contra hne
    have happart := hinv.apart_of_ne (hlist ▸ by simp) hh hne
    unfold Apart at happart
    omega
  exact ⟨front, back, heq ▸ hlist, hfront⟩

/-- The word in front of a live pointer has a clear free bit, and so is not taken for the flag of a
direct allocation. -/
theorem arrWords_of_live (hinv : PoolInv p) (hh : h ∈ p.blockList) (hlive : (h.live ptr).isSome)
    (hlookup : p.system.lookup ptr = none) :
    ∃ arr0 arr1, arrWords p ptr = some (arr0, arr1) ∧ arr0 ≠ sysAllocFlag := by
  obtain ⟨hdata, hend, word, hword, heven⟩ := live_inside (hinv.inv h hh) hlive
  have hfind : p.blockList.find? (fun g ↦ decide (g.block.data < ptr ∧ ptr < blockEnd g.block)) =
      some h := by
    obtain ⟨front, back, hlist, hfront⟩ := hinv.exists_holder hh hdata hend
    refine List.find?_eq_some_iff_append.mpr ⟨by simp [hdata, hend], front, back, hlist, ?_⟩
    intro g hg
    rw [decide_eq_false (hfront g hg)]
    rfl
  refine ⟨u4 word, u4 (word / 4294967296), ?_, ?_⟩
  · simp only [arrWords, hlookup, hfind, Option.bind_eq_bind, Option.bind_some, hword]
  · unfold u4 sysAllocFlag
    omega

/-- What a call does to a pool. -/
inductive PoolStep (p : PoolT) : PoolCall → Ret → PoolT → Prop where
  | nothing {size addr : ℕ} {mem : ℕ → ℕ} :
      size = 0 ∨ p.blockSize ≤ size → PoolStep p (.alloc size addr mem) (.ptr 0) p
  | direct {size addr : ℕ} {mem : ℕ → ℕ} :
      p.blockSize ≤ size → osGrants p addr (size + 8) →
      PoolStep p (.alloc size addr mem) (.ptr (addr + 8))
        { p with system := (addr + 8, size) :: p.system }
  | alloc {size addr ptr : ℕ} {mem : ℕ → ℕ} {p' : PoolT} :
      0 < size → size < p.blockSize → (addr = 0 ∨ osGrants p addr (dataOffset + p.blockSize)) →
      AllocStep p size addr mem ptr p' → PoolStep p (.alloc size addr mem) (.ptr ptr) p'
  | directFree {ptr : ℕ} :
      PoolStep p (.dealloc ptr) (.code 0)
        { p with system := p.system.filter fun entry ↦ entry.1 ≠ ptr }
  | free {front back : List Heap} {h h' : Heap} {ptr : ℕ} :
      p.blockList = front ++ h :: back → (h.live ptr).isSome → heapFree h ptr = some (0, h') →
      PoolStep p (.dealloc ptr) (.code 0) { p with blockList := front ++ h' :: back }
  | release {front back : List Heap} {h h' : Heap} {ptr : ℕ} :
      p.blockList = front ++ h :: back → (h.live ptr).isSome → heapFree h ptr = some (0, h') →
      h'.block.size = h'.block.free → front ≠ [] →
      PoolStep p (.dealloc ptr) (.code 0) (unlink { p with blockList := front ++ back } (some h'))
  | write {h : Heap} {addr word : ℕ} :
      h ∈ p.blockList → userMay h addr →
      PoolStep p (.write addr word) .done { p with blockList := p.blockList.map (userStore addr word) }

theorem memPoolDealloc_spec (hinv : PoolInv p) (hok : poolOk p (.dealloc ptr)) :
    ∃ p', memPoolDealloc p ptr = some (0, p') ∧ PoolStep p (.dealloc ptr) (.code 0) p' := by
  cases hlookup : p.system.lookup ptr with
  | some size =>
      have hentry : (ptr, size) ∈ p.system := by
        obtain ⟨front, back, hlist, -⟩ := List.lookup_eq_some_iff.mp hlookup
        simp [hlist]
      obtain ⟨hpos, hsize⟩ := hinv.system_size _ hentry
      have hptr : 8 ≤ ptr := hpos
      refine ⟨_, ?_, .directFree⟩
      rw [memPoolDealloc, if_neg (by omega)]
      simp only [arrWords, hlookup, Option.bind_eq_bind, Option.bind_some]
      rw [if_pos ⟨trivial, hsize⟩]
  | none =>
      obtain ⟨h, hh, hlive⟩ : livesIn p ptr := hok.resolve_right (by simp [hlookup])
      obtain ⟨arr0, arr1, harr, hflag⟩ := arrWords_of_live hinv hh hlive hlookup
      obtain ⟨h', hfree, -⟩ := heapFree_spec (hinv.inv h hh) hlive
      obtain ⟨hdata, hend, -⟩ := live_inside (hinv.inv h hh) hlive
      obtain ⟨front, back, hlist, hfront⟩ := hinv.exists_holder hh hdata hend
      have hout : ∀ g ∈ front, ptr ≤ g.block.data ∨ blockEnd g.block ≤ ptr := by
        intro g hg
        have hnot := hfront g hg
        omega
      have hcall : memPoolDealloc p ptr = (deallocFrom ptr false 0 p.blockList).bind fun out ↦
          some (if out.1 ≠ 0 then -2 else 0, unlink { p with blockList := out.2.2 } out.2.1) := by
        rw [memPoolDealloc, if_neg (by omega)]
        simp only [harr, Option.bind_eq_bind, Option.bind_some]
        rw [if_neg (fun hboth ↦ hflag hboth.1)]
      have hloop := deallocFrom_found back (by omega) hout hfree false 0
      rw [hcall, hlist, hloop]
      by_cases hgone : h'.block.size = h'.block.free ∧ front ≠ []
      · refine ⟨_, ?_, .release hlist hlive hfree hgone.1 hgone.2⟩
        rw [if_pos ⟨hgone.1, .inr hgone.2⟩]
        rfl
      · refine ⟨_, ?_, .free hlist hlive hfree⟩
        rw [if_neg (fun hboth ↦ hgone ⟨hboth.1, hboth.2.resolve_left Bool.false_ne_true⟩)]
        rfl

/-- The request of a block or more. -/
theorem systemAlloc_step (hlarge : p.blockSize ≤ size) (hlt : size < 4294967296)
    (hgrant : addr = 0 ∨ osGrants p addr (askedFor p size))
    (halloc : systemAlloc p size addr = some (ptr, p')) :
    PoolStep p (.alloc size addr mem) (.ptr ptr) p' := by
  rw [systemAlloc] at halloc
  split_ifs at halloc with hzero hwrap
  · cases halloc
    exact .nothing (.inr hlarge)
  · cases halloc
    have hasked : u4 (size + 8) = size + 8 := by
      unfold u4 at hwrap ⊢
      omega
    have hgrants : osGrants p addr (size + 8) := by
      have hgranted := hgrant.resolve_left hzero
      rwa [askedFor, if_pos hlarge, hasked] at hgranted
    have hsize : u4Sub (u4 (size + 8)) 8 = size := by
      rw [hasked, u4Sub_of_le (by omega) (hasked ▸ u4_lt _), Nat.add_sub_cancel]
    rw [hsize]
    exact .direct hlarge hgrants

/-- Every call that does not fault is one of the steps. -/
theorem poolExec_step {call : PoolCall} {r : Ret} (hinv : PoolInv p) (hok : poolOk p call)
    (hexec : poolExec p call = some (r, p')) : PoolStep p call r p' := by
  cases call with
  | alloc size addr mem =>
      obtain ⟨⟨ptr, q⟩, halloc, hout⟩ := Option.bind_eq_some_iff.mp hexec
      cases hout
      obtain ⟨hlt, hgrant⟩ := hok
      by_cases hzero : size = 0
      · rw [memPoolAlloc, if_pos hzero] at halloc
        cases halloc
        exact .nothing (.inl hzero)
      · by_cases hlarge : p.blockSize ≤ size
        · rw [memPoolAlloc, if_neg hzero, if_pos hlarge] at halloc
          exact systemAlloc_step hlarge hlt hgrant halloc
        · have haddr : addr % 8 = 0 := by
            rcases hgrant with hrefused | hgrant
            · omega
            · exact hgrant.1
          obtain ⟨ptr', q', halloc', hstep⟩ :=
            memPoolAlloc_spec mem hinv (Nat.pos_of_ne_zero hzero) (by omega) haddr
          rw [halloc'] at halloc
          cases halloc
          rw [askedFor, if_neg hlarge] at hgrant
          exact .alloc (Nat.pos_of_ne_zero hzero) (by omega) hgrant hstep
  | dealloc ptr =>
      obtain ⟨q', hfree, hstep⟩ := memPoolDealloc_spec hinv hok
      rw [poolExec, hfree, Option.bind_eq_bind, Option.bind_some] at hexec
      cases hexec
      exact hstep
  | write addr word =>
      cases hexec
      obtain ⟨h, hh, hmay⟩ := hok
      exact .write hh hmay

theorem AllocStep.inv (hstep : AllocStep p size addr mem ptr p') (hinv : PoolInv p) (hpos : 0 < size)
    (hsize : size < p.blockSize) (hgrant : addr = 0 ∨ osGrants p addr (dataOffset + p.blockSize)) :
    PoolInv p' := by
  cases hstep with
  | served hlist hfront hchosen hmalloc =>
      rename_i front back h h'
      have hh : h ∈ p.blockList := by simp [hlist]
      obtain ⟨ptr', h'', hmalloc', hinv', hframe, -⟩ :=
        heapMalloc_spec (hinv.inv h hh) hpos (hinv.size_eq h hh ▸ hsize)
      rw [hmalloc] at hmalloc'
      cases hmalloc'
      exact hinv.replace hlist hframe hinv'
  | refused => exact hinv
  | added hnone hne hinit hmalloc =>
      rename_i b h'
      have hgrants := hgrant.resolve_left hne
      obtain ⟨b', hinit', -, hbsize, hbdata, -, -, hinvB⟩ :=
        blockInit_unit mem hinv.unit_le hinv.size_le hinv.align hne hgrants.1
      rw [hinit] at hinit'
      cases hinit'
      obtain ⟨ptr', h'', hmalloc', hinv', hframe, -⟩ :=
        heapMalloc_spec hinvB hpos (hsize.trans_eq hbsize.symm)
      rw [hmalloc] at hmalloc'
      cases hmalloc'
      exact hinv.cons hgrants hne (hframe.size.trans hbsize) (hframe.data.trans hbdata) hinv'

theorem PoolStep.inv {call : PoolCall} {r : Ret} (hstep : PoolStep p call r p') (hinv : PoolInv p) :
    PoolInv p' := by
  cases hstep with
  | nothing => exact hinv
  | direct hlarge hgrant => exact hinv.system_cons hgrant hlarge
  | alloc hpos hsize hgrant hstep => exact hstep.inv hinv hpos hsize hgrant
  | directFree => exact hinv.system_filter _
  | free hlist hlive hfree =>
      rename_i front back h h' ptr
      obtain ⟨h'', hfree', hinv', hframe, -⟩ := heapFree_spec (hinv.inv h (by simp [hlist])) hlive
      rw [hfree] at hfree'
      cases hfree'
      exact hinv.replace hlist hframe hinv'
  | release hlist hlive hfree hgone hfront =>
      refine hinv.sublist ?_ _
      rw [hlist]
      exact (List.sublist_cons_self _ _).append_left _
  | write hh hmay => exact hinv.write hh hmay

/-- The size of the blocks, rounded up to the unit; it wraps to zero for the largest requests. -/
theorem blockUnit_round (size : ℕ) :
    u4 (size + blockUnit - 1) / blockUnit * blockUnit + blockUnit ≤ 4294967296 ∧
      u4 (size + blockUnit - 1) / blockUnit * blockUnit % blockUnit = 0 := by
  have hlt := u4_lt (size + blockUnit - 1)
  unfold blockUnit at *
  omega

/-- A new pool has one block, one free chunk long. -/
theorem poolInit_spec (hinit : poolInit p) :
    ∃ b, p.blockList = [⟨b, fun _ ↦ none⟩] ∧ p.blockNum = 1 ∧ p.system = [] ∧ p.returned = [] ∧
      blockUnit ≤ p.blockSize ∧ p.blockSize + blockUnit ≤ 4294967296 ∧ p.blockSize % blockUnit = 0 ∧
      ∃ addr mem, addr ≠ 0 ∧ addr % 8 = 0 ∧ blockInit p.blockSize addr mem = some (0, some b) := by
  obtain ⟨blockSize, poolAddr, addr, mem, -, haddr8, hsome⟩ := hinit
  rw [memPoolInit] at hsome
  split_ifs at hsome with hzero hpool
  · cases hsome
  · cases hsome
  obtain ⟨hle, halign⟩ := blockUnit_round blockSize
  simp only at hsome
  generalize u4 (blockSize + blockUnit - 1) / blockUnit * blockUnit = rounded at hsome hle halign
  obtain ⟨⟨ret, block⟩, hblock, hout⟩ := Option.bind_eq_some_iff.mp hsome
  by_cases hempty : rounded = 0
  · rw [blockInit, if_pos hempty] at hblock
    cases hblock
    cases hout
  by_cases haddr : addr = 0
  · rw [blockInit, if_neg hempty, if_pos haddr] at hblock
    cases hblock
    cases hout
  have hunit : blockUnit ≤ rounded := by
    unfold blockUnit at *
    omega
  obtain ⟨b, hinit, -⟩ := blockInit_unit mem hunit hle halign haddr haddr8
  have heq := hinit.symm.trans hblock
  cases heq
  cases hout
  exact ⟨b, rfl, rfl, rfl, rfl, hunit, hle, halign, addr, mem, haddr, haddr8, hinit⟩

theorem poolInit_inv (hinit : poolInit p) : PoolInv p := by
  obtain ⟨b, hlist, -, hsystem, -, hunit, hle, halign, addr, mem, haddr, haddr8, hblock⟩ :=
    poolInit_spec hinit
  obtain ⟨b', hblock', -, hsize, hdata, -, -, hinv⟩ :=
    blockInit_unit mem hunit hle halign haddr haddr8
  have heq := hblock.symm.trans hblock'
  cases heq
  have hheader : dataOffset < b.data := by
    rw [hdata, dataOffset]
    omega
  exact
    { unit_le := hunit, size_le := hle, align := halign
      inv := by simpa [hlist] using hinv
      size_eq := by simpa [hlist] using hsize
      header := by simpa [hlist] using hheader
      apart := by simp [hlist]
      system_size := by simp [hsystem]
      system_apart := by simp [hsystem] }

/-- The invariant holds in every run. -/
theorem trace_poolInv {log : List (PoolCall × Ret)} (htrace : poolMachine.Trace p log) : PoolInv p := by
  refine htrace.invariant PoolInv (fun _ hinit ↦ poolInit_inv hinit) ?_
  intro p call r p' hinv hok hexec
  exact (poolExec_step hinv hok hexec).inv hinv

/-- A block of `4096` bytes, its data at address 32. -/
def pageBlock : BlockT := (formatBlock (newBlock 4096 32 fun _ ↦ 0)).get (by decide)

/-- The pool of this block. -/
def smallPool : PoolT where
  blockNum := 1
  blockSize := 4096
  blockList := [⟨pageBlock, fun _ ↦ none⟩]
  system := []
  returned := []

theorem smallPool_init : poolInit smallPool := by
  refine ⟨4096, 8, 8, fun _ ↦ 0, by decide, by decide, ?_⟩
  have hround : u4 (4096 + blockUnit - 1) / blockUnit * blockUnit = 4096 := by with_unfolding_all decide
  have hsize : u4 (alignSize 4096) = 4096 := by with_unfolding_all decide
  have hblock : blockInit 4096 8 (fun _ ↦ 0) = some (0, some pageBlock) := by
    rw [blockInit, if_neg (by decide), if_neg (by decide), hsize]
    exact Option.bind_eq_some_iff.mpr ⟨pageBlock, (Option.some_get _).symm, rfl⟩
  rw [memPoolInit, if_neg (by decide), if_neg (by decide), hround]
  exact Option.bind_eq_some_iff.mpr ⟨_, hblock, rfl⟩

end CPractice.MemPool
