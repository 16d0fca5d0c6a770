import CPractice.MemPool.Operations

/-!
# Disjoint allocations

`live_payloads_disjoint` holds of every run of a block and its users: no call faults, the live
payloads lie in the block and do not overlap, and the chunks found by walking from `bottom` tile the
block.  It needs nothing about the back links beyond what `Tiling` keeps.
-/

namespace CPractice.MemPool

open Lib

variable {b b' : BlockT} {heads : Set ℕ} {live : ℕ → Option ℕ} {c n a ptr size : ℕ}

/-! ## The walk from `bottom` -/

theorem chunksFrom_spec (h : Tiling b heads) (fuel : ℕ) :
    ∀ cur, (cur ∈ heads ∨ cur = blockEnd b) → blockEnd b - cur < 16 * fuel →
      ∃ cs, chunksFrom b fuel cur = some cs ∧ ∀ c, c ∈ cs ↔ c ∈ heads ∧ cur ≤ c := by
  induction fuel with
  | zero => intro cur _ hlt; omega
  | succ fuel ih =>
      intro cur hcur hlt
      by_cases hend : cur = blockEnd b
      · refine ⟨[], by simp [chunksFrom, hend], fun c ↦ ?_⟩
        have hltEnd := h.lt_end c
        simp only [List.not_mem_nil, false_iff, not_and]
        intro hc
        have hltC := hltEnd hc
        omega
      · have hmem : cur ∈ heads := hcur.resolve_right hend
        have hnext : nextOf b.mem cur ∈ heads ∨ nextOf b.mem cur = blockEnd b :=
          (em (nextOf b.mem cur = blockEnd b)).symm.imp (h.next_mem cur hmem) id
        have hstep := h.add_unit_le_next hmem
        have hle := h.next_le_end hmem
        have hcurEnd := h.lt_end cur hmem
        obtain ⟨cs, hcs, hspec⟩ := ih _ hnext (by omega)
        refine ⟨cur :: cs, by simp [chunksFrom, hend, h.chunkNext_eq hmem, hcs], fun c ↦ ?_⟩
        rw [List.mem_cons, hspec]
        constructor
        · rintro (rfl | ⟨hc, hlec⟩)
          · exact ⟨hmem, le_rfl⟩
          · exact ⟨hc, by omega⟩
        · rintro ⟨hc, hlec⟩
          rcases hlec.eq_or_lt with rfl | hgt
          · exact .inl rfl
          · exact .inr ⟨hc, h.gap cur hmem c hc hgt⟩

theorem blockChunks_spec (h : Tiling b heads) :
    ∃ cs, blockChunks b = some cs ∧ ∀ c, c ∈ cs ↔ c ∈ heads := by
  have hfuel : blockEnd b - b.bottom < 16 * walkFuel b := by
    unfold walkFuel blockEnd unitSize
    rw [h.bottom_eq]
    omega
  obtain ⟨cs, hcs, hspec⟩ := chunksFrom_spec h (walkFuel b) b.bottom
    (.inl (h.bottom_eq ▸ h.data_mem)) hfuel
  refine ⟨cs, hcs, fun c ↦ ?_⟩
  rw [hspec, h.bottom_eq]
  exact ⟨And.left, fun hc ↦ ⟨hc, h.ge_data c hc⟩⟩

/-! ## The invariant of all runs -/

/-- Some set of headers lays the block out for the live pointers. -/
def Inv (h : Heap) : Prop :=
  ∃ heads, Layout h.block heads h.live ∧ h.block.free < 4294967296

theorem fresh_sameFrame (b : BlockT) : SameFrame b (fresh b) := ⟨rfl, rfl, rfl⟩

theorem Layout.fresh (h : Layout b heads live) : Layout (fresh b) heads live :=
  h.of_agree (fresh_sameFrame b) (fun _ _ ↦ rfl) fun _ _ ↦ rfl

/-- After formatting there is one chunk, free and as long as the block. -/
theorem formatBlock_layout (hlt : b.size < 4294967296) (hsize : b.size % 16 = 0)
    (hpos : 0 < b.data) (halign : b.data % 8 = 0) (hbottom : b.bottom = b.data)
    (hformat : formatBlock b = some b') :
    Layout b' {b'.data} (fun _ ↦ none) ∧ SameFrame b b' ∧ b'.free = b.free ∧
      nextOf b'.mem b'.data = blockEnd b' := by
  obtain ⟨b₁, hb₁, hrest⟩ := Option.bind_eq_some_iff.mp hformat
  obtain ⟨b₂, hb₂, hset⟩ := Option.bind_eq_some_iff.mp hrest
  have hin₁ : inBlock b (preField b.bottom) := by
    by_contra hout
    simp [storeWord, hout] at hb₁
  obtain rfl : writeWord b (preField b.bottom) 0 = b₁ := by simpa [storeWord_eq hin₁] using hb₁
  have hin₂ : inBlock b (nextField b.bottom) := by
    by_contra hout
    simp [storeWord, hout] at hb₂
  rw [storeWord_eq (by simpa using hin₂)] at hb₂
  obtain rfl := Option.some.inj hb₂
  rw [setFreebit_eq (by simpa using hin₂)] at hset
  obtain rfl := Option.some.inj hset
  have hend : blockEnd b / 2 * 2 = blockEnd b := by
    unfold blockEnd
    omega
  set b' : BlockT := writeWord (writeWord (writeWord b (preField b.bottom) 0) (nextField b.bottom)
    (blockEnd (writeWord b (preField b.bottom) 0))) (nextField b.bottom)
    (nextOf (writeWord (writeWord b (preField b.bottom) 0) (nextField b.bottom)
      (blockEnd (writeWord b (preField b.bottom) 0))).mem b.bottom + 1) with hb'
  have hframe : SameFrame b b' := ⟨rfl, rfl, rfl⟩
  have hnextWord : b'.mem (nextField b.data) = blockEnd b + 1 := by
    simp [hb', nextOf, hbottom, hend]
  have hpreWord : b'.mem (preField b.data) = 0 := by
    simp [hb', hbottom, nextField, preField]
  have hnext : nextOf b'.mem b'.data = blockEnd b' := by
    rw [hframe.blockEnd_eq, hframe.data, nextOf, hnextWord]
    omega
  have hspace : b.data + 16 ≤ blockEnd b := by
    have hle := hin₂.2.1
    unfold nextField at hle
    unfold blockEnd at *
    omega
  refine ⟨?_, hframe, rfl, hnext⟩
  refine
    { size_lt := hlt, size_align := hsize, data_pos := hpos, data_align := halign
      bottom_eq := hbottom, data_mem := rfl
      ge_data := by rintro c rfl; exact le_rfl
      lt_end := by rintro c rfl; rw [hframe.blockEnd_eq, hframe.data]; omega
      align := by rintro c rfl; simp
      lt_next := by rintro c rfl; rw [hnext, hframe.blockEnd_eq, hframe.data]; omega
      next_mem := by rintro c rfl hne; exact absurd hnext hne
      gap := by rintro c rfl d rfl hlt'; exact absurd hlt' (lt_irrefl _)
      pre_data := by rw [hframe.data]; exact hpreWord
      pre_in := by rintro c rfl hne; exact absurd hnext hne
      live_iff := ?_
      live_head := by simp
      live_fits := by simp }
  rintro c rfl
  rw [freeOf, hframe.data, hnextWord]
  simp
  omega

theorem blockInit_layout {mem : ℕ → ℕ} {addr : ℕ} (halign : addr % 8 = 0)
    (hinit : blockInit size addr mem = some (0, some b)) :
    Layout b {b.data} (fun _ ↦ none) ∧ b.free < 4294967296 ∧ nextOf b.mem b.data = blockEnd b := by
  unfold blockInit at hinit
  split_ifs at hinit with hsize haddr
  · simp at hinit
  · simp at hinit
  obtain ⟨b', hformat, hret⟩ := Option.bind_eq_some_iff.mp hinit
  obtain rfl : b' = b := by simpa using hret
  have hround : u4 (alignSize size) % 16 = 0 := by
    have hmod := (alignSize_bounds size).2.2
    unfold u4
    omega
  obtain ⟨hlayout, hframe, hfree, hnext⟩ := formatBlock_layout
    (b := newBlock (u4 (alignSize size)) (addr + dataOffset) mem) (u4_lt _) hround
    (by simp only [newBlock, dataOffset]; omega) (by simp only [newBlock, dataOffset]; omega) rfl
    hformat
  exact ⟨hlayout, hfree ▸ u4_lt _, hnext⟩

/-! ## Calls keep the invariant -/

/-- What `block_malloc` leaves: a layout with the new pointer, or the same block. -/
theorem blockMalloc_layout (h : Layout b heads live) (hfree : b.free < 4294967296) (hpos : 0 < size)
    (hsize : size < b.size) :
    ∃ ptr b' heads', blockMalloc b size = some (ptr, b') ∧ Layout b' heads' (granted live ptr size) ∧
      b'.free < 4294967296 ∧ SameFrame b b' ∧ (ptr = 0 ↔ chosen b size = 0) ∧ (ptr = 0 → b' = b) := by
  have hposHead : ∀ c, c + unitSize ≠ 0 := by simp [unitSize]
  rcases blockMalloc_cases h.toTiling hfree hpos hsize with
    ⟨hchosen, hnone⟩ | ⟨c, hc, hchosen, hbit, hfits, -, -, b', hmalloc, hwhole, hfree'⟩ |
      ⟨c, hc, n, hchosen, hbit, hcn, hfits, hn16, -, -, b', hmalloc, hsplit, hfree'⟩
  · exact ⟨0, b, heads, hnone, h, hfree, ⟨rfl, rfl, rfl⟩, iff_of_true rfl hchosen, fun _ ↦ rfl⟩
  · have hne : chosen b size ≠ 0 := hchosen ▸ (h.head_pos hc).ne'
    refine ⟨_, b', heads, hmalloc, ?_, hfree' ▸ u4Sub_lt _ _, hwhole.frame,
      iff_of_false (hposHead c) hne, fun hzero ↦ absurd hzero (hposHead c)⟩
    rw [granted, if_neg (hposHead c)]
    exact hwhole.layout h hc hfits hpos
  · have hne : chosen b size ≠ 0 := hchosen ▸ (h.head_pos hc).ne'
    refine ⟨_, b', insert n heads, hmalloc, ?_, hfree' ▸ u4Sub_lt _ _, hsplit.frame,
      iff_of_false (hposHead n) hne, fun hzero ↦ absurd hzero (hposHead n)⟩
    rw [granted, if_neg (hposHead n)]
    exact hsplit.layout h hc hbit hcn (by omega) hn16 hfits hpos

theorem malloc_inv {h : Heap} (hinv : Inv h) (hok : callOk h (.malloc size)) :
    ∃ r h', callExec h (.malloc size) = some (r, h') ∧ Inv h' := by
  obtain ⟨heads, hlayout, hfree⟩ := hinv
  obtain ⟨ptr, b', heads', hmalloc, hl', hfree', -⟩ :=
    blockMalloc_layout hlayout.fresh hfree hok.1 hok.2
  exact ⟨_, _, Option.bind_eq_some_iff.mpr ⟨_, hmalloc, rfl⟩, heads', hl', hfree'⟩

theorem NextMerge.free_lt (hmerge : NextMerge b b' c) (h : b.free < 4294967296) :
    b'.free < 4294967296 := by
  rcases hmerge with ⟨rfl, -⟩ | ⟨-, -, habs⟩
  · exact h
  · exact habs.free_lt

theorem PreMerge.free_lt (hmerge : PreMerge b b' c) (h : b.free < 4294967296) :
    b'.free < 4294967296 := by
  rcases hmerge with ⟨rfl, -⟩ | ⟨-, -, habs⟩
  · exact h
  · exact habs.free_lt

theorem NextMerge.frame (hmerge : NextMerge b b' c) : SameFrame b b' := by
  rcases hmerge with ⟨rfl, -⟩ | ⟨-, -, habs⟩
  · exact ⟨rfl, rfl, rfl⟩
  · exact habs.frame

theorem PreMerge.frame (hmerge : PreMerge b b' c) : SameFrame b b' := by
  rcases hmerge with ⟨rfl, -⟩ | ⟨-, -, habs⟩
  · exact ⟨rfl, rfl, rfl⟩
  · exact habs.frame

/-- What `block_free` of a live pointer leaves: a layout without it. -/
theorem blockFree_layout (h : Layout b heads live) (hlive : live ptr = some size) :
    ∃ b' heads', blockFree b ptr = some (0, b') ∧ Layout b' heads' (Function.update live ptr none) ∧
      b'.free < 4294967296 ∧ SameFrame b b' := by
  obtain ⟨hle, hc⟩ := h.live_head ptr size hlive
  obtain ⟨b₁, b₂, b₃, hfree, hrel, hnext, hpre⟩ := blockFree_steps h hlive
  obtain ⟨hl₁, hbit₁, -⟩ := hrel.layout h hc
  obtain ⟨heads₂, hl₂, hc₂, hbit₂, -⟩ := hnext.layout hl₁ hc hbit₁
  obtain ⟨heads₃, hl₃⟩ := hpre.layout hl₂ hc₂ hbit₂
  rw [Nat.sub_add_cancel hle] at hl₃
  exact ⟨b₃, heads₃, hfree, hl₃, hpre.free_lt (hnext.free_lt hrel.free_lt),
    (hrel.frame.trans hnext.frame).trans hpre.frame⟩

theorem free_inv {h : Heap} (hinv : Inv h) (hok : callOk h (.free ptr)) :
    ∃ r h', callExec h (.free ptr) = some (r, h') ∧ Inv h' := by
  obtain ⟨heads, hlayout, _⟩ := hinv
  obtain ⟨size, hlive⟩ := Option.isSome_iff_exists.mp hok
  obtain ⟨b', heads', hfree, hl', hfree', -⟩ := blockFree_layout hlayout.fresh hlive
  exact ⟨_, _, Option.bind_eq_some_iff.mpr ⟨_, hfree, rfl⟩, heads', hl', hfree'⟩

/-- A word inside a live allocation is no header word. -/
theorem Layout.user_word (h : Layout b heads live) (hlive : live ptr = some size) (hge : ptr ≤ a)
    (hlt : a < ptr + size) {d : ℕ} (hd : d ∈ heads) : a ≠ nextField d ∧ a ≠ preField d := by
  obtain ⟨hle, hc⟩ := h.live_head ptr size hlive
  obtain ⟨hfits, -⟩ := h.live_fits ptr size hlive
  have hgap := h.gap _ hc d hd
  have hgap' := h.gap d hd _ hc
  have hstep := h.add_unit_le_next hd
  unfold nextField preField unitSize at *
  omega

theorem write_inv {h : Heap} (hinv : Inv h) {addr word : ℕ} (hok : callOk h (.write addr word)) :
    ∃ r h', callExec h (.write addr word) = some (r, h') ∧ Inv h' := by
  obtain ⟨heads, hlayout, hfree⟩ := hinv
  obtain ⟨-, ptr, hge, size, hlive, hlt⟩ := hok
  refine ⟨_, _, rfl, heads, ?_, hfree⟩
  exact hlayout.write_inside ⟨rfl, rfl, rfl⟩ rfl
    (fun d hd ↦ (hlayout.user_word hlive hge hlt hd).1)
    fun d hd ↦ (hlayout.user_word hlive hge hlt hd).2

theorem call_inv {h : Heap} (hinv : Inv h) {call : Call} (hok : callOk h call) :
    ∃ r h', callExec h call = some (r, h') ∧ Inv h' := by
  cases call with
  | malloc size => exact malloc_inv hinv hok
  | free ptr => exact free_inv hinv hok
  | write addr word => exact write_inv hinv hok

theorem init_inv {h : Heap} (hinit : fromInit h) : Inv h := by
  obtain ⟨⟨size, addr, mem, halign, hblock⟩, hlive⟩ := hinit
  obtain ⟨hlayout, hfree, -⟩ := blockInit_layout halign hblock
  exact ⟨{h.block.data}, by rw [hlive]; exact hlayout, hfree⟩

theorem trace_inv {h : Heap} {log : List (Call × Ret)} (htrace : blockMachine.Trace h log) :
    Inv h := by
  refine htrace.invariant Inv (fun _ hinit ↦ init_inv hinit) ?_
  intro h call r h' hinv hok hexec
  obtain ⟨r₁, h₁, hexec₁, hinv₁⟩ := call_inv hinv hok
  obtain ⟨-, rfl⟩ : r₁ = r ∧ h₁ = h' := by
    have heq := hexec₁.symm.trans hexec
    simpa using heq
  exact hinv₁

/-! ## Disjoint payloads -/

/-- The chunks `chunks`, found by walking from `bottom` to `BLOCK_END`, cut the block into
consecutive pieces: each address of the block lies in exactly one of them. -/
structure Partition (b : BlockT) (chunks : List ℕ) : Prop where
  walk : blockChunks b = some chunks
  inside : ∀ c ∈ chunks, ∃ n, chunkNext b c = some n ∧
    b.data ≤ c ∧ c + unitSize ≤ n ∧ n ≤ blockEnd b
  cover : ∀ a, b.data ≤ a → a < blockEnd b →
    ∃! c, c ∈ chunks ∧ c ≤ a ∧ ∃ n, chunkNext b c = some n ∧ a < n

theorem partition_of_tiling (h : Tiling b heads) :
    ∃ chunks, Partition b chunks ∧ ∀ c, c ∈ chunks ↔ c ∈ heads := by
  obtain ⟨cs, hcs, hmem⟩ := blockChunks_spec h
  refine ⟨cs, ⟨hcs, ?_, ?_⟩, hmem⟩
  · intro c hc
    have hc' := (hmem c).mp hc
    exact ⟨_, h.chunkNext_eq hc', h.ge_data c hc', h.add_unit_le_next hc', h.next_le_end hc'⟩
  · intro a hge hlt
    obtain ⟨p, hp, hpa, hap⟩ := h.exists_cover hge hlt
    refine ⟨p, ⟨(hmem p).mpr hp, hpa, _, h.chunkNext_eq hp, hap⟩, ?_⟩
    rintro d ⟨hd, hda, n, hn, han⟩
    have hd' := (hmem d).mp hd
    obtain rfl : nextOf b.mem d = n := by simpa [h.chunkNext_eq hd'] using hn
    exact h.cover_unique hd' hp hda han hpa hap

/-- A block of 200 headers, its data at address 32. -/
def smallBlock : BlockT := (formatBlock (newBlock 3200 32 fun _ ↦ 0)).get (by decide)

def smallHeap : Heap where
  block := smallBlock
  live := fun _ ↦ none

theorem smallHeap_init : fromInit smallHeap := by
  refine ⟨⟨3200, 8, fun _ ↦ 0, by decide, ?_⟩, rfl⟩
  have hsize : u4 (alignSize 3200) = 3200 := u4_of_lt (by decide)
  rw [blockInit, if_neg (by decide), if_neg (by decide), hsize]
  exact Option.bind_eq_some_iff.mpr ⟨smallBlock, (Option.some_get _).symm, rfl⟩

/-- Two allocations and the release of the first. -/
def smallCalls : List Call := [.malloc 1, .malloc 20, .free 2736]

theorem smallCalls_run : (blockMachine.execAll smallHeap smallCalls).isSome := by with_unfolding_all decide

end CPractice.MemPool
