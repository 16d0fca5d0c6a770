import CPractice.MemPool.Model
import Mathlib.Data.Set.Insert
import Mathlib.Tactic.Common

/-!
# The layout of a block

`Layout b heads live` says how a block is cut: `heads` is the set of header addresses, each chunk
runs to the next header or to `BLOCK_END`, and the chunks whose free bit is clear are those behind
the live pointers.  The back link of a chunk is only known to lie in the extent of the chunk before
it.  It is the header of that chunk as long as no merge has moved the boundary, and
a former header inside its payload afterwards; either way the word `block_free` may write through
it is never the header of another chunk.

Four elementary changes keep the layout, and every operation is a sequence of them: a store that
hits no header, a change of a free bit, a split, and the absorption of a chunk by the one before it.
-/

namespace CPractice.MemPool

/-- The address in `chunk->next`. -/
def nextOf (mem : ℕ → ℕ) (chunk : ℕ) : ℕ := mem (nextField chunk) / 2 * 2

/-- The free bit in `chunk->next`. -/
def freeOf (mem : ℕ → ℕ) (chunk : ℕ) : ℕ := mem (nextField chunk) % 2

/-- The chunks with headers `heads` tile the block, and back links stay inside the chunk before. -/
structure Tiling (b : BlockT) (heads : Set ℕ) : Prop where
  size_lt : b.size < 4294967296
  size_align : b.size % 16 = 0
  data_pos : 0 < b.data
  data_align : b.data % 8 = 0
  bottom_eq : b.bottom = b.data
  data_mem : b.data ∈ heads
  ge_data : ∀ c ∈ heads, b.data ≤ c
  lt_end : ∀ c ∈ heads, c < blockEnd b
  align : ∀ c ∈ heads, (c - b.data) % 16 = 0
  lt_next : ∀ c ∈ heads, c < nextOf b.mem c
  next_mem : ∀ c ∈ heads, nextOf b.mem c ≠ blockEnd b → nextOf b.mem c ∈ heads
  gap : ∀ c ∈ heads, ∀ d ∈ heads, c < d → nextOf b.mem c ≤ d
  pre_data : b.mem (preField b.data) = 0
  pre_in : ∀ c ∈ heads, nextOf b.mem c ≠ blockEnd b →
    c ≤ b.mem (preField (nextOf b.mem c)) ∧
      b.mem (preField (nextOf b.mem c)) < nextOf b.mem c ∧
      (b.mem (preField (nextOf b.mem c)) - b.data) % 16 = 0

/-- A tiled block whose chunks with a clear free bit are those behind the live pointers. -/
structure Layout (b : BlockT) (heads : Set ℕ) (live : ℕ → Option ℕ) : Prop
    extends Tiling b heads where
  live_iff : ∀ c ∈ heads, freeOf b.mem c = 0 ↔ (live (c + unitSize)).isSome
  live_head : ∀ ptr size, live ptr = some size → unitSize ≤ ptr ∧ ptr - unitSize ∈ heads
  live_fits : ∀ ptr size, live ptr = some size →
    ptr + size ≤ nextOf b.mem (ptr - unitSize) ∧ 0 < size

namespace Tiling

variable {b : BlockT} {heads : Set ℕ} {c d a : ℕ}

/-! ## Geometry -/

theorem next_le_end (h : Tiling b heads) (hc : c ∈ heads) :
    nextOf b.mem c ≤ blockEnd b := by
  by_cases hend : nextOf b.mem c = blockEnd b
  · exact hend.le
  · exact (h.lt_end _ (h.next_mem c hc hend)).le

theorem next_align (h : Tiling b heads) (hc : c ∈ heads) :
    (nextOf b.mem c - b.data) % 16 = 0 := by
  by_cases hend : nextOf b.mem c = blockEnd b
  · have hsize := h.size_align
    simpa [hend, blockEnd] using hsize
  · exact h.align _ (h.next_mem c hc hend)

theorem add_unit_le_next (h : Tiling b heads) (hc : c ∈ heads) :
    c + 16 ≤ nextOf b.mem c := by
  have hlt := h.lt_next c hc
  have hge := h.ge_data c hc
  have hc16 := h.align c hc
  have hn16 := h.next_align hc
  omega

theorem add_unit_le_end (h : Tiling b heads) (hc : c ∈ heads) : c + 16 ≤ blockEnd b :=
  (h.add_unit_le_next hc).trans (h.next_le_end hc)

theorem head_pos (h : Tiling b heads) (hc : c ∈ heads) : 0 < c :=
  h.data_pos.trans_le (h.ge_data c hc)

theorem head_even (h : Tiling b heads) (hc : c ∈ heads) : c % 2 = 0 := by
  have hdata := h.data_align
  have hge := h.ge_data c hc
  have halign := h.align c hc
  omega

theorem inBlock_pre (h : Tiling b heads) (hc : c ∈ heads) : inBlock b (preField c) := by
  have hge := h.ge_data c hc
  have hend := h.add_unit_le_end hc
  have halign := h.align c hc
  unfold inBlock preField
  omega

theorem inBlock_next (h : Tiling b heads) (hc : c ∈ heads) : inBlock b (nextField c) := by
  have hge := h.ge_data c hc
  have hend := h.add_unit_le_end hc
  have halign := h.align c hc
  unfold inBlock nextField
  omega

/-- Header words of different chunks are different words. -/
theorem next_ne_pre (h : Tiling b heads) (hc : c ∈ heads) (hd : d ∈ heads) :
    nextField c ≠ preField d := by
  have hcGe := h.ge_data c hc
  have hdGe := h.ge_data d hd
  have hcAlign := h.align c hc
  have hdAlign := h.align d hd
  unfold nextField preField
  omega

theorem next_injective {c d : ℕ} (hne : c ≠ d) : nextField c ≠ nextField d := by
  unfold nextField
  omega

/-- Only the chunk before a chunk has its header as `next`. -/
theorem next_inj (h : Tiling b heads) (hc : c ∈ heads) (hd : d ∈ heads)
    (heq : nextOf b.mem c = nextOf b.mem d) : c = d := by
  have hcLt := h.lt_next c hc
  have hdLt := h.lt_next d hd
  rcases lt_trichotomy c d with hlt | heq' | hgt
  · have hgap := h.gap c hc d hd hlt
    omega
  · exact heq'
  · have hgap := h.gap d hd c hc hgt
    omega

/-- A chunk that is not the first one follows some chunk. -/
theorem exists_before (h : Tiling b heads) (hc : c ∈ heads) (hne : c ≠ b.data) :
    ∃ p ∈ heads, nextOf b.mem p = c := by
  -- Walk from the first chunk: the distance to `c` shrinks at each step.
  have hwalk : ∀ n, ∀ d ∈ heads, d < c → c - d ≤ n → ∃ p ∈ heads, nextOf b.mem p = c := by
    intro n
    induction n with
    | zero => intro d _ hlt hle; omega
    | succ n ih =>
        intro d hd hlt hle
        have hgap := h.gap d hd c hc hlt
        by_cases heq : nextOf b.mem d = c
        · exact ⟨d, hd, heq⟩
        · have hcEnd := h.lt_end c hc
          have hmem := h.next_mem d hd (by omega)
          have hdLt := h.lt_next d hd
          exact ih _ hmem (by omega) (by omega)
  have hge := h.ge_data c hc
  exact hwalk (c - b.data) b.data h.data_mem (by omega) le_rfl

/-- Every address of the block lies in a chunk. -/
theorem exists_cover (h : Tiling b heads) (hge : b.data ≤ a) (hlt : a < blockEnd b) :
    ∃ p ∈ heads, p ≤ a ∧ a < nextOf b.mem p := by
  have hwalk : ∀ n, ∀ d ∈ heads, d ≤ a → a - d < n → ∃ p ∈ heads, p ≤ a ∧ a < nextOf b.mem p := by
    intro n
    induction n with
    | zero => intro d _ _ hlt'; omega
    | succ n ih =>
        intro d hd hle hn
        by_cases hin : a < nextOf b.mem d
        · exact ⟨d, hd, hle, hin⟩
        · have hmem := h.next_mem d hd (by omega)
          have hdLt := h.lt_next d hd
          exact ih _ hmem (by omega) (by omega)
  exact hwalk _ b.data h.data_mem hge (Nat.lt_succ_self _)

/-- The chunks do not overlap. -/
theorem cover_unique (h : Tiling b heads) (hc : c ∈ heads) (hd : d ∈ heads)
    (hca : c ≤ a) (hac : a < nextOf b.mem c) (hda : d ≤ a) (had : a < nextOf b.mem d) : c = d := by
  rcases lt_trichotomy c d with hlt | heq | hgt
  · have hgap := h.gap c hc d hd hlt
    omega
  · exact heq
  · have hgap := h.gap d hd c hc hgt
    omega

/-! ## Reading headers -/

theorem chunkNext_eq (h : Tiling b heads) (hc : c ∈ heads) :
    chunkNext b c = some (nextOf b.mem c) := by
  simp [chunkNext, loadWord, h.inBlock_next hc, nextOf]

theorem getFreebit_eq (h : Tiling b heads) (hc : c ∈ heads) :
    getFreebit b c = some (freeOf b.mem c) := by
  simp [getFreebit, loadWord, h.inBlock_next hc, freeOf]

theorem chunkMemSize_eq (h : Tiling b heads) (hc : c ∈ heads) :
    chunkMemSize b c = some ((nextOf b.mem c - c) / 16) := by
  have hpos := h.head_pos hc
  have hlt := h.lt_next c hc
  have hend := h.next_le_end hc
  have hge := h.ge_data c hc
  have hsize := h.size_lt
  have hbound : (nextOf b.mem c - c) / 16 < 4294967296 := by
    unfold blockEnd at hend
    omega
  have hne : c ≠ 0 := by omega
  simp [chunkMemSize, hne, h.chunkNext_eq hc, ptrOffset, hlt, unitSize, u4_of_lt hbound]

end Tiling

/-! ## Elementary changes -/

/-- The parts of a block that its layout reads. -/
structure SameFrame (b b' : BlockT) : Prop where
  size : b'.size = b.size
  data : b'.data = b.data
  bottom : b'.bottom = b.bottom

namespace SameFrame

variable {b b' b'' : BlockT}

theorem blockEnd_eq (h : SameFrame b b') : blockEnd b' = blockEnd b := by
  simp [blockEnd, h.size, h.data]

theorem inBlock_iff (h : SameFrame b b') (a : ℕ) : inBlock b' a ↔ inBlock b a := by
  simp [inBlock, h.blockEnd_eq, h.data]

theorem trans (h : SameFrame b b') (h' : SameFrame b' b'') : SameFrame b b'' :=
  ⟨h'.size.trans h.size, h'.data.trans h.data, h'.bottom.trans h.bottom⟩

end SameFrame

theorem writeWord_sameFrame (b : BlockT) (a word : ℕ) : SameFrame b (writeWord b a word) :=
  ⟨rfl, rfl, rfl⟩

theorem addFree_sameFrame (b : BlockT) (size : ℕ) : SameFrame b (addFree b size) := ⟨rfl, rfl, rfl⟩

namespace Tiling

variable {b b' : BlockT} {heads : Set ℕ} {c n : ℕ}

/-- A change that keeps every chunk's extent and back link keeps the tiling. -/
theorem of_agree (h : Tiling b heads) (hframe : SameFrame b b')
    (hnext : ∀ c ∈ heads, nextOf b'.mem c = nextOf b.mem c)
    (hpre : ∀ c ∈ heads, b'.mem (preField c) = b.mem (preField c)) : Tiling b' heads where
  size_lt := hframe.size ▸ h.size_lt
  size_align := hframe.size ▸ h.size_align
  data_pos := hframe.data ▸ h.data_pos
  data_align := hframe.data ▸ h.data_align
  bottom_eq := by rw [hframe.bottom, hframe.data, h.bottom_eq]
  data_mem := hframe.data ▸ h.data_mem
  ge_data := hframe.data ▸ h.ge_data
  lt_end := by simpa [hframe.blockEnd_eq] using h.lt_end
  align := hframe.data ▸ h.align
  lt_next := fun c hc ↦ (h.lt_next c hc).trans_eq (hnext c hc).symm
  next_mem := by
    intro c hc hend
    rw [hnext c hc, hframe.blockEnd_eq] at hend
    rw [hnext c hc]
    exact h.next_mem c hc hend
  gap := fun c hc d hd hlt ↦ (hnext c hc).trans_le (h.gap c hc d hd hlt)
  pre_data := by rw [hframe.data, hpre _ h.data_mem, h.pre_data]
  pre_in := by
    intro c hc hend
    rw [hnext c hc, hframe.blockEnd_eq] at hend
    rw [hnext c hc, hpre _ (h.next_mem c hc hend), hframe.data]
    exact h.pre_in c hc hend

/-- Cutting the chunk `c` at `n`: the new chunk points back to `c`, the chunk after it to `n`. -/
theorem split (h : Tiling b heads) (hframe : SameFrame b b') (hc : c ∈ heads)
    (hcn : c < n) (hnNext : n < nextOf b.mem c) (halign : (n - b.data) % 16 = 0)
    (hnextC : nextOf b'.mem c = n) (hnextN : nextOf b'.mem n = nextOf b.mem c)
    (hnext : ∀ d ∈ heads, d ≠ c → nextOf b'.mem d = nextOf b.mem d)
    (hpreN : b'.mem (preField n) = c)
    (hpreNext : nextOf b.mem c ≠ blockEnd b → b'.mem (preField (nextOf b.mem c)) = n)
    (hpre : ∀ d ∈ heads, d ≠ nextOf b.mem c → b'.mem (preField d) = b.mem (preField d)) :
    Tiling b' (insert n heads) := by
  have hgeC := h.ge_data c hc
  have hend := h.next_le_end hc
  have hbe := hframe.blockEnd_eq
  have hnNotMem : n ∉ heads := by
    intro hmem
    have hgap := h.gap c hc n hmem hcn
    omega
  have hdata : b.data ≠ nextOf b.mem c := by omega
  have hcases : ∀ d ∈ insert n heads, d = n ∨ (d ∈ heads ∧ d = c) ∨ (d ∈ heads ∧ d ≠ c) := by
    intro d hd
    rcases hd with rfl | hd
    · exact .inl rfl
    · by_cases heq : d = c
      · exact .inr (.inl ⟨hd, heq⟩)
      · exact .inr (.inr ⟨hd, heq⟩)
  refine
    { size_lt := hframe.size ▸ h.size_lt
      size_align := hframe.size ▸ h.size_align
      data_pos := hframe.data ▸ h.data_pos
      data_align := hframe.data ▸ h.data_align
      bottom_eq := by rw [hframe.bottom, hframe.data, h.bottom_eq]
      data_mem := .inr (hframe.data ▸ h.data_mem)
      pre_data := by rw [hframe.data, hpre _ h.data_mem hdata, h.pre_data]
      ge_data := ?_, lt_end := ?_, align := ?_, lt_next := ?_, next_mem := ?_, gap := ?_
      pre_in := ?_ }
  · intro d hd
    rw [hframe.data]
    rcases hd with rfl | hd
    · omega
    · exact h.ge_data d hd
  · intro d hd
    rw [hbe]
    rcases hd with rfl | hd
    · omega
    · exact h.lt_end d hd
  · intro d hd
    rw [hframe.data]
    rcases hd with rfl | hd
    · exact halign
    · exact h.align d hd
  · intro d hd
    rcases hcases d hd with rfl | ⟨hd, rfl⟩ | ⟨hd, hne⟩
    · rwa [hnextN]
    · rwa [hnextC]
    · rw [hnext d hd hne]
      exact h.lt_next d hd
  · intro d hd hne'
    rw [hbe] at hne'
    rcases hcases d hd with rfl | ⟨hd, rfl⟩ | ⟨hd, hne⟩
    · rw [hnextN] at hne' ⊢
      exact .inr (h.next_mem c hc hne')
    · rw [hnextC]
      exact .inl rfl
    · rw [hnext d hd hne] at hne' ⊢
      exact .inr (h.next_mem d hd hne')
  · intro d hd e he hlt
    rcases hcases d hd with rfl | ⟨hdOld, rfl⟩ | ⟨hdOld, hne⟩
    · rw [hnextN]
      rcases he with rfl | he
      · omega
      · exact h.gap c hc e he (by omega)
    · rw [hnextC]
      rcases he with rfl | he
      · exact le_rfl
      · have hgap := h.gap d hdOld e he hlt
        omega
    · rw [hnext d hdOld hne]
      rcases he with rfl | he
      · rcases lt_or_gt_of_ne hne with hdc | hdc
        · exact (h.gap d hdOld c hc hdc).trans hcn.le
        · have hgap := h.gap c hc d hdOld hdc
          omega
      · exact h.gap d hdOld e he hlt
  · intro d hd hne'
    rw [hbe] at hne'
    rw [hframe.data]
    rcases hcases d hd with rfl | ⟨hd, rfl⟩ | ⟨hd, hne⟩
    · rw [hnextN] at hne' ⊢
      rw [hpreNext hne']
      exact ⟨le_rfl, hnNext, halign⟩
    · rw [hnextC, hpreN]
      exact ⟨le_rfl, hcn, h.align d hd⟩
    · rw [hnext d hd hne] at hne' ⊢
      have hne'' : nextOf b.mem d ≠ nextOf b.mem c := fun heq ↦ hne (h.next_inj hd hc heq)
      rw [hpre _ (h.next_mem d hd hne') hne'']
      exact h.pre_in d hd hne'

/-- The chunk `c` absorbs the chunk `n` after it.  The back link of the chunk behind them is left
as it was: it lies in what was `n`. -/
theorem absorb (h : Tiling b heads) (hframe : SameFrame b b') (hc : c ∈ heads) (hn : n ∈ heads)
    (hcn : nextOf b.mem c = n) (hnextC : nextOf b'.mem c = nextOf b.mem n)
    (hnext : ∀ d ∈ heads, d ≠ c → d ≠ n → nextOf b'.mem d = nextOf b.mem d)
    (hpre : ∀ d ∈ heads, b'.mem (preField d) = b.mem (preField d)) :
    Tiling b' (heads \ {n}) := by
  have hbe := hframe.blockEnd_eq
  have hltC := h.lt_next c hc
  have hltN := h.lt_next n hn
  have hgeC := h.ge_data c hc
  have hnextNe : ∀ d ∈ heads, d ≠ c → nextOf b.mem d ≠ n :=
    fun d hd hne heq ↦ hne (h.next_inj hd hc (heq.trans hcn.symm))
  refine
    { size_lt := hframe.size ▸ h.size_lt
      size_align := hframe.size ▸ h.size_align
      data_pos := hframe.data ▸ h.data_pos
      data_align := hframe.data ▸ h.data_align
      bottom_eq := by rw [hframe.bottom, hframe.data, h.bottom_eq]
      data_mem := ⟨hframe.data ▸ h.data_mem, by
        rw [hframe.data]
        have hne : b.data ≠ n := by omega
        simpa using hne⟩
      pre_data := by rw [hframe.data, hpre _ h.data_mem, h.pre_data]
      ge_data := fun d hd ↦ hframe.data ▸ h.ge_data d hd.1
      lt_end := fun d hd ↦ hbe ▸ h.lt_end d hd.1
      align := fun d hd ↦ hframe.data ▸ h.align d hd.1
      lt_next := ?_, next_mem := ?_, gap := ?_, pre_in := ?_ }
  · rintro d ⟨hd, hdn⟩
    by_cases hdc : d = c
    · subst hdc
      rw [hnextC]
      omega
    · rw [hnext d hd hdc hdn]
      exact h.lt_next d hd
  · rintro d ⟨hd, hdn⟩ hne
    rw [hbe] at hne
    by_cases hdc : d = c
    · subst hdc
      rw [hnextC] at hne ⊢
      exact ⟨h.next_mem n hn hne, by simpa using hltN.ne'⟩
    · rw [hnext d hd hdc hdn] at hne ⊢
      exact ⟨h.next_mem d hd hne, hnextNe d hd hdc⟩
  · rintro d ⟨hd, hdn⟩ e ⟨he, hen⟩ hlt
    by_cases hdc : d = c
    · subst hdc
      rw [hnextC]
      have hgap := h.gap d hd e he hlt
      have hen' : e ≠ n := hen
      exact h.gap n hn e he (by omega)
    · rw [hnext d hd hdc hdn]
      exact h.gap d hd e he hlt
  · rintro d ⟨hd, hdn⟩ hne
    rw [hbe] at hne
    rw [hframe.data]
    by_cases hdc : d = c
    · subst hdc
      rw [hnextC] at hne ⊢
      rw [hpre _ (h.next_mem n hn hne)]
      obtain ⟨hge, hlt, halign⟩ := h.pre_in n hn hne
      exact ⟨by omega, hlt, halign⟩
    · rw [hnext d hd hdc hdn] at hne ⊢
      rw [hpre _ (h.next_mem d hd hne)]
      exact h.pre_in d hd hne

end Tiling

end CPractice.MemPool
