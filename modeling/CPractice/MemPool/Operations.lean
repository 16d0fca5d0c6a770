import CPractice.MemPool.Layout

/-!
# What `block_malloc` and `block_free` do to the layout

Each operation is inverted once into the memory it leaves behind (`TakenWhole`, `SplitAt`,
`AbsorbedBy`), and each of these is shown to keep the layout.  `block_free` follows the back link of
the released chunk without knowing whether it still is a header, so its second merge has two cases.
-/

namespace CPractice.MemPool

variable {b b' : BlockT} {heads : Set ℕ} {live : ℕ → Option ℕ} {c n a ptr size : ℕ}

/-! ## Stores -/

theorem loadWord_eq (h : inBlock b a) : loadWord b a = some (b.mem a) := if_pos h

theorem storeWord_eq (h : inBlock b a) (word : ℕ) : storeWord b a word = some (writeWord b a word) :=
  if_pos h

@[simp]
theorem inBlock_writeWord (word a' : ℕ) : inBlock (writeWord b a word) a' ↔ inBlock b a' :=
  (writeWord_sameFrame b a word).inBlock_iff a'

@[simp]
theorem blockEnd_writeWord (word : ℕ) : blockEnd (writeWord b a word) = blockEnd b := rfl

@[simp]
theorem writeWord_mem (word : ℕ) : (writeWord b a word).mem = Function.update b.mem a word := rfl

@[simp]
theorem writeWord_stores (word : ℕ) : (writeWord b a word).stores = a :: b.stores := rfl

@[simp]
theorem addFree_mem (amount : ℕ) : (addFree b amount).mem = b.mem := rfl

@[simp]
theorem addFree_stores (amount : ℕ) : (addFree b amount).stores = b.stores := rfl

theorem addFree_lt (amount : ℕ) : (addFree b amount).free < 4294967296 := u4_lt _

theorem setFreebit_eq (h : inBlock b (nextField c)) :
    setFreebit b c = some (writeWord b (nextField c) (nextOf b.mem c + 1)) := by
  simp [setFreebit, loadWord_eq h, storeWord_eq h, nextOf]

theorem clrFreebit_eq (h : inBlock b (nextField c)) :
    clrFreebit b c = some (writeWord b (nextField c) (nextOf b.mem c)) := by
  simp [clrFreebit, loadWord_eq h, storeWord_eq h, nextOf]

theorem chunkNext_eq (h : inBlock b (nextField c)) : chunkNext b c = some (nextOf b.mem c) := by
  simp [chunkNext, loadWord_eq h, nextOf]

theorem getFreebit_eq (h : inBlock b (nextField c)) : getFreebit b c = some (freeOf b.mem c) := by
  simp [getFreebit, loadWord_eq h, freeOf]

/-! ## The search loop -/

/-- What the search may return: nothing, or a free chunk of at least `size` headers. -/
def Fits (b : BlockT) (heads : Set ℕ) (size chunk : ℕ) : Prop :=
  chunk = 0 ∨ (chunk ∈ heads ∧ freeOf b.mem chunk = 1 ∧ size ≤ (nextOf b.mem chunk - chunk) / 16)

theorem bestFit_spec (h : Tiling b heads) (size fuel : ℕ) :
    ∀ cur chunk chunkSize, (cur ∈ heads ∨ cur = blockEnd b) → blockEnd b - cur < 16 * fuel →
      Fits b heads size chunk →
        ∃ r, bestFit b size fuel cur chunk chunkSize = some r ∧ Fits b heads size r := by
  induction fuel with
  | zero => intro cur _ _ _ hlt; omega
  | succ fuel ih =>
      intro cur chunk chunkSize hcur hlt hfits
      by_cases hend : cur = blockEnd b
      · exact ⟨chunk, by simp [bestFit, hend], hfits⟩
      · have hmem : cur ∈ heads := hcur.resolve_right hend
        have hnext : nextOf b.mem cur ∈ heads ∨ nextOf b.mem cur = blockEnd b :=
          (em (nextOf b.mem cur = blockEnd b)).symm.imp (h.next_mem cur hmem) id
        have hstep := h.add_unit_le_next hmem
        have hle := h.next_le_end hmem
        have hcurEnd := h.lt_end cur hmem
        by_cases hbetter : betterFit (freeOf b.mem cur) ((nextOf b.mem cur - cur) / 16) size chunk
            chunkSize
        · have hfree : freeOf b.mem cur = 1 := by
            have hne := hbetter.1
            unfold freeOf at hne ⊢
            omega
          obtain ⟨r, hr, hspec⟩ := ih (nextOf b.mem cur) cur ((nextOf b.mem cur - cur) / 16) hnext
            (by omega) (.inr ⟨hmem, hfree, hbetter.2.1⟩)
          refine ⟨r, ?_, hspec⟩
          simp [bestFit, hend, h.chunkMemSize_eq hmem, h.getFreebit_eq hmem, h.chunkNext_eq hmem,
            hbetter, hr]
        · obtain ⟨r, hr, hspec⟩ := ih (nextOf b.mem cur) chunk chunkSize hnext (by omega) hfits
          refine ⟨r, ?_, hspec⟩
          simp [bestFit, hend, h.chunkMemSize_eq hmem, h.getFreebit_eq hmem, h.chunkNext_eq hmem,
            hbetter, hr]

/-! ## Taking a chunk -/

/-- The chunk `c` was handed out whole. -/
structure TakenWhole (b b' : BlockT) (c : ℕ) : Prop where
  frame : SameFrame b b'
  mem_eq : b'.mem = Function.update b.mem (nextField c) (nextOf b.mem c)
  stores_eq : b'.stores = nextField c :: b.stores

/-- The words a split of `c` at `n` writes. -/
def splitStores (b : BlockT) (c n : ℕ) : Set ℕ :=
  {a | a = nextField c ∨ a = nextField n ∨ a = preField n ∨
    (a = preField (nextOf b.mem c) ∧ nextOf b.mem c ≠ blockEnd b)}

/-- The chunk `c` was cut at `n`, and the part from `n` handed out. -/
structure SplitAt (b b' : BlockT) (c n : ℕ) : Prop where
  frame : SameFrame b b'
  next_chunk : b'.mem (nextField c) = n + 1
  next_ret : b'.mem (nextField n) = nextOf b.mem c
  pre_ret : b'.mem (preField n) = c
  pre_next : nextOf b.mem c ≠ blockEnd b → b'.mem (preField (nextOf b.mem c)) = n
  agree : ∀ a ∉ splitStores b c n, b'.mem a = b.mem a
  stores_sub : ∀ a ∈ b'.stores, a ∈ splitStores b c n ∨ a ∈ b.stores

theorem takeChunk_whole (h : Tiling b heads) (hc : c ∈ heads)
    (hsize : size ≤ (nextOf b.mem c - c) / 16) (hsmall : (nextOf b.mem c - c) / 16 < size + 48) :
    ∃ b', takeChunk b c size = some (c + unitSize, b') ∧ TakenWhole b b' c ∧
      b'.free = u4Sub b.free size := by
  have hbound : (nextOf b.mem c - c) / 16 < 4294967296 := by
    have hend := h.next_le_end hc
    have hge := h.ge_data c hc
    have hlt := h.size_lt
    unfold blockEnd at hend
    omega
  have hcond : u4Sub ((nextOf b.mem c - c) / 16) size < minChunkSize := by
    rw [u4Sub_of_le hsize hbound]
    unfold minChunkSize unitSize
    omega
  refine ⟨{ writeWord b (nextField c) (nextOf b.mem c) with free := u4Sub b.free size }, ?_,
    ⟨⟨rfl, rfl, rfl⟩, rfl, rfl⟩, rfl⟩
  have hpick : pickRet b c size = some (c, b) :=
    Option.bind_eq_some_iff.mpr ⟨_, h.chunkMemSize_eq hc, if_pos hcond⟩
  refine Option.bind_eq_some_iff.mpr ⟨_, hpick, ?_⟩
  refine Option.bind_eq_some_iff.mpr ⟨_, clrFreebit_eq (h.inBlock_next hc), ?_⟩
  exact Option.bind_eq_some_iff.mpr ⟨_, if_pos rfl, rfl⟩

theorem even_div_mul {w : ℕ} (h : w % 2 = 0) : w / 2 * 2 = w := by omega

/-- The chunk behind, if there is one, is told of the new chunk. -/
theorem setPre_spec {next : ℕ} (ret : ℕ) (hin : next ≠ blockEnd b → inBlock b (preField next)) :
    ∃ b', setPre b next ret = some b' ∧ SameFrame b b' ∧ b'.free = b.free ∧
      b'.mem = (if next = blockEnd b then b.mem else Function.update b.mem (preField next) ret) ∧
      ∀ a ∈ b'.stores, (a = preField next ∧ next ≠ blockEnd b) ∨ a ∈ b.stores := by
  by_cases hlast : next = blockEnd b
  · exact ⟨b, if_pos hlast, ⟨rfl, rfl, rfl⟩, rfl, (if_pos hlast).symm, fun a ha ↦ .inr ha⟩
  · refine ⟨writeWord b (preField next) ret, ?_, writeWord_sameFrame _ _ _, rfl, (if_neg hlast).symm, ?_⟩
    · rw [setPre, if_neg hlast, storeWord_eq (hin hlast)]
    · intro a ha
      exact (List.mem_cons.mp ha).imp (fun heq ↦ ⟨heq, hlast⟩) id

/-- The links around a chunk `n` that has been cut off the chunk `c`. -/
theorem linkRet_spec (hne : c ≠ n) (hapart : nextField c ≠ preField n) (heven : n % 2 = 0)
    (hinPre : inBlock b (preField n)) (hinC : inBlock b (nextField c))
    (hinNext : nextOf b.mem c ≠ blockEnd b → inBlock b (preField (nextOf b.mem c))) :
    ∃ b', linkRet b c n = some b' ∧ SameFrame b b' ∧ b'.free = b.free ∧
      b'.mem = Function.update (if nextOf b.mem c = blockEnd b then Function.update b.mem (preField n) c
        else Function.update (Function.update b.mem (preField n) c) (preField (nextOf b.mem c)) n)
          (nextField c) (n + 1) ∧
      ∀ a ∈ b'.stores, a = nextField c ∨ a = preField n ∨
        (a = preField (nextOf b.mem c) ∧ nextOf b.mem c ≠ blockEnd b) ∨ a ∈ b.stores := by
  have hnext : nextOf (writeWord b (preField n) c).mem c = nextOf b.mem c := by
    rw [nextOf, writeWord_mem, Function.update_of_ne hapart, nextOf]
  have hchunkNext : chunkNext (writeWord b (preField n) c) c = some (nextOf b.mem c) := by
    rw [chunkNext_eq (by simpa using hinC), hnext]
  obtain ⟨b₂, hset, hframe₂, hfree₂, hmem₂, hstores₂⟩ :=
    setPre_spec (b := writeWord b (preField n) c) n (by simpa using hinNext)
  have hframe : SameFrame b b₂ := (writeWord_sameFrame _ _ _).trans hframe₂
  have hinC₂ : inBlock b₂ (nextField c) := (hframe.inBlock_iff _).mpr hinC
  refine ⟨writeWord (writeWord b₂ (nextField c) n) (nextField c) (n + 1), ?_,
    hframe.trans ⟨rfl, rfl, rfl⟩, hfree₂, ?_, ?_⟩
  · rw [linkRet, if_neg hne]
    refine Option.bind_eq_some_iff.mpr ⟨_, storeWord_eq hinPre c, ?_⟩
    refine Option.bind_eq_some_iff.mpr ⟨_, hchunkNext, ?_⟩
    refine Option.bind_eq_some_iff.mpr ⟨_, hset, ?_⟩
    refine Option.bind_eq_some_iff.mpr ⟨_, storeWord_eq hinC₂ n, ?_⟩
    rw [setFreebit_eq (by simpa using hinC₂)]
    simp [nextOf, even_div_mul heven]
  · rw [writeWord_mem, writeWord_mem, Function.update_idem, hmem₂]
    rfl
  · intro a ha
    simp only [writeWord_stores, List.mem_cons] at ha
    rcases ha with hfield | hfield | hold
    · exact .inl hfield
    · exact .inl hfield
    · rcases hstores₂ a hold with hpre | hpre
      · exact .inr (.inr (.inl hpre))
      · exact (List.mem_cons.mp hpre).elim (fun heq ↦ .inr (.inl heq)) fun hin ↦ .inr (.inr (.inr hin))

/-- The chunk is cut at its tail: `ret` starts `size` units before the next chunk. -/
theorem Tiling.pickRet_eq (h : Tiling b heads) (hc : c ∈ heads) (size : ℕ)
    (hsize : size + 48 ≤ (nextOf b.mem c - c) / 16) (hn : n = nextOf b.mem c - size * 16)
    (hin : inBlock b (nextField n)) :
    pickRet b c size = some (n, writeWord b (nextField n) (b.mem (nextField c))) := by
  have hinC := h.inBlock_next hc
  have hend := h.next_le_end hc
  have hge := h.ge_data c hc
  have hsizeLt := h.size_lt
  have hbound : (nextOf b.mem c - c) / 16 < 4294967296 := by
    unfold blockEnd at hend
    omega
  have hcond : ¬ u4Sub ((nextOf b.mem c - c) / 16) size < minChunkSize := by
    rw [u4Sub_of_le (by omega) hbound]
    unfold minChunkSize unitSize
    omega
  refine Option.bind_eq_some_iff.mpr ⟨_, h.chunkMemSize_eq hc, ?_⟩
  rw [if_neg hcond]
  refine Option.bind_eq_some_iff.mpr ⟨_, h.chunkNext_eq hc, ?_⟩
  refine Option.bind_eq_some_iff.mpr ⟨_, loadWord_eq hinC, ?_⟩
  have hret : nextOf b.mem c - size * unitSize = n := hn.symm
  rw [hret]
  exact Option.bind_eq_some_iff.mpr ⟨_, storeWord_eq hin _, rfl⟩

theorem takeChunk_split (h : Tiling b heads) (hc : c ∈ heads) (size : ℕ)
    (hsize : size + 48 ≤ (nextOf b.mem c - c) / 16) (hpos : 0 < size)
    (hn : n = nextOf b.mem c - size * 16) :
    ∃ b', takeChunk b c size = some (n + unitSize, b') ∧ SplitAt b b' c n ∧
      b'.free = u4Sub b.free size := by
  have hlt := h.lt_next c hc
  have hend := h.next_le_end hc
  have hge := h.ge_data c hc
  have hc16 := h.align c hc
  have hn16 := h.next_align hc
  have hsizeLt := h.size_lt
  have heven := h.head_even hc
  have hcn : c + 16 ≤ n := by omega
  have hnAlign : (n - b.data) % 16 = 0 := by omega
  have hnEven : n % 2 = 0 := by omega
  have hnEnd : n + 16 ≤ nextOf b.mem c := by omega
  have hinNext : inBlock b (nextField n) := by
    unfold inBlock nextField
    omega
  have hinPre : inBlock b (preField n) := by
    unfold inBlock preField
    omega
  have hinC := h.inBlock_next hc
  have hnextPreNe : nextField n ≠ preField n := by simp [nextField, preField]
  have hnextCPreN : nextField c ≠ preField n := by unfold nextField preField; omega
  have hnextCN : nextField c ≠ nextField n := by unfold nextField; omega
  -- The block after `ret->next` is set and cleared.
  set b₁ : BlockT := writeWord (writeWord b (nextField n) (b.mem (nextField c))) (nextField n)
    (nextOf b.mem c) with hb₁
  have hclr : clrFreebit (writeWord b (nextField n) (b.mem (nextField c))) n = some b₁ := by
    rw [clrFreebit_eq (by simpa using hinNext)]
    simp [nextOf, hb₁]
  have hmem₁ : b₁.mem = Function.update b.mem (nextField n) (nextOf b.mem c) := by simp [hb₁]
  have hframe₁ : SameFrame b b₁ := ⟨rfl, rfl, rfl⟩
  have hnext₁ : nextOf b₁.mem c = nextOf b.mem c := by
    rw [nextOf, hmem₁, Function.update_of_ne hnextCN, nextOf]
  obtain ⟨b₂, hlink, hframe₂, hfree₂, hmem₂, hstores₂⟩ := linkRet_spec (b := b₁) (c := c) (n := n)
    (by omega) hnextCPreN hnEven ((hframe₁.inBlock_iff _).mpr hinPre) ((hframe₁.inBlock_iff _).mpr hinC)
    (by
      rw [hnext₁, hframe₁.blockEnd_eq]
      exact fun hlast ↦ (hframe₁.inBlock_iff _).mpr (h.inBlock_pre (h.next_mem c hc hlast)))
  rw [hnext₁, hframe₁.blockEnd_eq, hmem₁] at hmem₂
  rw [hnext₁, hframe₁.blockEnd_eq] at hstores₂
  have hpreNext : preField (nextOf b.mem c) ≠ nextField c ∧
      preField (nextOf b.mem c) ≠ nextField n ∧ preField (nextOf b.mem c) ≠ preField n := by
    unfold preField nextField
    omega
  refine ⟨{ b₂ with free := u4Sub b₂.free size }, ?_, ?_, ?_⟩
  · rw [takeChunk]
    refine Option.bind_eq_some_iff.mpr ⟨_, h.pickRet_eq hc size hsize hn hinNext, ?_⟩
    refine Option.bind_eq_some_iff.mpr ⟨_, hclr, ?_⟩
    exact Option.bind_eq_some_iff.mpr ⟨_, hlink, rfl⟩
  · refine ⟨hframe₁.trans ⟨hframe₂.size, hframe₂.data, hframe₂.bottom⟩, ?_, ?_, ?_, ?_, ?_, ?_⟩
    · simp [hmem₂]
    · by_cases hlast : nextOf b.mem c = blockEnd b
      · simp [hmem₂, hlast, Function.update_of_ne hnextCN.symm, Function.update_of_ne hnextPreNe]
      · simp [hmem₂, hlast, Function.update_of_ne hnextCN.symm, Function.update_of_ne hnextPreNe,
          Function.update_of_ne hpreNext.2.1.symm]
    · by_cases hlast : nextOf b.mem c = blockEnd b
      · simp [hmem₂, hlast, Function.update_of_ne hnextCPreN.symm]
      · simp [hmem₂, hlast, Function.update_of_ne hnextCPreN.symm,
          Function.update_of_ne hpreNext.2.2.symm]
    · intro hlast
      simp [hmem₂, hlast, Function.update_of_ne hpreNext.1]
    · intro a ha
      simp only [splitStores, Set.mem_ofPred_eq, not_or] at ha
      obtain ⟨ha1, ha2, ha3, ha4⟩ := ha
      by_cases hlast : nextOf b.mem c = blockEnd b
      · simp [hmem₂, hlast, Function.update_of_ne ha1, Function.update_of_ne ha2,
          Function.update_of_ne ha3]
      · have ha4' : a ≠ preField (nextOf b.mem c) := fun heq ↦ ha4 ⟨heq, hlast⟩
        simp [hmem₂, hlast, Function.update_of_ne ha1, Function.update_of_ne ha2,
          Function.update_of_ne ha3, Function.update_of_ne ha4']
    · intro a ha
      rcases hstores₂ a ha with hfield | hfield | hfield | hold
      · exact .inl (.inl hfield)
      · exact .inl (.inr (.inr (.inl hfield)))
      · exact .inl (.inr (.inr (.inr hfield)))
      · have hcases : a = nextField n ∨ a ∈ b.stores := by simpa [hb₁] using hold
        exact hcases.imp (fun hfield ↦ .inr (.inl hfield)) id
  · exact congrArg (u4Sub · size) hfree₂

theorem SplitAt.agree_next (hsplit : SplitAt b b' c n) (h : Tiling b heads) (hc : c ∈ heads)
    (hcn : c + 16 ≤ n) (hnNext : n + 16 ≤ nextOf b.mem c) {d : ℕ} (hd : d ∈ heads) (hne : d ≠ c) :
    b'.mem (nextField d) = b.mem (nextField d) := by
  refine hsplit.agree _ ?_
  have hdGe := h.ge_data d hd
  have hcGe := h.ge_data c hc
  have hd16 := h.align d hd
  have hn16 := h.next_align hc
  have hgap := h.gap c hc d hd
  simp only [splitStores, Set.mem_ofPred_eq, nextField, preField]
  omega

theorem SplitAt.agree_pre (hsplit : SplitAt b b' c n) (h : Tiling b heads) (hc : c ∈ heads)
    (hcn : c + 16 ≤ n) (hnNext : n + 16 ≤ nextOf b.mem c) {d : ℕ} (hd : d ∈ heads)
    (hne : d ≠ nextOf b.mem c) :
    b'.mem (preField d) = b.mem (preField d) := by
  refine hsplit.agree _ ?_
  have hdGe := h.ge_data d hd
  have hcGe := h.ge_data c hc
  have hd16 := h.align d hd
  have hc16 := h.align c hc
  have hgap := h.gap c hc d hd
  simp only [splitStores, Set.mem_ofPred_eq, nextField, preField]
  omega

/-- Whatever a split leaves: `c` ends at `n`, the rest runs from `n` to the old end. -/
theorem SplitAt.tiling (hsplit : SplitAt b b' c n) (h : Tiling b heads) (hc : c ∈ heads)
    (hcn : c + 16 ≤ n) (hnNext : n + 16 ≤ nextOf b.mem c) (hn16 : (n - b.data) % 16 = 0) :
    Tiling b' (insert n heads) := by
  have hge := h.ge_data c hc
  have hdata := h.data_align
  have hnextEven : nextOf b.mem c % 2 = 0 := by unfold nextOf; omega
  have hnextC : nextOf b'.mem c = n := by
    rw [nextOf, hsplit.next_chunk]
    omega
  have hnextN : nextOf b'.mem n = nextOf b.mem c := by
    rw [nextOf, hsplit.next_ret]
    omega
  refine h.split hsplit.frame hc (by omega) (by omega) hn16 hnextC hnextN ?_ hsplit.pre_ret
    hsplit.pre_next ?_
  · intro d hd hne
    simp [nextOf, hsplit.agree_next h hc hcn hnNext hd hne]
  · exact fun d hd hne ↦ hsplit.agree_pre h hc hcn hnNext hd hne

theorem not_live_of_free (h : Layout b heads live) (hc : c ∈ heads) (hfree : freeOf b.mem c = 1) :
    live (c + unitSize) = none := by
  have hiff := h.live_iff c hc
  by_contra hsome
  have hzero := hiff.mpr (Option.isSome_iff_ne_none.mpr hsome)
  omega

theorem SplitAt.layout (hsplit : SplitAt b b' c n) (h : Layout b heads live) (hc : c ∈ heads)
    (hfree : freeOf b.mem c = 1) (hcn : c + 16 ≤ n) (hnNext : n + 16 ≤ nextOf b.mem c)
    (hn16 : (n - b.data) % 16 = 0) (hfits : n + 16 + size ≤ nextOf b.mem c) (hpos : 0 < size) :
    Layout b' (insert n heads) (Function.update live (n + unitSize) (some size)) := by
  have htiling := hsplit.tiling h.toTiling hc hcn hnNext hn16
  have hnone := not_live_of_free h hc hfree
  have hnNotMem : n ∉ heads := by
    intro hmem
    have hgap := h.gap c hc n hmem (by omega)
    omega
  have hnextEven : nextOf b.mem c % 2 = 0 := by unfold nextOf; omega
  have hnextN : nextOf b'.mem n = nextOf b.mem c := by
    rw [nextOf, hsplit.next_ret]
    omega
  have hnEven : n % 2 = 0 := htiling.head_even (.inl rfl)
  refine { htiling with live_iff := ?_, live_head := ?_, live_fits := ?_ }
  · rintro d (rfl | hd)
    · have hzero : freeOf b'.mem d = 0 := by
        rw [freeOf, hsplit.next_ret]
        exact hnextEven
      simp [hzero]
    · have hdn : d + unitSize ≠ n + unitSize := by
        rintro heq
        exact hnNotMem (Nat.add_right_cancel heq ▸ hd)
      rw [Function.update_of_ne hdn]
      by_cases hdc : d = c
      · subst hdc
        have hone : freeOf b'.mem d = 1 := by
          rw [freeOf, hsplit.next_chunk]
          omega
        simp [hone, hnone]
      · rw [freeOf, hsplit.agree_next h.toTiling hc hcn hnNext hd hdc]
        exact h.live_iff d hd
  · intro ptr sz hlive
    by_cases heq : ptr = n + unitSize
    · subst heq
      exact ⟨Nat.le_add_left _ _, by simp⟩
    · rw [Function.update_of_ne heq] at hlive
      exact ⟨(h.live_head ptr sz hlive).1, .inr (h.live_head ptr sz hlive).2⟩
  · intro ptr sz hlive
    by_cases heq : ptr = n + unitSize
    · subst heq
      have hsz : sz = size := by simpa using hlive.symm
      subst hsz
      rw [Nat.add_sub_cancel, hnextN]
      exact ⟨hfits, hpos⟩
    · rw [Function.update_of_ne heq] at hlive
      obtain ⟨hle, hhead⟩ := h.live_head ptr sz hlive
      have hne : ptr - unitSize ≠ c := by
        rintro rfl
        rw [Nat.sub_add_cancel hle, hlive] at hnone
        cases hnone
      rw [nextOf, hsplit.agree_next h.toTiling hc hcn hnNext hhead hne]
      exact h.live_fits ptr sz hlive

/-- A change of the free bit of `c`, together with its entry among the live pointers. -/
theorem Layout.set_bit {live' : ℕ → Option ℕ} (h : Layout b heads live) (hframe : SameFrame b b')
    (hc : c ∈ heads) (bit : ℕ) (hbit : bit < 2)
    (hmem : b'.mem = Function.update b.mem (nextField c) (nextOf b.mem c + bit))
    (hlive : ∀ p, p ≠ c + unitSize → live' p = live p)
    (hiff : bit = 0 ↔ (live' (c + unitSize)).isSome)
    (hfits : ∀ size, live' (c + unitSize) = some size →
      c + unitSize + size ≤ nextOf b.mem c ∧ 0 < size) :
    Layout b' heads live' := by
  have hnextC : nextOf b'.mem c = nextOf b.mem c := by
    have heven : nextOf b.mem c % 2 = 0 := by unfold nextOf; omega
    rw [nextOf, hmem, Function.update_self]
    omega
  have hword : ∀ d, d ≠ c → b'.mem (nextField d) = b.mem (nextField d) := by
    intro d hne
    rw [hmem, Function.update_of_ne (Tiling.next_injective hne)]
  have hnext : ∀ d ∈ heads, nextOf b'.mem d = nextOf b.mem d := by
    intro d _
    by_cases heq : d = c
    · rw [heq, hnextC]
    · rw [nextOf, hword d heq, nextOf]
  have htiling : Tiling b' heads := by
    refine h.toTiling.of_agree hframe hnext fun d hd ↦ ?_
    rw [hmem, Function.update_of_ne (h.next_ne_pre hc hd).symm]
  refine { htiling with live_iff := ?_, live_head := ?_, live_fits := ?_ }
  · intro d hd
    by_cases heq : d = c
    · subst heq
      have hfree : freeOf b'.mem d = bit := by
        have heven : nextOf b.mem d % 2 = 0 := by unfold nextOf; omega
        rw [freeOf, hmem, Function.update_self]
        omega
      rw [hfree, hiff]
    · rw [freeOf, hword d heq, hlive _ (by simpa using heq)]
      exact h.live_iff d hd
  · intro ptr sz hptr
    by_cases heq : ptr = c + unitSize
    · subst heq
      exact ⟨Nat.le_add_left _ _, by simpa using hc⟩
    · exact h.live_head ptr sz (hlive ptr heq ▸ hptr)
  · intro ptr sz hptr
    by_cases heq : ptr = c + unitSize
    · subst heq
      rw [Nat.add_sub_cancel, hnextC]
      exact hfits sz hptr
    · rw [hlive ptr heq] at hptr
      rw [hnext _ (h.live_head ptr sz hptr).2]
      exact h.live_fits ptr sz hptr

theorem TakenWhole.layout (hwhole : TakenWhole b b' c) (h : Layout b heads live) (hc : c ∈ heads)
    (hfits : c + 16 + size ≤ nextOf b.mem c) (hpos : 0 < size) :
    Layout b' heads (Function.update live (c + unitSize) (some size)) := by
  refine h.set_bit hwhole.frame hc 0 (by omega) hwhole.mem_eq
    (fun p hne ↦ Function.update_of_ne hne _ _) (by simp) ?_
  intro sz hsz
  have heq : sz = size := by simpa using hsz.symm
  exact heq ▸ ⟨hfits, hpos⟩

/-! ## `block_malloc` -/

theorem alignSize_bounds (size : ℕ) :
    size ≤ alignSize size ∧ alignSize size < size + 16 ∧ alignSize size % 16 = 0 := by
  unfold alignSize unitSize
  omega

/-- The chunk the search of `block_malloc` ends with, `0` if it fails or is not begun. -/
def chosen (b : BlockT) (size : ℕ) : ℕ :=
  if b.free < alignSize (size + unitSize) then 0
  else (bestFit b (alignSize (size + unitSize)) (walkFuel b) b.bottom 0 0).getD 0

/-- `block_malloc` takes from the chunk its search ends with. -/
theorem blockMalloc_eq (h : Tiling b heads) (hfree : b.free < 4294967296) (hpos : 0 < size)
    (hsize : size < b.size) :
    blockMalloc b size =
      (if chosen b size = 0 then some (0, b)
      else takeChunk b (chosen b size) (alignSize (size + unitSize))) ∧
    Fits b heads (alignSize (size + unitSize)) (chosen b size) := by
  have hsizeLt := h.size_lt
  have hsizeAlign := h.size_align
  have hwrap : u4 (size + unitSize) = size + unitSize := u4_of_lt (by unfold unitSize; omega)
  have hne : size ≠ 0 := by omega
  by_cases hfull : b.free < alignSize (size + unitSize)
  · have hnone : chosen b size = 0 := if_pos hfull
    refine ⟨?_, .inl hnone⟩
    rw [if_pos hnone, blockMalloc, if_neg hne]
    simp only [hwrap]
    rw [if_pos hfull]
  have halign : u4 (alignSize (size + unitSize)) = alignSize (size + unitSize) :=
    u4_of_lt (by omega)
  have hfuel : blockEnd b - b.bottom < 16 * walkFuel b := by
    unfold walkFuel blockEnd unitSize
    rw [h.bottom_eq]
    omega
  obtain ⟨chunk, hchunk, hfits⟩ := bestFit_spec h (alignSize (size + unitSize))
    (walkFuel b) b.bottom 0 0 (.inl (h.bottom_eq ▸ h.data_mem)) hfuel (.inl rfl)
  have hchosen : chosen b size = chunk := by
    rw [chosen, if_neg hfull, hchunk]
    rfl
  rw [hchosen]
  refine ⟨?_, hfits⟩
  rw [blockMalloc, if_neg hne]
  simp only [hwrap]
  rw [if_neg hfull]
  simp only [halign, hchunk]
  rfl

/-- `block_malloc` refuses and changes nothing, hands out a free chunk whole, or splits one. -/
theorem blockMalloc_cases (h : Tiling b heads) (hfree : b.free < 4294967296) (hpos : 0 < size)
    (hsize : size < b.size) :
    (chosen b size = 0 ∧ blockMalloc b size = some (0, b)) ∨
    (∃ c ∈ heads, chosen b size = c ∧ freeOf b.mem c = 1 ∧ c + 16 + size ≤ nextOf b.mem c ∧
      alignSize (size + unitSize) ≤ (nextOf b.mem c - c) / 16 ∧
      (nextOf b.mem c - c) / 16 < alignSize (size + unitSize) + 48 ∧
      ∃ b', blockMalloc b size = some (c + unitSize, b') ∧ TakenWhole b b' c ∧
        b'.free = u4Sub b.free (alignSize (size + unitSize))) ∨
    (∃ c ∈ heads, ∃ n, chosen b size = c ∧ freeOf b.mem c = 1 ∧ c + 16 ≤ n ∧
      n + 16 + size ≤ nextOf b.mem c ∧ (n - b.data) % 16 = 0 ∧
      n + alignSize (size + unitSize) * 16 = nextOf b.mem c ∧
      alignSize (size + unitSize) + 48 ≤ (nextOf b.mem c - c) / 16 ∧
      ∃ b', blockMalloc b size = some (n + unitSize, b') ∧ SplitAt b b' c n ∧
        b'.free = u4Sub b.free (alignSize (size + unitSize))) := by
  obtain ⟨heq, hfits⟩ := blockMalloc_eq h hfree hpos hsize
  obtain ⟨hge, -, -⟩ := alignSize_bounds (size + unitSize)
  have hge16 : size + 16 ≤ alignSize (size + unitSize) := hge
  rcases hfits with hzero | ⟨hmem, hbit, hunits⟩
  · exact .inl ⟨hzero, heq.trans (if_pos hzero)⟩
  have hchunkPos := h.head_pos hmem
  rw [if_neg (by omega)] at heq
  have hchunk16 := h.align _ hmem
  have hnext16 := h.next_align hmem
  have hchunkGe := h.ge_data _ hmem
  have hchunkLt := h.lt_next _ hmem
  by_cases hsmall : (nextOf b.mem (chosen b size) - chosen b size) / 16 <
      alignSize (size + unitSize) + 48
  · obtain ⟨b', htake, hwhole, hfree'⟩ := takeChunk_whole h hmem hunits hsmall
    exact .inr (.inl ⟨_, hmem, rfl, hbit, by omega, hunits, hsmall, b', heq.trans htake, hwhole,
      hfree'⟩)
  · obtain ⟨b', htake, hsplit, hfree'⟩ :=
      takeChunk_split h hmem (alignSize (size + unitSize)) (by omega) (by omega) rfl
    exact .inr (.inr ⟨_, hmem, _, rfl, hbit, by omega, by omega, by omega, by omega, by omega, b',
      heq.trans htake, hsplit, hfree'⟩)

/-! ## `block_free` -/

/-- `n` was absorbed by `c`: its `next` word moved to `c`. -/
structure AbsorbedBy (b b' : BlockT) (c n : ℕ) : Prop where
  frame : SameFrame b b'
  mem_eq : b'.mem = Function.update b.mem (nextField c) (b.mem (nextField n))
  stores_eq : b'.stores = nextField c :: b.stores
  free_lt : b'.free < 4294967296

theorem absorb_eq (hc : inBlock b (nextField c)) (hn : inBlock b (nextField n)) :
    ∃ b', absorb b c n = some b' ∧ AbsorbedBy b b' c n ∧ b'.free = u4 (b.free + unitSize) := by
  refine ⟨addFree (writeWord b (nextField c) (b.mem (nextField n))) unitSize, ?_,
    ⟨(writeWord_sameFrame _ _ _).trans (addFree_sameFrame _ _), by simp, by simp, addFree_lt _⟩, rfl⟩
  refine Option.bind_eq_some_iff.mpr ⟨_, loadWord_eq hn, ?_⟩
  exact Option.bind_eq_some_iff.mpr ⟨_, storeWord_eq hc _, rfl⟩

theorem AbsorbedBy.layout (habs : AbsorbedBy b b' c n) (h : Layout b heads live) (hc : c ∈ heads)
    (hn : n ∈ heads) (hcn : nextOf b.mem c = n) (hfreeC : freeOf b.mem c = 1)
    (hfreeN : freeOf b.mem n = 1) : Layout b' (heads \ {n}) live := by
  have hword : ∀ d, d ≠ c → b'.mem (nextField d) = b.mem (nextField d) := by
    intro d hne
    rw [habs.mem_eq, Function.update_of_ne (Tiling.next_injective hne)]
  have hwordC : b'.mem (nextField c) = b.mem (nextField n) := by
    rw [habs.mem_eq, Function.update_self]
  have htiling : Tiling b' (heads \ {n}) := by
    refine h.toTiling.absorb habs.frame hc hn hcn (by rw [nextOf, hwordC, nextOf])
      (fun d _ hne _ ↦ by rw [nextOf, hword d hne, nextOf]) fun d hd ↦ ?_
    rw [habs.mem_eq, Function.update_of_ne (h.next_ne_pre hc hd).symm]
  have hnoneC := not_live_of_free h hc hfreeC
  have hnoneN := not_live_of_free h hn hfreeN
  have hliveNe : ∀ ptr sz, live ptr = some sz → ptr - unitSize ≠ c ∧ ptr - unitSize ≠ n := by
    intro ptr sz hlive
    have hle := (h.live_head ptr sz hlive).1
    constructor
    · rintro rfl
      simp [Nat.sub_add_cancel hle, hlive] at hnoneC
    · intro heq
      rw [← heq, Nat.sub_add_cancel hle, hlive] at hnoneN
      cases hnoneN
  refine { htiling with live_iff := ?_, live_head := ?_, live_fits := ?_ }
  · rintro d ⟨hd, hdn⟩
    by_cases hdc : d = c
    · subst hdc
      have hone : freeOf b'.mem d = 1 := by
        rw [freeOf, hwordC]
        exact hfreeN
      simp [hone, hnoneC]
    · rw [freeOf, hword d hdc]
      exact h.live_iff d hd
  · intro ptr sz hlive
    exact ⟨(h.live_head ptr sz hlive).1, (h.live_head ptr sz hlive).2, (hliveNe ptr sz hlive).2⟩
  · intro ptr sz hlive
    rw [nextOf, hword _ (hliveNe ptr sz hlive).1]
    exact h.live_fits ptr sz hlive

/-- A change that touches no header keeps the layout. -/
theorem Layout.of_agree (h : Layout b heads live) (hframe : SameFrame b b')
    (hnext : ∀ d ∈ heads, b'.mem (nextField d) = b.mem (nextField d))
    (hpre : ∀ d ∈ heads, b'.mem (preField d) = b.mem (preField d)) : Layout b' heads live := by
  have hnextOf : ∀ d ∈ heads, nextOf b'.mem d = nextOf b.mem d := by
    intro d hd
    rw [nextOf, hnext d hd, nextOf]
  refine { h.toTiling.of_agree hframe hnextOf hpre with
    live_iff := ?_, live_head := h.live_head, live_fits := ?_ }
  · intro d hd
    rw [freeOf, hnext d hd]
    exact h.live_iff d hd
  · intro ptr sz hlive
    rw [hnextOf _ (h.live_head ptr sz hlive).2]
    exact h.live_fits ptr sz hlive

theorem Layout.write_inside (h : Layout b heads live) (hframe : SameFrame b b') {word : ℕ}
    (hmem : b'.mem = Function.update b.mem a word)
    (hnext : ∀ d ∈ heads, a ≠ nextField d) (hpre : ∀ d ∈ heads, a ≠ preField d) :
    Layout b' heads live := by
  refine h.of_agree hframe ?_ ?_
  · intro d hd
    rw [hmem, Function.update_of_ne (hnext d hd).symm]
  · intro d hd
    rw [hmem, Function.update_of_ne (hpre d hd).symm]

/-- The free bit of `c` was set and `block->free` raised. -/
structure Released (b b' : BlockT) (c : ℕ) : Prop where
  frame : SameFrame b b'
  mem_eq : b'.mem = Function.update b.mem (nextField c) (nextOf b.mem c + 1)
  stores_eq : b'.stores = nextField c :: b.stores
  free_lt : b'.free < 4294967296

/-- The first merge of `block_free`: with a free chunk after `c`, if there is one. -/
def NextMerge (b b' : BlockT) (c : ℕ) : Prop :=
  (b' = b ∧ (nextOf b.mem c = blockEnd b ∨ freeOf b.mem (nextOf b.mem c) = 0)) ∨
  (nextOf b.mem c ≠ blockEnd b ∧ freeOf b.mem (nextOf b.mem c) = 1 ∧
    AbsorbedBy b b' c (nextOf b.mem c))

/-- The second merge: into whatever `c->pre` points to, if the free bit there is set. -/
def PreMerge (b b' : BlockT) (c : ℕ) : Prop :=
  (b' = b ∧ (b.mem (preField c) = 0 ∨ freeOf b.mem (b.mem (preField c)) = 0)) ∨
  (b.mem (preField c) ≠ 0 ∧ freeOf b.mem (b.mem (preField c)) = 1 ∧
    AbsorbedBy b b' (b.mem (preField c)) c)

theorem freeOf_eq_one_of_ne_zero {mem : ℕ → ℕ} (h : freeOf mem c ≠ 0) : freeOf mem c = 1 := by
  unfold freeOf at h ⊢
  omega

theorem mergeNext_spec (h : Tiling b heads) (hc : c ∈ heads) :
    ∃ b', mergeNext b c (nextOf b.mem c) = some b' ∧ NextMerge b b' c ∧
      b'.free = if nextOf b.mem c = blockEnd b ∨ freeOf b.mem (nextOf b.mem c) = 0 then b.free
        else u4 (b.free + unitSize) := by
  by_cases hend : nextOf b.mem c = blockEnd b
  · exact ⟨b, if_pos hend, .inl ⟨rfl, .inl hend⟩, (if_pos (.inl hend)).symm⟩
  · have hmem := h.next_mem c hc hend
    by_cases hfree : freeOf b.mem (nextOf b.mem c) = 0
    · refine ⟨b, ?_, .inl ⟨rfl, .inr hfree⟩, (if_pos (.inr hfree)).symm⟩
      rw [mergeNext, if_neg hend]
      refine Option.bind_eq_some_iff.mpr ⟨_, h.getFreebit_eq hmem, if_neg (by simpa using hfree)⟩
    · obtain ⟨b', habsorb, habs, hcount⟩ := absorb_eq (h.inBlock_next hc) (h.inBlock_next hmem)
      refine ⟨b', ?_, .inr ⟨hend, freeOf_eq_one_of_ne_zero hfree, habs⟩,
        hcount.trans (if_neg (not_or.mpr ⟨hend, hfree⟩)).symm⟩
      rw [mergeNext, if_neg hend]
      exact Option.bind_eq_some_iff.mpr ⟨_, h.getFreebit_eq hmem, (if_pos hfree).trans habsorb⟩

/-- The back link of a chunk is nil for the first one, and else in the chunk before it. -/
theorem Tiling.pre_cases (h : Tiling b heads) (hc : c ∈ heads) :
    b.mem (preField c) = 0 ∨
      ∃ p ∈ heads, nextOf b.mem p = c ∧ p ≤ b.mem (preField c) ∧ b.mem (preField c) < c ∧
        (b.mem (preField c) - b.data) % 16 = 0 := by
  by_cases hfirst : c = b.data
  · exact .inl (hfirst ▸ h.pre_data)
  · obtain ⟨p, hp, hpc⟩ := h.exists_before hc hfirst
    have hlt := h.lt_end c hc
    have hin := h.pre_in p hp (by omega)
    rw [hpc] at hin
    exact .inr ⟨p, hp, hpc, hin⟩

theorem mergePre_spec (h : Tiling b heads) (hc : c ∈ heads) :
    ∃ b', mergePre b (b.mem (preField c)) c = some b' ∧ PreMerge b b' c ∧
      b'.free = if b.mem (preField c) = 0 ∨ freeOf b.mem (b.mem (preField c)) = 0 then b.free
        else u4 (b.free + unitSize) := by
  by_cases hnil : b.mem (preField c) = 0
  · exact ⟨b, if_pos hnil, .inl ⟨rfl, .inl hnil⟩, (if_pos (.inl hnil)).symm⟩
  · obtain ⟨p, hp, -, hpre, hlt, h16⟩ := (h.pre_cases hc).resolve_left hnil
    have hin : inBlock b (nextField (b.mem (preField c))) := by
      have hge := h.ge_data p hp
      have hend := h.lt_end c hc
      have hc16 := h.align c hc
      unfold inBlock nextField
      omega
    by_cases hfree : freeOf b.mem (b.mem (preField c)) = 0
    · refine ⟨b, ?_, .inl ⟨rfl, .inr hfree⟩, (if_pos (.inr hfree)).symm⟩
      rw [mergePre, if_neg hnil]
      exact Option.bind_eq_some_iff.mpr ⟨_, getFreebit_eq hin, if_neg (by simpa using hfree)⟩
    · obtain ⟨b', habsorb, habs, hcount⟩ := absorb_eq hin (h.inBlock_next hc)
      refine ⟨b', ?_, .inr ⟨hnil, freeOf_eq_one_of_ne_zero hfree, habs⟩,
        hcount.trans (if_neg (not_or.mpr ⟨hnil, hfree⟩)).symm⟩
      rw [mergePre, if_neg hnil]
      exact Option.bind_eq_some_iff.mpr ⟨_, getFreebit_eq hin, (if_pos hfree).trans habsorb⟩

theorem Released.layout (hrel : Released b b' c) (h : Layout b heads live) (hc : c ∈ heads) :
    Layout b' heads (Function.update live (c + unitSize) none) ∧ freeOf b'.mem c = 1 ∧
      nextOf b'.mem c = nextOf b.mem c := by
  have heven : nextOf b.mem c % 2 = 0 := by unfold nextOf; omega
  refine ⟨?_, ?_, ?_⟩
  · exact h.set_bit hrel.frame hc 1 (by omega) hrel.mem_eq
      (fun p hne ↦ Function.update_of_ne hne _ _) (by simp) (by simp)
  · rw [freeOf, hrel.mem_eq, Function.update_self]
    omega
  · rw [nextOf, hrel.mem_eq, Function.update_self]
    omega

/-- The headers after the first merge. -/
def headsAfterNext (b b' : BlockT) (c : ℕ) (heads heads' : Set ℕ) : Prop :=
  (b' = b ∧ (nextOf b.mem c = blockEnd b ∨ freeOf b.mem (nextOf b.mem c) = 0) ∧ heads' = heads) ∨
  (nextOf b.mem c ≠ blockEnd b ∧ freeOf b.mem (nextOf b.mem c) = 1 ∧
    AbsorbedBy b b' c (nextOf b.mem c) ∧ heads' = heads \ {nextOf b.mem c})

theorem NextMerge.layout (hmerge : NextMerge b b' c) (h : Layout b heads live) (hc : c ∈ heads)
    (hfree : freeOf b.mem c = 1) :
    ∃ heads', Layout b' heads' live ∧ c ∈ heads' ∧ freeOf b'.mem c = 1 ∧
      b'.mem (preField c) = b.mem (preField c) ∧ headsAfterNext b b' c heads heads' := by
  rcases hmerge with ⟨rfl, hstop⟩ | ⟨hend, hfreeN, habs⟩
  · exact ⟨heads, h, hc, hfree, rfl, .inl ⟨rfl, hstop, rfl⟩⟩
  · have hmem := h.next_mem c hc hend
    have hlt := h.lt_next c hc
    refine ⟨heads \ {nextOf b.mem c}, habs.layout h hc hmem rfl hfree hfreeN, ⟨hc, ?_⟩, ?_, ?_,
      .inr ⟨hend, hfreeN, habs, rfl⟩⟩
    · simpa using hlt.ne
    · rw [freeOf, habs.mem_eq, Function.update_self]
      exact hfreeN
    · rw [habs.mem_eq, Function.update_of_ne (h.next_ne_pre hc hc).symm]

/-- The second merge keeps a layout whether the back link is a header or not: a former header lies
strictly inside the chunk before, and the store through it misses all headers. -/
theorem PreMerge.layout (hmerge : PreMerge b b' c) (h : Layout b heads live) (hc : c ∈ heads)
    (hfree : freeOf b.mem c = 1) : ∃ heads', Layout b' heads' live := by
  rcases hmerge with ⟨rfl, -⟩ | ⟨hnil, hfreePre, habs⟩
  · exact ⟨heads, h⟩
  · obtain ⟨p, hp, hpc, hge, hlt, h16⟩ := (h.pre_cases hc).resolve_left hnil
    by_cases hhead : b.mem (preField c) ∈ heads
    · have hnext : nextOf b.mem (b.mem (preField c)) = c := by
        rcases hge.eq_or_lt with heq | hgt
        · rw [← heq, hpc]
        · have hgap := h.gap p hp _ hhead hgt
          omega
      exact ⟨_, habs.layout h hhead hc hnext hfreePre hfree⟩
    · refine ⟨heads, h.write_inside habs.frame habs.mem_eq ?_ ?_⟩
      · intro d hd heq
        exact hhead ((Nat.add_right_cancel heq : b.mem (preField c) = d) ▸ hd)
      · intro d hd heq
        have hd16 := h.align d hd
        have hdGe := h.ge_data d hd
        have hpGe := h.ge_data p hp
        unfold nextField preField at *
        omega

theorem releaseChunk_spec (h : Tiling b heads) (hc : c ∈ heads) :
    ∃ b', releaseChunk b c = some b' ∧ Released b b' c ∧
      b'.free = u4 (b.free + u4Sub ((nextOf b.mem c - c) / 16) unitSize) := by
  have hin := h.inBlock_next hc
  have heven : nextOf b.mem c % 2 = 0 := by unfold nextOf; omega
  have hnext : nextOf (writeWord b (nextField c) (nextOf b.mem c + 1)).mem c = nextOf b.mem c := by
    rw [nextOf, writeWord_mem, Function.update_self]
    omega
  have htiling : Tiling (writeWord b (nextField c) (nextOf b.mem c + 1)) heads := by
    refine h.of_agree (writeWord_sameFrame _ _ _) (fun d _ ↦ ?_) fun d hd ↦ ?_
    · by_cases hdc : d = c
      · rw [hdc, hnext]
      · rw [nextOf, writeWord_mem, Function.update_of_ne (Tiling.next_injective hdc), nextOf]
    · rw [writeWord_mem, Function.update_of_ne (h.next_ne_pre hc hd).symm]
  have hunits := htiling.chunkMemSize_eq hc
  rw [hnext] at hunits
  refine ⟨addFree (writeWord b (nextField c) (nextOf b.mem c + 1))
    (u4Sub ((nextOf b.mem c - c) / 16) unitSize), ?_,
    ⟨(writeWord_sameFrame _ _ _).trans (addFree_sameFrame _ _), by simp, by simp, addFree_lt _⟩, rfl⟩
  refine Option.bind_eq_some_iff.mpr ⟨_, setFreebit_eq hin, ?_⟩
  exact Option.bind_eq_some_iff.mpr ⟨_, hunits, rfl⟩

/-- What the three parts of a release add to the count of free bytes. -/
structure Counted (b b₁ b₂ b₃ : BlockT) (c : ℕ) : Prop where
  release : b₁.free = u4 (b.free + u4Sub ((nextOf b.mem c - c) / 16) unitSize)
  next : b₂.free = if nextOf b₁.mem c = blockEnd b₁ ∨ freeOf b₁.mem (nextOf b₁.mem c) = 0 then b₁.free
    else u4 (b₁.free + unitSize)
  pre : b₃.free = if b₂.mem (preField c) = 0 ∨ freeOf b₂.mem (b₂.mem (preField c)) = 0 then b₂.free
    else u4 (b₂.free + unitSize)

/-- `block_free` of a live pointer: release, then the two merges. -/
theorem blockFree_counts (h : Layout b heads live) (hlive : live ptr = some size) :
    ∃ b₁ b₂ b₃, blockFree b ptr = some (0, b₃) ∧ Counted b b₁ b₂ b₃ (ptr - unitSize) ∧
      Released b b₁ (ptr - unitSize) ∧ NextMerge b₁ b₂ (ptr - unitSize) ∧
      PreMerge b₂ b₃ (ptr - unitSize) := by
  obtain ⟨hle, hc⟩ := h.live_head ptr size hlive
  obtain ⟨hfits, hpos⟩ := h.live_fits ptr size hlive
  have hge := h.ge_data _ hc
  have hend := h.next_le_end hc
  have hnil : ptr ≠ 0 := by
    have hheadPos := h.head_pos hc
    omega
  have hrange : ¬ (ptr ≤ b.data ∨ blockEnd b ≤ ptr) := by
    unfold unitSize at hle hge
    omega
  obtain ⟨b₁, hrelease, hrel, hcount₁⟩ := releaseChunk_spec h.toTiling hc
  obtain ⟨hlayout₁, hfree₁, -⟩ := hrel.layout h hc
  obtain ⟨b₂, hmerge₂, hnext₂, hcount₂⟩ := mergeNext_spec hlayout₁.toTiling hc
  obtain ⟨heads₂, hlayout₂, hc₂, hfree₂, hpre₂, -⟩ := hnext₂.layout hlayout₁ hc hfree₁
  obtain ⟨b₃, hmerge₃, hpre₃, hcount₃⟩ := mergePre_spec hlayout₂.toTiling hc₂
  refine ⟨b₁, b₂, b₃, ?_, ⟨hcount₁, hcount₂, hcount₃⟩, hrel, hnext₂, hpre₃⟩
  rw [blockFree, if_neg hnil, if_neg hrange]
  refine Option.bind_eq_some_iff.mpr ⟨_, hrelease, ?_⟩
  refine Option.bind_eq_some_iff.mpr ⟨_, hlayout₁.chunkNext_eq hc, ?_⟩
  refine Option.bind_eq_some_iff.mpr ⟨_, hmerge₂, ?_⟩
  refine Option.bind_eq_some_iff.mpr ⟨_, loadWord_eq (hlayout₂.inBlock_pre hc₂), ?_⟩
  exact Option.bind_eq_some_iff.mpr ⟨_, hmerge₃, rfl⟩

theorem blockFree_steps (h : Layout b heads live) (hlive : live ptr = some size) :
    ∃ b₁ b₂ b₃, blockFree b ptr = some (0, b₃) ∧ Released b b₁ (ptr - unitSize) ∧
      NextMerge b₁ b₂ (ptr - unitSize) ∧ PreMerge b₂ b₃ (ptr - unitSize) := by
  obtain ⟨b₁, b₂, b₃, hfree, -, hsteps⟩ := blockFree_counts h hlive
  exact ⟨b₁, b₂, b₃, hfree, hsteps⟩

end CPractice.MemPool
