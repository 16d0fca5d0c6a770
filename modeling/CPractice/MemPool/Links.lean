import CPractice.MemPool.Safety

/-!
# Back links, coalescing, and stores of the bookkeeping

`block_malloc` repairs the back link of the chunk behind a split.  The merges of `block_free` do
not: they move the end of a chunk and leave the back link of the chunk behind it alone.  So the
chunk list stays doubly linked exactly as long as a chunk that a merge produces is the last of the
block (`KeepsLinks`), and along runs that respect this the list is also coalesced and the
bookkeeping stores into headers only.
-/

namespace CPractice.MemPool

open Lib

variable {b b' : BlockT} {heads : Set ℕ} {live : ℕ → Option ℕ} {c n a ptr size : ℕ}

/-- For every chunk before the last, `chunk_next(c)->pre == c`. -/
def Linked (b : BlockT) (heads : Set ℕ) : Prop :=
  ∀ c ∈ heads, nextOf b.mem c ≠ blockEnd b → b.mem (preField (nextOf b.mem c)) = c

/-- No two neighbouring chunks are free, the neighbours in `except` apart. -/
def CoalescedBut (b : BlockT) (heads : Set ℕ) (except : ℕ → Prop) : Prop :=
  ∀ c ∈ heads, nextOf b.mem c ≠ blockEnd b → except c →
    freeOf b.mem c = 0 ∨ freeOf b.mem (nextOf b.mem c) = 0

/-- No two neighbouring chunks are free. -/
def Coalesced (b : BlockT) (heads : Set ℕ) : Prop :=
  CoalescedBut b heads fun _ ↦ True

/-! ## Splits and whole chunks -/

theorem SplitAt.next_other (hsplit : SplitAt b b' c n) (h : Tiling b heads) (hc : c ∈ heads)
    (hcn : c + 16 ≤ n) (hnNext : n + 16 ≤ nextOf b.mem c) {d : ℕ} (hd : d ∈ heads) (hne : d ≠ c) :
    nextOf b'.mem d = nextOf b.mem d ∧ freeOf b'.mem d = freeOf b.mem d := by
  have hword := hsplit.agree_next h hc hcn hnNext hd hne
  exact ⟨by rw [nextOf, hword, nextOf], by rw [freeOf, hword, freeOf]⟩

theorem SplitAt.next_parts (hsplit : SplitAt b b' c n) (hnEven : n % 2 = 0) :
    nextOf b'.mem c = n ∧ freeOf b'.mem c = 1 ∧ nextOf b'.mem n = nextOf b.mem c ∧
      freeOf b'.mem n = 0 := by
  have heven : nextOf b.mem c % 2 = 0 := by unfold nextOf; omega
  simp only [nextOf, freeOf, hsplit.next_chunk, hsplit.next_ret] at heven ⊢
  omega

theorem SplitAt.linked (hsplit : SplitAt b b' c n) (h : Tiling b heads) (hc : c ∈ heads)
    (hcn : c + 16 ≤ n) (hnNext : n + 16 ≤ nextOf b.mem c) (hn16 : (n - b.data) % 16 = 0)
    (hlinked : Linked b heads) : Linked b' (insert n heads) := by
  have hnEven := (hsplit.tiling h hc hcn hnNext hn16).head_even (.inl rfl)
  obtain ⟨hnextC, -, hnextN, -⟩ := hsplit.next_parts hnEven
  rintro d hd hne
  rw [hsplit.frame.blockEnd_eq] at hne
  rcases hd with rfl | hd
  · rw [hnextN] at hne ⊢
    exact hsplit.pre_next hne
  · by_cases hdc : d = c
    · rw [hdc, hnextC]
      exact hsplit.pre_ret
    · obtain ⟨hnextD, -⟩ := hsplit.next_other h hc hcn hnNext hd hdc
      rw [hnextD] at hne ⊢
      have hother : nextOf b.mem d ≠ nextOf b.mem c := fun heq ↦ hdc (h.next_inj hd hc heq)
      rw [hsplit.agree_pre h hc hcn hnNext (h.next_mem d hd hne) hother]
      exact hlinked d hd hne

theorem SplitAt.coalesced (hsplit : SplitAt b b' c n) (h : Tiling b heads) (hc : c ∈ heads)
    (hfree : freeOf b.mem c = 1) (hcn : c + 16 ≤ n) (hnNext : n + 16 ≤ nextOf b.mem c)
    (hn16 : (n - b.data) % 16 = 0) (hcoal : Coalesced b heads) :
    Coalesced b' (insert n heads) := by
  have hnEven := (hsplit.tiling h hc hcn hnNext hn16).head_even (.inl rfl)
  obtain ⟨hnextC, hfreeC, -, hfreeN⟩ := hsplit.next_parts hnEven
  rintro d hd hne -
  rw [hsplit.frame.blockEnd_eq] at hne
  rcases hd with rfl | hd
  · exact .inl hfreeN
  · by_cases hdc : d = c
    · right
      rw [hdc, hnextC, hfreeN]
    · obtain ⟨hnextD, hfreeD⟩ := hsplit.next_other h hc hcn hnNext hd hdc
      rw [hnextD] at hne
      have hold := hcoal d hd hne trivial
      rw [hfreeD, hnextD]
      by_cases hdn : nextOf b.mem d = c
      · rw [hdn, hfree] at hold
        exact .inl (hold.resolve_right (by omega))
      · rw [(hsplit.next_other h hc hcn hnNext (h.next_mem d hd hne) hdn).2]
        exact hold

/-- A change of the free bit of `c` moves no chunk and no link. -/
theorem setBit_parts (h : Tiling b heads) (hc : c ∈ heads) (bit : ℕ) (hbit : bit < 2)
    (hmem : b'.mem = Function.update b.mem (nextField c) (nextOf b.mem c + bit)) :
    (∀ d, nextOf b'.mem d = nextOf b.mem d) ∧
      (∀ d, d ≠ c → freeOf b'.mem d = freeOf b.mem d) ∧ freeOf b'.mem c = bit ∧
      ∀ d ∈ heads, b'.mem (preField d) = b.mem (preField d) := by
  have heven : nextOf b.mem c % 2 = 0 := by unfold nextOf; omega
  have hword : ∀ d, d ≠ c → b'.mem (nextField d) = b.mem (nextField d) := by
    intro d hne
    rw [hmem, Function.update_of_ne (Tiling.next_injective hne)]
  have hself : b'.mem (nextField c) = nextOf b.mem c + bit := by rw [hmem, Function.update_self]
  refine ⟨fun d ↦ ?_, fun d hne ↦ by rw [freeOf, hword d hne, freeOf], ?_, fun d hd ↦ ?_⟩
  · by_cases hdc : d = c
    · rw [hdc, nextOf, hself]
      omega
    · rw [nextOf, hword d hdc, nextOf]
  · rw [freeOf, hself]
    omega
  · rw [hmem, Function.update_of_ne (h.next_ne_pre hc hd).symm]

theorem setBit_linked (h : Tiling b heads) (hframe : SameFrame b b')
    (hnext : ∀ d, nextOf b'.mem d = nextOf b.mem d)
    (hpre : ∀ d ∈ heads, b'.mem (preField d) = b.mem (preField d)) (hlinked : Linked b heads) :
    Linked b' heads := by
  intro d hd hne
  rw [hnext, hframe.blockEnd_eq] at hne
  rw [hnext, hpre _ (h.next_mem d hd hne)]
  exact hlinked d hd hne

theorem TakenWhole.linked (hwhole : TakenWhole b b' c) (h : Tiling b heads) (hc : c ∈ heads)
    (hlinked : Linked b heads) (hcoal : Coalesced b heads) :
    Linked b' heads ∧ Coalesced b' heads := by
  obtain ⟨hnext, hfree, hbit, hpre⟩ := setBit_parts h hc 0 (by omega) hwhole.mem_eq
  refine ⟨setBit_linked h hwhole.frame hnext hpre hlinked, fun d hd hne _ ↦ ?_⟩
  rw [hnext, hwhole.frame.blockEnd_eq] at hne
  by_cases hdc : d = c
  · exact .inl (hdc ▸ hbit)
  · rw [hfree d hdc, hnext]
    by_cases hdn : nextOf b.mem d = c
    · exact .inr (hdn ▸ hbit)
    · rw [hfree _ hdn]
      exact hcoal d hd hne trivial

/-! ## Merges -/

/-- The end of the released chunk after the first merge. -/
def endAfterNext (b : BlockT) (c : ℕ) : ℕ :=
  if nextOf b.mem c = blockEnd b ∨ freeOf b.mem (nextOf b.mem c) = 0 then nextOf b.mem c
  else nextOf b.mem (nextOf b.mem c)

/-- The chunk after `c` is free. -/
def MergesNext (b : BlockT) (c : ℕ) : Prop :=
  nextOf b.mem c ≠ blockEnd b ∧ freeOf b.mem (nextOf b.mem c) = 1

/-- The chunk before `c` is free. -/
def MergesPre (b : BlockT) (c : ℕ) : Prop :=
  b.mem (preField c) ≠ 0 ∧ freeOf b.mem (b.mem (preField c)) = 1

/-- If the release of `ptr` merges chunks, the merged chunk is the last of the block. -/
def KeepsLinks (b : BlockT) (ptr : ℕ) : Prop :=
  MergesNext b (ptr - unitSize) ∨ MergesPre b (ptr - unitSize) →
    endAfterNext b (ptr - unitSize) = blockEnd b

instance (b : BlockT) (ptr : ℕ) : Decidable (KeepsLinks b ptr) :=
  inferInstanceAs (Decidable ((_ ∧ _) ∨ (_ ∧ _) → _))

theorem AbsorbedBy.parts (habs : AbsorbedBy b b' c n) (h : Tiling b heads) (hc : c ∈ heads) :
    nextOf b'.mem c = nextOf b.mem n ∧ freeOf b'.mem c = freeOf b.mem n ∧
      (∀ d, d ≠ c → nextOf b'.mem d = nextOf b.mem d) ∧
      (∀ d, d ≠ c → freeOf b'.mem d = freeOf b.mem d) ∧
      ∀ d ∈ heads, b'.mem (preField d) = b.mem (preField d) := by
  have hword : ∀ d, d ≠ c → b'.mem (nextField d) = b.mem (nextField d) := by
    intro d hne
    rw [habs.mem_eq, Function.update_of_ne (Tiling.next_injective hne)]
  have hself : b'.mem (nextField c) = b.mem (nextField n) := by
    rw [habs.mem_eq, Function.update_self]
  refine ⟨by rw [nextOf, hself, nextOf], by rw [freeOf, hself, freeOf],
    fun d hne ↦ by rw [nextOf, hword d hne, nextOf],
    fun d hne ↦ by rw [freeOf, hword d hne, freeOf], fun d hd ↦ ?_⟩
  rw [habs.mem_eq, Function.update_of_ne (h.next_ne_pre hc hd).symm]

/-- Absorbing the last chunk keeps the links. -/
theorem AbsorbedBy.linked (habs : AbsorbedBy b b' c n) (h : Tiling b heads) (hc : c ∈ heads)
    (hlast : nextOf b.mem n = blockEnd b) (hlinked : Linked b heads) :
    Linked b' (heads \ {n}) := by
  obtain ⟨hnextC, -, hnext, -, hpre⟩ := habs.parts h hc
  rintro d ⟨hd, -⟩ hne
  rw [habs.frame.blockEnd_eq] at hne
  by_cases hdc : d = c
  · rw [hdc, hnextC] at hne
    exact absurd hlast hne
  · rw [hnext d hdc] at hne ⊢
    rw [hpre _ (h.next_mem d hd hne)]
    exact hlinked d hd hne

/-- Absorbing any other chunk breaks the link behind it. -/
theorem AbsorbedBy.not_linked (habs : AbsorbedBy b b' c n) (h : Tiling b heads) (hc : c ∈ heads)
    (hn : n ∈ heads) (hcn : c < n) (hmid : nextOf b.mem n ≠ blockEnd b)
    (hpre : c < b.mem (preField (nextOf b.mem n))) : ¬ Linked b' (heads \ {n}) := by
  obtain ⟨hnextC, -, -, -, hpreEq⟩ := habs.parts h hc
  intro hlinked
  have hlink := hlinked c ⟨hc, by simpa using hcn.ne⟩
    (by rwa [hnextC, habs.frame.blockEnd_eq])
  rw [hnextC, hpreEq _ (h.next_mem n hn hmid)] at hlink
  omega

/-- The chunk before a chunk, found through the back link. -/
theorem Linked.pre_cases (hlinked : Linked b heads) (h : Tiling b heads) (hc : c ∈ heads) :
    (c = b.data ∧ b.mem (preField c) = 0) ∨
      (b.mem (preField c) ∈ heads ∧ nextOf b.mem (b.mem (preField c)) = c ∧
        b.mem (preField c) < c) := by
  by_cases hfirst : c = b.data
  · exact .inl ⟨hfirst, hfirst ▸ h.pre_data⟩
  · obtain ⟨p, hp, hpc⟩ := h.exists_before hc hfirst
    have hlt := h.lt_end c hc
    have hltP := h.lt_next p hp
    have hpre := hlinked p hp (by omega)
    rw [hpc] at hpre
    exact .inr (by rw [hpre]; exact ⟨hp, hpc, by omega⟩)

/-- The block between the two merges of a release of `c`, next to the block before the release. -/
structure BetweenMerges (b b₂ : BlockT) (heads heads₂ : Set ℕ) (c : ℕ) : Prop where
  frame : SameFrame b b₂
  next_chunk : nextOf b₂.mem c = endAfterNext b c
  before : ∀ p ∈ heads, p < c → p ∈ heads₂ ∧ b₂.mem (nextField p) = b.mem (nextField p)
  coalesced : CoalescedBut b₂ heads₂ fun d ↦ nextOf b₂.mem d ≠ c
  linked : (MergesNext b c → endAfterNext b c = blockEnd b) → Linked b₂ heads₂
  back : endAfterNext b c ≠ blockEnd b → c ≤ b₂.mem (preField (endAfterNext b c)) ∧
    (MergesNext b c → c < b₂.mem (preField (endAfterNext b c)))
  stores_sub : ∀ a ∈ b₂.stores, a = nextField c ∨ a ∈ b.stores

/-- Up to the first merge nothing but the chunk `c` changes. -/
theorem betweenMerges {b₁ b₂ : BlockT} (h : Layout b heads live) (hc : c ∈ heads)
    (hlinked : Linked b heads) (hcoal : Coalesced b heads) (hrel : Released b b₁ c)
    {heads₂ : Set ℕ} (hheads : headsAfterNext b₁ b₂ c heads heads₂) :
    BetweenMerges b b₂ heads heads₂ c := by
  obtain ⟨hl₁, -, -⟩ := hrel.layout h hc
  obtain ⟨hnext₁, hfree₁, hbit₁, hpre₁⟩ := setBit_parts h.toTiling hc 1 (by omega) hrel.mem_eq
  have hlinked₁ := setBit_linked h.toTiling hrel.frame hnext₁ hpre₁ hlinked
  have hend₁ := hrel.frame.blockEnd_eq
  have hltC := h.lt_next c hc
  have hword₁ : ∀ d, d ≠ c → b₁.mem (nextField d) = b.mem (nextField d) := by
    intro d hne
    rw [hrel.mem_eq, Function.update_of_ne (Tiling.next_injective hne)]
  have hfreeNext : freeOf b₁.mem (nextOf b.mem c) = freeOf b.mem (nextOf b.mem c) :=
    hfree₁ _ hltC.ne'
  have hcoal₁ : ∀ d ∈ heads, d ≠ c → nextOf b.mem d ≠ c → nextOf b.mem d ≠ blockEnd b →
      freeOf b₁.mem d = 0 ∨ freeOf b₁.mem (nextOf b.mem d) = 0 := by
    intro d hd hdc hdn hne
    rw [hfree₁ d hdc, hfree₁ _ hdn]
    exact hcoal d hd hne trivial
  rcases hheads with ⟨rfl, hstop, rfl⟩ | ⟨hne, hone, habs, rfl⟩
  · -- No merge: the chunk after `c` is live or `c` is the last.
    rw [hnext₁, hend₁, hfreeNext] at hstop
    have hend : endAfterNext b c = nextOf b.mem c := if_pos hstop
    have hnot : ¬ MergesNext b c := by
      rintro ⟨hne, hone⟩
      rcases hstop with hlast | hzero
      · exact hne hlast
      · omega
    refine ⟨hrel.frame, by rw [hnext₁, hend], fun p hp hlt ↦ ⟨hp, hword₁ p hlt.ne⟩, ?_,
      fun _ ↦ hlinked₁, ?_, ?_⟩
    · intro d hd hne hdn
      rw [hnext₁] at hdn hne ⊢
      rw [hend₁] at hne
      by_cases hdc : d = c
      · right
        rw [hdc, hfreeNext]
        exact hstop.resolve_left (hdc ▸ hne)
      · exact hcoal₁ d hd hdc hdn hne
    · intro hne
      rw [hend] at hne ⊢
      rw [hpre₁ _ (h.next_mem c hc hne), hlinked c hc hne]
      exact ⟨le_rfl, fun hm ↦ absurd hm hnot⟩
    · intro a ha
      rw [hrel.stores_eq, List.mem_cons] at ha
      exact ha
  · -- The chunk after `c` is absorbed.
    rw [hnext₁] at hne hone habs ⊢
    rw [hend₁] at hne
    rw [hfreeNext] at hone
    have hmem := h.next_mem c hc hne
    have hltN := h.lt_next _ hmem
    have hmerges : MergesNext b c := ⟨hne, hone⟩
    have hend : endAfterNext b c = nextOf b.mem (nextOf b.mem c) := by
      refine if_neg ?_
      rintro (hlast | hzero)
      · exact hne hlast
      · omega
    obtain ⟨hnextC, hfreeC, hnext₂, hfree₂, hpre₂⟩ := habs.parts hl₁.toTiling hc
    have hframe := hrel.frame.trans habs.frame
    refine ⟨hframe, ?_, ?_, ?_, ?_, ?_, ?_⟩
    · rw [hnextC, hnext₁, hend]
    · intro p hp hlt
      refine ⟨⟨hp, ?_⟩, ?_⟩
      · have hpn : p ≠ nextOf b.mem c := by omega
        simpa using hpn
      · rw [habs.mem_eq, Function.update_of_ne (Tiling.next_injective hlt.ne), hword₁ p hlt.ne]
    · rintro d ⟨hd, hdn⟩ hdEnd hdc
      rw [hframe.blockEnd_eq] at hdEnd
      by_cases heq : d = c
      · subst heq
        rw [hnextC, hnext₁] at hdEnd hdc ⊢
        right
        rw [hfree₂ _ hdc, hfree₁ _ hdc]
        exact (hcoal _ hmem hdEnd trivial).resolve_left (by omega)
      · rw [hnext₂ d heq, hnext₁] at hdEnd hdc ⊢
        rw [hfree₂ d heq, hfree₂ _ hdc]
        exact hcoal₁ d hd heq hdc hdEnd
    · intro hlast
      have hlast' := hlast hmerges
      rw [hend] at hlast'
      exact habs.linked hl₁.toTiling hc (by rw [hnext₁, hend₁, hlast']) hlinked₁
    · intro hmid
      rw [hend] at hmid ⊢
      have hmemE := h.next_mem _ hmem hmid
      rw [hpre₂ _ hmemE, hpre₁ _ hmemE, hlinked _ hmem hmid]
      exact ⟨hltC.le, fun _ ↦ hltC⟩
    · intro a ha
      rw [habs.stores_eq, hrel.stores_eq] at ha
      simpa using ha

/-- The effect of a release on links and coalescing: both survive exactly if the merged chunk, when
there is one, ends the block. -/
theorem linked_after_free {b₁ b₂ b₃ : BlockT} (h : Layout b heads live) (hc : c ∈ heads)
    (hlinked : Linked b heads) (hcoal : Coalesced b heads) (hrel : Released b b₁ c)
    (hnext : NextMerge b₁ b₂ c) (hpre : PreMerge b₂ b₃ c) :
    ∃ heads₃, Layout b₃ heads₃ (Function.update live (c + unitSize) none) ∧
      (Linked b₃ heads₃ ∧ Coalesced b₃ heads₃ ↔
        (MergesNext b c ∨ MergesPre b c → endAfterNext b c = blockEnd b)) ∧
      ∀ a ∈ b₃.stores, (∃ d ∈ heads, a = nextField d) ∨ a ∈ b.stores := by
  obtain ⟨hl₁, hbit₁, -⟩ := hrel.layout h hc
  obtain ⟨heads₂, hl₂, hc₂, hbit₂, hpre₂, hheads⟩ := hnext.layout hl₁ hc hbit₁
  have hmid := betweenMerges h hc hlinked hcoal hrel hheads
  have hpreEq : b₂.mem (preField c) = b.mem (preField c) := by
    rw [hpre₂, hrel.mem_eq, Function.update_of_ne (h.next_ne_pre hc hc).symm]
  -- The chunk before `c`, if there is one, is untouched so far.
  have hbefore : (c = b.data ∧ b.mem (preField c) = 0) ∨
      (b.mem (preField c) ∈ heads ∧ b.mem (preField c) < c ∧ b.mem (preField c) ∈ heads₂ ∧
        nextOf b₂.mem (b.mem (preField c)) = c ∧
        freeOf b₂.mem (b.mem (preField c)) = freeOf b.mem (b.mem (preField c))) := by
    rcases hlinked.pre_cases h.toTiling hc with hfirst | ⟨hp, hpc, hlt⟩
    · exact .inl hfirst
    · obtain ⟨hp₂, hword⟩ := hmid.before _ hp hlt
      exact .inr ⟨hp, hlt, hp₂, by rw [nextOf, hword]; exact hpc, by rw [freeOf, hword, freeOf]⟩
  rcases hpre with ⟨rfl, hstop⟩ | ⟨hnil, hfree, habs⟩
  · -- No merge with the chunk before.
    rw [hpreEq] at hstop
    have hnot : ¬ MergesPre b c := by
      rintro ⟨hnil, hone⟩
      rcases hbefore with ⟨-, hzero⟩ | ⟨-, -, -, -, hsame⟩
      · exact hnil hzero
      · have hzero := hstop.resolve_left hnil
        omega
    refine ⟨heads₂, hl₂, ⟨?_, ?_⟩, ?_⟩
    · rintro ⟨hlinked₂, -⟩ hmerges
      have hmerge := hmerges.resolve_right hnot
      by_contra hne
      have hlink := hlinked₂ c hc₂ (by rwa [hmid.next_chunk, hmid.frame.blockEnd_eq])
      rw [hmid.next_chunk] at hlink
      have hback := (hmid.back hne).2 hmerge
      omega
    · intro hkeeps
      refine ⟨hmid.linked fun hm ↦ hkeeps (.inl hm), fun d hd hne _ ↦ ?_⟩
      by_cases hdc : nextOf b₃.mem d = c
      · -- `d` is the chunk the back link of `c` names, and that one is live.
        left
        have hdLt := hl₂.lt_next d hd
        have hdGe := hl₂.ge_data d hd
        rw [hmid.frame.data] at hdGe
        obtain ⟨hp, -, hp₂, hpc, -⟩ := hbefore.resolve_left (by omega)
        rw [hl₂.next_inj hd hp₂ (hdc.trans hpc.symm)]
        exact hstop.resolve_left (h.head_pos hp).ne'
      · exact hmid.coalesced d hd hne hdc
    · intro a ha
      exact (hmid.stores_sub a ha).imp (fun heq ↦ ⟨c, hc, heq⟩) id
  · -- The chunk before absorbs `c`.
    rw [hpreEq] at hnil hfree habs
    obtain ⟨hp, hlt, hp₂, hpc, hsame⟩ := hbefore.resolve_left fun hfirst ↦ hnil hfirst.2
    have hmerges : MergesPre b c := ⟨hnil, hsame ▸ hfree⟩
    refine ⟨heads₂ \ {c}, habs.layout hl₂ hp₂ hc₂ hpc hfree hbit₂, ⟨?_, ?_⟩, ?_⟩
    · rintro ⟨hlinked₃, -⟩ -
      by_contra hne
      refine habs.not_linked hl₂.toTiling hp₂ hc₂ hlt ?_ ?_ hlinked₃
      · rwa [hmid.next_chunk, hmid.frame.blockEnd_eq]
      · rw [hmid.next_chunk]
        exact hlt.trans_le (hmid.back hne).1
    · intro hkeeps
      have hlast := hkeeps (.inr hmerges)
      have hlast₂ : nextOf b₂.mem c = blockEnd b₂ := by
        rw [hmid.next_chunk, hlast, hmid.frame.blockEnd_eq]
      refine ⟨habs.linked hl₂.toTiling hp₂ hlast₂ (hmid.linked fun _ ↦ hlast), ?_⟩
      obtain ⟨hnextP, -, hnext₃, hfree₃, -⟩ := habs.parts hl₂.toTiling hp₂
      rintro d ⟨hd, hdNe⟩ hne -
      rw [habs.frame.blockEnd_eq] at hne
      by_cases hdp : d = b.mem (preField c)
      · rw [hdp, hnextP] at hne
        exact absurd hlast₂ hne
      · rw [hnext₃ d hdp] at hne ⊢
        have hdc : nextOf b₂.mem d ≠ c := fun heq ↦ hdp (hl₂.next_inj hd hp₂ (heq.trans hpc.symm))
        rw [hfree₃ d hdp]
        have hold := hmid.coalesced d hd hne hdc
        by_cases hdn : nextOf b₂.mem d = b.mem (preField c)
        · rw [hdn] at hold
          exact .inl (hold.resolve_right (by omega))
        · rw [hfree₃ _ hdn]
          exact hold
    · intro a ha
      rw [habs.stores_eq, List.mem_cons] at ha
      rcases ha with rfl | ha
      · exact .inl ⟨_, hp, rfl⟩
      · exact (hmid.stores_sub a ha).imp (fun heq ↦ ⟨c, hc, heq⟩) id

/-! ## Runs -/

/-- The chunks reached from `bottom` are doubly linked, and no two neighbours are free. -/
def WellLinked (b : BlockT) : Prop :=
  ∃ chunks, blockChunks b = some chunks ∧ ∀ c ∈ chunks, ∀ n, chunkNext b c = some n →
    n ≠ blockEnd b → loadWord b (preField n) = some c ∧
      ¬ (getFreebit b c = some 1 ∧ getFreebit b n = some 1)

/-- No word the call stores lies in the payload of a live pointer, the released one apart. -/
def SparesPayloads (h : Heap) (call : Call) (h' : Heap) : Prop :=
  ∀ ptr size, h.live ptr = some size → call ≠ .free ptr →
    ∀ n, chunkNext h.block (ptr - unitSize) = some n →
      ∀ a ∈ h'.block.stores, ¬ (ptr ≤ a ∧ a < n)

/-- The condition on a call: a release merges chunks only at the end of the block. -/
def CallKeepsLinks (h : Heap) : Call → Prop
  | .free ptr => KeepsLinks h.block ptr
  | _ => True

instance (h : Heap) : (call : Call) → Decidable (CallKeepsLinks h call)
  | .free ptr => inferInstanceAs (Decidable (KeepsLinks h.block ptr))
  | .malloc _ => inferInstanceAs (Decidable True)
  | .write _ _ => inferInstanceAs (Decidable True)

/-- The runs all of whose calls meet the condition. -/
def linkedMachine : Machine Heap Call Ret where
  init := fromInit
  ok h call := callOk h call ∧ CallKeepsLinks h call
  exec := callExec

instance (h : Heap) (call : Call) : Decidable (linkedMachine.ok h call) :=
  inferInstanceAs (Decidable (_ ∧ _))

theorem wellLinked_iff (h : Tiling b heads) : WellLinked b ↔ Linked b heads ∧ Coalesced b heads := by
  obtain ⟨cs, hcs, hmem⟩ := blockChunks_spec h
  have hbits : ∀ c ∈ heads, freeOf b.mem c = 0 ∨ freeOf b.mem c = 1 := by
    intro c _
    unfold freeOf
    omega
  constructor
  · rintro ⟨chunks, hchunks, hall⟩
    obtain rfl : chunks = cs := by simpa [hcs] using hchunks.symm
    constructor
    · intro c hc hne
      have hpair := hall c ((hmem c).mpr hc) _ (h.chunkNext_eq hc) hne
      rw [loadWord_eq (h.inBlock_pre (h.next_mem c hc hne))] at hpair
      exact Option.some.inj hpair.1
    · intro c hc hne _
      have hpair := (hall c ((hmem c).mpr hc) _ (h.chunkNext_eq hc) hne).2
      rw [h.getFreebit_eq hc, h.getFreebit_eq (h.next_mem c hc hne)] at hpair
      simp only [Option.some_inj] at hpair
      have hc01 := hbits c hc
      have hn01 := hbits _ (h.next_mem c hc hne)
      omega
  · rintro ⟨hlinked, hcoal⟩
    refine ⟨cs, hcs, fun c hc n hn hne ↦ ?_⟩
    have hc' := (hmem c).mp hc
    obtain rfl : nextOf b.mem c = n := by simpa [h.chunkNext_eq hc'] using hn
    have hmemN := h.next_mem c hc' hne
    rw [loadWord_eq (h.inBlock_pre hmemN), h.getFreebit_eq hc', h.getFreebit_eq hmemN]
    refine ⟨congrArg some (hlinked c hc' hne), ?_⟩
    have hpair := hcoal c hc' hne trivial
    simp only [Option.some_inj]
    omega

/-- A header word lies in no payload. -/
theorem header_not_payload (h : Layout b heads live) (hlive : live ptr = some size) {d : ℕ}
    (hd : d ∈ heads) (ha : a = preField d ∨ a = nextField d) :
    ¬ (ptr ≤ a ∧ a < nextOf b.mem (ptr - unitSize)) := by
  obtain ⟨hle, hc⟩ := h.live_head ptr size hlive
  have hgap := h.gap _ hc d hd
  have hgap' := h.gap d hd _ hc
  have hstep := h.add_unit_le_next hd
  unfold preField nextField unitSize at *
  omega

/-- Neither does a word of the header a split puts inside a free chunk. -/
theorem split_not_payload (h : Layout b heads live) (hc : c ∈ heads) (hfree : freeOf b.mem c = 1)
    (hlive : live ptr = some size) (hcn : c + 16 ≤ n) (hnNext : n + 16 ≤ nextOf b.mem c)
    (ha : a = preField n ∨ a = nextField n) :
    ¬ (ptr ≤ a ∧ a < nextOf b.mem (ptr - unitSize)) := by
  obtain ⟨hle, hp⟩ := h.live_head ptr size hlive
  have hne : ptr - unitSize ≠ c := by
    rintro rfl
    have hnone := not_live_of_free h hp hfree
    rw [Nat.sub_add_cancel hle, hlive] at hnone
    cases hnone
  have hgap := h.gap _ hp c hc
  have hgap' := h.gap c hc _ hp
  unfold preField nextField unitSize at *
  omega

/-- The invariant of the runs whose releases meet the condition. -/
def LinkedInv (h : Heap) : Prop :=
  ∃ heads, Layout h.block heads h.live ∧ h.block.free < 4294967296 ∧
    Linked h.block heads ∧ Coalesced h.block heads

/-- What a call does to a linked block: it stays linked, and the stores stay in headers, exactly if
the call meets the condition. -/
def CallExact (h : Heap) (call : Call) : Prop :=
  ∃ r h', callExec h call = some (r, h') ∧
    (WellLinked h'.block ∧ SparesPayloads h call h' ↔ CallKeepsLinks h call) ∧
    (CallKeepsLinks h call → LinkedInv h')

theorem malloc_exact {h : Heap} (hinv : LinkedInv h) (hok : callOk h (.malloc size)) :
    CallExact h (.malloc size) := by
  obtain ⟨heads, hlayout, hfree, hlinked, hcoal⟩ := hinv
  have hl := hlayout.fresh
  have hposHead : ∀ p, p + unitSize ≠ 0 := by simp [unitSize]
  have hspares : ∀ b', (∀ a ∈ b'.stores, ∀ ptr sz, h.live ptr = some sz →
      ¬ (ptr ≤ a ∧ a < nextOf h.block.mem (ptr - unitSize))) → ∀ live',
      SparesPayloads h (.malloc size) ⟨b', live'⟩ := by
    intro b' hstores live' ptr sz hlive _ n hn a ha
    obtain rfl : nextOf h.block.mem (ptr - unitSize) = n := by
      simpa [hlayout.chunkNext_eq (hlayout.live_head ptr sz hlive).2] using hn
    exact hstores a ha ptr sz hlive
  rcases blockMalloc_cases hl.toTiling hfree hok.1 hok.2 with
    ⟨-, hnone⟩ | ⟨c, hc, -, hbit, hfits, -, -, b', hmalloc, hwhole, hfree'⟩ |
      ⟨c, hc, n, -, hbit, hcn, hfits, hn16, -, -, b', hmalloc, hsplit, hfree'⟩
  · have hinv' : LinkedInv ⟨fresh h.block, h.live⟩ := ⟨heads, hl, hfree, hlinked, hcoal⟩
    refine ⟨_, _, Option.bind_eq_some_iff.mpr ⟨_, hnone, rfl⟩, ⟨fun _ ↦ trivial, fun _ ↦ ⟨?_, ?_⟩⟩,
      fun _ ↦ hinv'⟩
    · exact (wellLinked_iff hl.toTiling).mpr ⟨hlinked, hcoal⟩
    · exact hspares _ (by simp [fresh]) _
  · obtain ⟨hlinked', hcoal'⟩ := hwhole.linked hl.toTiling hc hlinked hcoal
    have hl' := hwhole.layout hl hc hfits hok.1
    refine ⟨_, _, Option.bind_eq_some_iff.mpr ⟨_, hmalloc, rfl⟩, ⟨fun _ ↦ trivial, fun _ ↦ ⟨?_, ?_⟩⟩,
      fun _ ↦ ⟨heads, ?_, hfree' ▸ u4Sub_lt _ _, hlinked', hcoal'⟩⟩
    · exact (wellLinked_iff hl'.toTiling).mpr ⟨hlinked', hcoal'⟩
    · refine hspares b' (fun a ha ptr sz hlive ↦ ?_) _
      have hstore : a = nextField c := by simpa [hwhole.stores_eq, fresh] using ha
      exact header_not_payload hlayout hlive hc (.inr hstore)
    · rw [granted, if_neg (hposHead c)]
      exact hl'
  · have hnNext : n + 16 ≤ nextOf (fresh h.block).mem c := by omega
    have hlinked' := hsplit.linked hl.toTiling hc hcn hnNext hn16 hlinked
    have hcoal' := hsplit.coalesced hl.toTiling hc hbit hcn hnNext hn16 hcoal
    have hl' := hsplit.layout hl hc hbit hcn hnNext hn16 hfits hok.1
    refine ⟨_, _, Option.bind_eq_some_iff.mpr ⟨_, hmalloc, rfl⟩, ⟨fun _ ↦ trivial, fun _ ↦ ⟨?_, ?_⟩⟩,
      fun _ ↦ ⟨insert n heads, ?_, hfree' ▸ u4Sub_lt _ _, hlinked', hcoal'⟩⟩
    · exact (wellLinked_iff hl'.toTiling).mpr ⟨hlinked', hcoal'⟩
    · refine hspares b' (fun a ha ptr sz hlive ↦ ?_) _
      have hstore : a ∈ splitStores (fresh h.block) c n := by
        simpa [fresh] using hsplit.stores_sub a ha
      rcases hstore with rfl | hn | hn | ⟨hn, hne⟩
      · exact header_not_payload hlayout hlive hc (.inr rfl)
      · exact split_not_payload hlayout hc hbit hlive hcn hnNext (.inr hn)
      · exact split_not_payload hlayout hc hbit hlive hcn hnNext (.inl hn)
      · exact header_not_payload hlayout hlive (hlayout.next_mem c hc hne) (.inl hn)
    · rw [granted, if_neg (hposHead n)]
      exact hl'

theorem free_exact {h : Heap} (hinv : LinkedInv h) (hok : callOk h (.free ptr)) :
    CallExact h (.free ptr) := by
  obtain ⟨heads, hlayout, hfree, hlinked, hcoal⟩ := hinv
  obtain ⟨size, hlive⟩ := Option.isSome_iff_exists.mp hok
  have hl := hlayout.fresh
  obtain ⟨hle, hc⟩ := hl.live_head ptr size hlive
  obtain ⟨b₁, b₂, b₃, hexec, hrel, hnext, hpre⟩ := blockFree_steps hl hlive
  obtain ⟨heads₃, hl₃, hiff, hstores⟩ := linked_after_free hl hc hlinked hcoal hrel hnext hpre
  rw [Nat.sub_add_cancel hle] at hl₃
  refine ⟨_, _, Option.bind_eq_some_iff.mpr ⟨_, hexec, rfl⟩, ?_, fun hkeeps ↦ ?_⟩
  · have hspares : SparesPayloads h (.free ptr)
        ⟨b₃, Function.update h.live ptr none⟩ := by
      intro ptr' sz hlive' _ n hn a ha
      obtain rfl : nextOf h.block.mem (ptr' - unitSize) = n := by
        simpa [hlayout.chunkNext_eq (hlayout.live_head ptr' sz hlive').2] using hn
      obtain ⟨d, hd, hstore⟩ : ∃ d ∈ heads, a = nextField d := by
        simpa [fresh] using hstores a ha
      exact header_not_payload hlayout hlive' hd (.inr hstore)
    rw [wellLinked_iff hl₃.toTiling]
    exact ⟨fun hboth ↦ hiff.mp hboth.1, fun hkeeps ↦ ⟨hiff.mpr hkeeps, hspares⟩⟩
  · exact ⟨heads₃, hl₃, hpre.free_lt (hnext.free_lt hrel.free_lt), hiff.mpr hkeeps⟩

theorem write_exact {h : Heap} (hinv : LinkedInv h) {addr word : ℕ}
    (hok : callOk h (.write addr word)) : CallExact h (.write addr word) := by
  obtain ⟨heads, hlayout, hfree, hlinked, hcoal⟩ := hinv
  obtain ⟨-, ptr, hge, size, hlive, hlt⟩ := hok
  have hoff : ∀ d ∈ heads, addr ≠ nextField d ∧ addr ≠ preField d :=
    fun d hd ↦ hlayout.user_word hlive hge hlt hd
  set b' : BlockT :=
    { h.block with mem := Function.update h.block.mem addr word, stores := [] } with hb'
  have hframe : SameFrame h.block b' := ⟨rfl, rfl, rfl⟩
  have hl' : Layout b' heads h.live :=
    hlayout.write_inside hframe rfl (fun d hd ↦ (hoff d hd).1) fun d hd ↦ (hoff d hd).2
  have hword : ∀ d ∈ heads, b'.mem (nextField d) = h.block.mem (nextField d) :=
    fun d hd ↦ Function.update_of_ne (hoff d hd).1.symm _ _
  have hnext : ∀ d ∈ heads, nextOf b'.mem d = nextOf h.block.mem d :=
    fun d hd ↦ by rw [nextOf, hword d hd, nextOf]
  have hfreeOf : ∀ d ∈ heads, freeOf b'.mem d = freeOf h.block.mem d :=
    fun d hd ↦ by rw [freeOf, hword d hd, freeOf]
  have hlinked' : Linked b' heads := by
    intro d hd hne
    rw [hnext d hd] at hne ⊢
    have hmem := hlayout.next_mem d hd hne
    exact (Function.update_of_ne (hoff _ hmem).2.symm _ _).trans (hlinked d hd hne)
  have hcoal' : Coalesced b' heads := by
    intro d hd hne _
    rw [hnext d hd] at hne ⊢
    rw [hfreeOf d hd, hfreeOf _ (hlayout.next_mem d hd hne)]
    exact hcoal d hd hne trivial
  refine ⟨_, _, rfl, ⟨fun _ ↦ trivial, fun _ ↦ ⟨?_, ?_⟩⟩,
    fun _ ↦ ⟨heads, hl', hfree, hlinked', hcoal'⟩⟩
  · exact (wellLinked_iff hl'.toTiling).mpr ⟨hlinked', hcoal'⟩
  · intro ptr' sz _ _ n _ a ha
    exact absurd ha List.not_mem_nil

theorem call_exact {h : Heap} (hinv : LinkedInv h) {call : Call} (hok : callOk h call) :
    CallExact h call := by
  cases call with
  | malloc size => exact malloc_exact hinv hok
  | free ptr => exact free_exact hinv hok
  | write addr word => exact write_exact hinv hok

theorem init_linkedInv {h : Heap} (hinit : fromInit h) : LinkedInv h := by
  obtain ⟨⟨size, addr, mem, halign, hblock⟩, hlive⟩ := hinit
  obtain ⟨hlayout, hfree, hnext⟩ := blockInit_layout halign hblock
  refine ⟨{h.block.data}, by rw [hlive]; exact hlayout, hfree, ?_, ?_⟩
  · rintro c rfl hne
    exact absurd hnext hne
  · rintro c rfl hne
    exact absurd hnext hne

theorem trace_linkedInv {h : Heap} {log : List (Call × Ret)} (htrace : linkedMachine.Trace h log) :
    LinkedInv h := by
  refine htrace.invariant LinkedInv (fun _ hinit ↦ init_linkedInv hinit) ?_
  intro h call r h' hinv hok hexec
  obtain ⟨r₁, h₁, hexec₁, -, hinv₁⟩ := call_exact hinv hok.1
  obtain ⟨-, rfl⟩ : r₁ = r ∧ h₁ = h' := by
    have heq := hexec₁.symm.trans hexec
    simpa using heq
  exact hinv₁ hok.2

/-- In every run whose releases merge chunks only at the end of the block, the chunk list is doubly
linked and coalesced.  From each state of such a run, a further call keeps this and stores into no
live payload exactly if it meets the condition too. -/
theorem chunk_list_linked {h : Heap} {log : List (Call × Ret)}
    (htrace : linkedMachine.Trace h log) :
    WellLinked h.block ∧
      ∀ call, callOk h call → ∃ r h', callExec h call = some (r, h') ∧
        (WellLinked h'.block ∧ SparesPayloads h call h' ↔ CallKeepsLinks h call) := by
  have hinv := trace_linkedInv htrace
  refine ⟨?_, fun call hok ↦ ?_⟩
  · obtain ⟨heads, hlayout, -, hlinked, hcoal⟩ := hinv
    exact (wellLinked_iff hlayout.toTiling).mpr ⟨hlinked, hcoal⟩
  · obtain ⟨r, h', hexec, hiff, -⟩ := call_exact hinv hok
    exact ⟨r, h', hexec, hiff⟩

/-- Two allocations, the second cut below the first. -/
def twoMallocs : List Call := [.malloc 1, .malloc 1]

theorem twoMallocs_run : (linkedMachine.execAll smallHeap twoMallocs).isSome := by with_unfolding_all decide

theorem chunk_list_linked_small :
    ∃ h log, linkedMachine.Trace h log ∧ h.live 2224 = some 1 ∧ WellLinked h.block := by
  have hok : linkedMachine.AllOk smallHeap twoMallocs := by with_unfolding_all decide
  have htrace := Machine.trace_execAll (M := linkedMachine) smallHeap_init hok
    (Option.some_get twoMallocs_run).symm
  exact ⟨_, _, htrace, by with_unfolding_all decide, (chunk_list_linked htrace).1⟩

/-- Two allocations and the release of the second: it merges with the free chunk before it, and the
back link of the first still names it. -/
def mergeCalls : List Call := [.malloc 1, .malloc 1, .free 2224]

theorem mergeCalls_run : (blockMachine.execAll smallHeap mergeCalls).isSome := by decide +kernel

theorem chunk_list_unlinked :
    ∃ h log, blockMachine.Trace h log ∧ ¬ WellLinked h.block := by
  have hok : blockMachine.AllOk smallHeap mergeCalls := by decide +kernel
  have htrace := Machine.trace_execAll (M := blockMachine) smallHeap_init hok
    (Option.some_get mergeCalls_run).symm
  refine ⟨_, _, htrace, ?_⟩
  rintro ⟨chunks, hchunks, hall⟩
  have hwalk : blockChunks ((blockMachine.execAll smallHeap mergeCalls).get mergeCalls_run).2.block =
      some [32, 2720] := by decide +kernel
  obtain rfl : chunks = [32, 2720] := by simpa [hwalk] using hchunks.symm
  have hlink := (hall 32 (by simp) 2720 (by decide +kernel) (by decide +kernel)).1
  exact absurd hlink (by decide +kernel)

end CPractice.MemPool
