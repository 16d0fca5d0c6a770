import CPractice.MemPool.Safety
import Mathlib.Algebra.BigOperators.Ring.Finset

/-!
# The count of free bytes

`block->free` starts at the size of the block, is lowered by the size asked for and raised by what a
released chunk measures, with a correction of one header for each merge.  The charges of the chunks say
what it should be: a live chunk is charged its length in headers, a run of free chunks one header, and
`free` together with the charges is the size of the block and one header.
-/

namespace CPractice.MemPool

variable {b b' : BlockT} {H : Finset ℕ} {live : ℕ → Option ℕ} {c n : ℕ}

/-- `chunk_mem_size`, in headers. -/
def unitsOf (b : BlockT) (c : ℕ) : ℕ := (nextOf b.mem c - c) / 16

/-- The free bit of the chunk behind. -/
def freeBehind (b : BlockT) (c : ℕ) : ℕ :=
  if nextOf b.mem c = blockEnd b then 0 else freeOf b.mem (nextOf b.mem c)

/-- What a chunk takes off `free`; of a run of free chunks, the last is charged. -/
def charge (b : BlockT) (c : ℕ) : ℕ :=
  if freeOf b.mem c = 0 then unitsOf b c else 16 * (1 - freeBehind b c)

/-- The free bit of the chunk before. -/
def freeBefore (b : BlockT) (c : ℕ) : ℕ :=
  (((blockChunks b).getD []).map fun d ↦ if nextOf b.mem d = c then freeOf b.mem d else 0).sum

/-- The charges of a block with these headers. -/
def charges (b : BlockT) (H : Finset ℕ) : ℕ := ∑ d ∈ H, charge b d

theorem freeOf_cases (mem : ℕ → ℕ) (c : ℕ) : freeOf mem c = 0 ∨ freeOf mem c = 1 := by
  unfold freeOf
  omega

theorem charge_of_live (h : freeOf b.mem c = 0) : charge b c = unitsOf b c := if_pos h

theorem charge_of_free (h : freeOf b.mem c = 1) : charge b c = 16 * (1 - freeBehind b c) :=
  if_neg (by omega)

/-! ## The chunks in order -/

theorem chunksFrom_sorted {heads : Set ℕ} (h : Tiling b heads) (fuel : ℕ) :
    ∀ cur, (cur ∈ heads ∨ cur = blockEnd b) → blockEnd b - cur < 16 * fuel →
      ∀ cs, chunksFrom b fuel cur = some cs → cs.Pairwise (· < ·) := by
  induction fuel with
  | zero => intro cur _ hlt; omega
  | succ fuel ih =>
      intro cur hcur hlt cs hcs
      by_cases hend : cur = blockEnd b
      · rw [chunksFrom, if_pos hend] at hcs
        cases hcs
        exact .nil
      · have hmem : cur ∈ heads := hcur.resolve_right hend
        have hnext : nextOf b.mem cur ∈ heads ∨ nextOf b.mem cur = blockEnd b :=
          (em (nextOf b.mem cur = blockEnd b)).symm.imp (h.next_mem cur hmem) id
        have hstep := h.add_unit_le_next hmem
        have hle := h.next_le_end hmem
        have hcurEnd := h.lt_end cur hmem
        have hfuel : blockEnd b - nextOf b.mem cur < 16 * fuel := by omega
        obtain ⟨rest, hrest, hspec⟩ := chunksFrom_spec h fuel _ hnext hfuel
        rw [chunksFrom, if_neg hend, h.chunkNext_eq hmem, Option.bind_eq_bind, Option.bind_some,
          hrest] at hcs
        cases hcs
        refine List.pairwise_cons.mpr ⟨fun d hd ↦ ?_, ih _ hnext hfuel rest hrest⟩
        have hge := ((hspec d).mp hd).2
        omega

theorem blockChunks_toFinset (h : Tiling b ↑H) :
    ∃ cs, blockChunks b = some cs ∧ cs.Nodup ∧ cs.toFinset = H := by
  have hfuel : blockEnd b - b.bottom < 16 * walkFuel b := by
    unfold walkFuel blockEnd unitSize
    rw [h.bottom_eq]
    omega
  obtain ⟨cs, hcs, hspec⟩ := blockChunks_spec h
  have hsorted := chunksFrom_sorted h (walkFuel b) b.bottom (.inl (h.bottom_eq ▸ h.data_mem)) hfuel cs hcs
  refine ⟨cs, hcs, hsorted.imp fun hlt ↦ hlt.ne, ?_⟩
  ext c
  rw [List.mem_toFinset, hspec, Finset.mem_coe]

theorem freeBefore_eq (h : Tiling b ↑H) (c : ℕ) :
    freeBefore b c = ∑ d ∈ H, if nextOf b.mem d = c then freeOf b.mem d else 0 := by
  obtain ⟨cs, hcs, hnodup, rfl⟩ := blockChunks_toFinset h
  rw [freeBefore, hcs, Option.getD_some, List.sum_toFinset _ hnodup]

/-- The chunk before is the only one whose free bit counts. -/
theorem freeBefore_of_next (h : Tiling b ↑H) (hc : c ∈ H) :
    freeBefore b (nextOf b.mem c) = freeOf b.mem c := by
  rw [freeBefore_eq h, Finset.sum_eq_single c, if_pos rfl]
  · exact fun d hd hne ↦ if_neg fun heq ↦ hne (h.next_inj hd hc heq)
  · exact fun hout ↦ absurd hc hout

theorem freeBefore_first (h : Tiling b ↑H) : freeBefore b b.data = 0 := by
  rw [freeBefore_eq h]
  refine Finset.sum_eq_zero fun d hd ↦ if_neg ?_
  have hge := h.ge_data d hd
  have hlt := h.lt_next d hd
  omega

/-! ## Changes of one chunk -/

theorem charges_erase (b : BlockT) (hc : c ∈ H) : charges b H = charge b c + charges b (H.erase c) :=
  (Finset.add_sum_erase H (charge b) hc).symm

/-- Charges are read from the `next` words of the headers. -/
theorem charge_congr (h : Tiling b ↑H) (hframe : SameFrame b b')
    (hword : ∀ d ∈ H, b'.mem (nextField d) = b.mem (nextField d)) (hc : c ∈ H) :
    charge b' c = charge b c := by
  have hnext : nextOf b'.mem c = nextOf b.mem c := by rw [nextOf, hword c hc, nextOf]
  have hfree : ∀ d ∈ H, freeOf b'.mem d = freeOf b.mem d := fun d hd ↦ by rw [freeOf, hword d hd, freeOf]
  have hbehind : freeBehind b' c = freeBehind b c := by
    rw [freeBehind, freeBehind, hnext, hframe.blockEnd_eq]
    split
    · rfl
    · rename_i hend
      exact hfree _ (h.next_mem c hc hend)
  rw [charge, charge, hfree c hc, unitsOf, hnext, hbehind, unitsOf]

theorem charges_congr (h : Tiling b ↑H) (hframe : SameFrame b b')
    (hword : ∀ d ∈ H, b'.mem (nextField d) = b.mem (nextField d)) : charges b' H = charges b H :=
  Finset.sum_congr rfl fun _ hd ↦ charge_congr h hframe hword hd

/-- A chunk that is live in `b` and free in `b'`, all else being equal. -/
structure Flipped (b b' : BlockT) (H : Finset ℕ) (c : ℕ) : Prop where
  frame : SameFrame b b'
  next : nextOf b'.mem c = nextOf b.mem c
  word : ∀ d ∈ H, d ≠ c → b'.mem (nextField d) = b.mem (nextField d)
  live : freeOf b.mem c = 0
  free : freeOf b'.mem c = 1

theorem Flipped.freeBehind_eq (hflip : Flipped b b' H c) (h : Tiling b ↑H) (hc : c ∈ H) :
    freeBehind b' c = freeBehind b c := by
  rw [freeBehind, freeBehind, hflip.next, hflip.frame.blockEnd_eq]
  by_cases hend : nextOf b.mem c = blockEnd b
  · rw [if_pos hend, if_pos hend]
  · have hword := hflip.word _ (h.next_mem c hc hend) (h.lt_next c hc).ne'
    rw [if_neg hend, if_neg hend, freeOf, freeOf, hword]

theorem Flipped.freeBefore_eq (hflip : Flipped b b' H c) (h : Tiling b ↑H) (h' : Tiling b' ↑H)
    (hc : c ∈ H) : freeBefore b' c = freeBefore b c := by
  rw [MemPool.freeBefore_eq h', MemPool.freeBefore_eq h]
  refine Finset.sum_congr rfl fun d hd ↦ ?_
  by_cases hdc : d = c
  · have hlt := h.lt_next c hc
    rw [hdc, hflip.next, if_neg hlt.ne', if_neg hlt.ne']
  · rw [nextOf, nextOf, freeOf, freeOf, hflip.word d hd hdc]

/-- The chunk before pays no longer when the chunk becomes free, and the chunk itself only if the one
behind is live. -/
theorem Flipped.charges_eq (hflip : Flipped b b' H c) (h : Tiling b ↑H) (hc : c ∈ H) :
    charges b H + 16 * (1 - freeBehind b c) = charges b' H + unitsOf b c + 16 * freeBefore b c := by
  have hcEnd := h.lt_end c hc
  have hcNext := h.lt_next c hc
  have hpoint : ∀ d ∈ H.erase c,
      charge b d = charge b' d + 16 * if nextOf b.mem d = c then freeOf b.mem d else 0 := by
    intro d hd
    obtain ⟨hne, hd⟩ := Finset.mem_erase.mp hd
    have hword := hflip.word d hd hne
    have hnext : nextOf b'.mem d = nextOf b.mem d := by rw [nextOf, hword, nextOf]
    have hfree : freeOf b'.mem d = freeOf b.mem d := by rw [freeOf, hword, freeOf]
    rw [charge, charge, hfree, unitsOf, unitsOf, hnext, freeBehind, freeBehind, hnext,
      hflip.frame.blockEnd_eq]
    by_cases hdc : nextOf b.mem d = c
    · have hlive := hflip.live
      have hfree' := hflip.free
      rw [hdc, if_neg hcEnd.ne, if_neg hcEnd.ne, if_pos rfl, hlive, hfree']
      rcases freeOf_cases b.mem d with hzero | hone
      · rw [hzero]
        rfl
      · rw [hone]
        rfl
    · rw [if_neg hdc]
      by_cases hend : nextOf b.mem d = blockEnd b
      · rw [if_pos hend, if_pos hend]
        rfl
      · have hword' := hflip.word _ (h.next_mem d hd hend) hdc
        have hsame : freeOf b'.mem (nextOf b.mem d) = freeOf b.mem (nextOf b.mem d) := by
          rw [freeOf, hword', freeOf]
        rw [if_neg hend, if_neg hend, hsame]
        rfl
  have hcharge : charge b' c = 16 * (1 - freeBehind b c) := by
    rw [charge_of_free hflip.free, hflip.freeBehind_eq h hc]
  have hbefore : freeBefore b c =
      ∑ d ∈ H.erase c, if nextOf b.mem d = c then freeOf b.mem d else 0 := by
    rw [MemPool.freeBefore_eq h, ← Finset.add_sum_erase H _ hc, if_neg hcNext.ne', Nat.zero_add]
  have hsum : charges b (H.erase c) = charges b' (H.erase c) + 16 * freeBefore b c := by
    rw [charges, Finset.sum_congr rfl hpoint, Finset.sum_add_distrib, ← Finset.mul_sum, hbefore]
    rfl
  rw [charges_erase b hc, charges_erase b' hc, charge_of_live hflip.live, hcharge, hsum]
  omega

/-- Merging two free chunks changes no charge of the block. -/
theorem AbsorbedBy.charges_eq (habs : AbsorbedBy b b' c n) (h : Tiling b ↑H) (hc : c ∈ H) (hn : n ∈ H)
    (hcn : nextOf b.mem c = n) (hfreeC : freeOf b.mem c = 1) (hfreeN : freeOf b.mem n = 1) :
    charges b' (H.erase n) = charges b H := by
  have hltC := h.lt_next c hc
  have hltN := h.lt_next n hn
  have hnEnd := h.lt_end n hn
  have hne : c ≠ n := by omega
  have hword : ∀ d, d ≠ c → b'.mem (nextField d) = b.mem (nextField d) := by
    intro d hdc
    rw [habs.mem_eq, Function.update_of_ne (Tiling.next_injective hdc)]
  have hwordC : b'.mem (nextField c) = b.mem (nextField n) := by
    rw [habs.mem_eq, Function.update_self]
  have hfree : ∀ d, freeOf b'.mem d = freeOf b.mem d := by
    intro d
    by_cases hdc : d = c
    · rw [hdc, hfreeC, freeOf, hwordC]
      exact hfreeN
    · rw [freeOf, hword d hdc, freeOf]
  have hchargeC : charge b' c = charge b n := by
    have hnextC : nextOf b'.mem c = nextOf b.mem n := by rw [nextOf, hwordC, nextOf]
    rw [charge_of_free ((hfree c).trans hfreeC), charge_of_free hfreeN, freeBehind, freeBehind, hnextC,
      habs.frame.blockEnd_eq, hfree]
  have hzero : charge b c = 0 := by
    rw [charge_of_free hfreeC, freeBehind, hcn, if_neg hnEnd.ne, hfreeN]
  have hrest : charges b' ((H.erase n).erase c) = charges b ((H.erase n).erase c) := by
    refine Finset.sum_congr rfl fun d hd ↦ ?_
    obtain ⟨hdc, -⟩ := Finset.mem_erase.mp hd
    rw [charge, charge, unitsOf, unitsOf, freeBehind, freeBehind, hfree, nextOf, hword d hdc,
      habs.frame.blockEnd_eq, hfree]
    rfl
  have hcN : c ∈ H.erase n := Finset.mem_erase.mpr ⟨hne, hc⟩
  rw [charges_erase b' hcN, hrest, hchargeC, charges_erase b hn, charges_erase b hcN, hzero]
  omega

/-- A split takes the new chunk off, and one header more if the chunk behind is free. -/
theorem SplitAt.charges_eq (hsplit : SplitAt b b' c n) (h : Tiling b ↑H) (hc : c ∈ H)
    (hcn : c + 16 ≤ n) (hnNext : n + 16 ≤ nextOf b.mem c) (hn16 : (n - b.data) % 16 = 0)
    (hfree : freeOf b.mem c = 1) :
    charges b' (insert n H) = charges b H + (nextOf b.mem c - n) / 16 + 16 * freeBehind b c := by
  have hend := h.next_le_end hc
  have heven : nextOf b.mem c % 2 = 0 := by unfold nextOf; omega
  have hnNotMem : n ∉ H := by
    intro hmem
    have hgap := h.gap c hc n hmem (by omega)
    omega
  have hword : ∀ d ∈ H, d ≠ c → b'.mem (nextField d) = b.mem (nextField d) :=
    fun d hd hne ↦ hsplit.agree_next h hc hcn hnNext hd hne
  have hnEven : n % 2 = 0 := by
    have hdata := h.data_align
    have hge := h.ge_data c hc
    omega
  have hnextC : nextOf b'.mem c = n := by
    rw [nextOf, hsplit.next_chunk]
    omega
  have hnextN : nextOf b'.mem n = nextOf b.mem c := by
    rw [nextOf, hsplit.next_ret]
    omega
  have hfreeC : freeOf b'.mem c = 1 := by
    rw [freeOf, hsplit.next_chunk]
    omega
  have hfreeN : freeOf b'.mem n = 0 := by
    rw [freeOf, hsplit.next_ret, heven]
  have hsame : ∀ d ∈ H, freeOf b'.mem d = freeOf b.mem d := by
    intro d hd
    by_cases hdc : d = c
    · rw [hdc, hfreeC, hfree]
    · rw [freeOf, hword d hd hdc, freeOf]
  have hchargeN : charge b' n = (nextOf b.mem c - n) / 16 := by
    rw [charge_of_live hfreeN, unitsOf, hnextN]
  have hchargeC : charge b' c = 16 := by
    rw [charge_of_free hfreeC, freeBehind, hnextC, hsplit.frame.blockEnd_eq, if_neg (by omega), hfreeN]
  have hchargeOld : charge b c + 16 * freeBehind b c = 16 := by
    have hbit : freeBehind b c ≤ 1 := by
      rw [freeBehind]
      split
      · omega
      · rcases freeOf_cases b.mem (nextOf b.mem c) with hbit | hbit <;> omega
    rw [charge_of_free hfree]
    omega
  have hrest : charges b' (H.erase c) = charges b (H.erase c) := by
    refine Finset.sum_congr rfl fun d hd ↦ ?_
    obtain ⟨hdc, hd⟩ := Finset.mem_erase.mp hd
    have hnext : nextOf b'.mem d = nextOf b.mem d := by rw [nextOf, hword d hd hdc, nextOf]
    rw [charge, charge, unitsOf, unitsOf, freeBehind, freeBehind, hsame d hd, hnext,
      hsplit.frame.blockEnd_eq]
    by_cases hlast : nextOf b.mem d = blockEnd b
    · rw [if_pos hlast, if_pos hlast]
    · rw [if_neg hlast, if_neg hlast, hsame _ (h.next_mem d hd hlast)]
  have hinsert : charges b' (insert n H) = charge b' n + charges b' H := Finset.sum_insert hnNotMem
  rw [hinsert, charges_erase b' hc, hrest, hchargeN, hchargeC, charges_erase b hc]
  omega

/-! ## What the charges say -/

/-- Live chunks hold a header and what was asked for, counted twice over. -/
def Roomy (b : BlockT) (H : Finset ℕ) : Prop := ∀ c ∈ H, freeOf b.mem c = 0 → 32 ≤ unitsOf b c

theorem exists_last (h : Tiling b ↑H) : ∃ c ∈ H, nextOf b.mem c = blockEnd b := by
  have hpos := h.lt_end _ h.data_mem
  obtain ⟨p, hp, hle, hlt⟩ := h.exists_cover (a := blockEnd b - 1) (by omega) (by omega)
  have hend := h.next_le_end hp
  exact ⟨p, hp, by omega⟩

theorem charge_last (hroomy : Roomy b H) (hc : c ∈ H) (hlast : nextOf b.mem c = blockEnd b) :
    16 ≤ charge b c := by
  rcases freeOf_cases b.mem c with hzero | hone
  · rw [charge_of_live hzero]
    exact (hroomy c hc hzero).trans' (by decide)
  · rw [charge_of_free hone, freeBehind, if_pos hlast]

theorem charge_le_charges (b : BlockT) (hc : c ∈ H) : charge b c ≤ charges b H := by
  rw [charges_erase b hc]
  exact Nat.le_add_right _ _

theorem sixteen_le_charges (h : Tiling b ↑H) (hroomy : Roomy b H) : 16 ≤ charges b H := by
  obtain ⟨c, hc, hlast⟩ := exists_last h
  exact (charge_last hroomy hc hlast).trans (charge_le_charges b hc)

/-- Without a live chunk the only charge is that of the last one. -/
theorem charges_of_unused (h : Tiling b ↑H) (hfree : ∀ c ∈ H, freeOf b.mem c = 1) :
    charges b H = 16 := by
  obtain ⟨c, hc, hlast⟩ := exists_last h
  have hrest : charges b (H.erase c) = 0 := by
    refine Finset.sum_eq_zero fun d hd ↦ ?_
    obtain ⟨hdc, hd⟩ := Finset.mem_erase.mp hd
    have hend : nextOf b.mem d ≠ blockEnd b := fun hend ↦ hdc (h.next_inj hd hc (hend.trans hlast.symm))
    rw [charge_of_free (hfree d hd), freeBehind, if_neg hend, hfree _ (h.next_mem d hd hend)]
    rfl
  rw [charges_erase b hc, hrest, charge_of_free (hfree c hc), freeBehind, if_pos hlast]

theorem charges_iff_unused (h : Tiling b ↑H) (hroomy : Roomy b H) :
    charges b H = 16 ↔ ∀ c ∈ H, freeOf b.mem c = 1 := by
  refine ⟨fun hsum c hc ↦ ?_, charges_of_unused h⟩
  refine (freeOf_cases b.mem c).resolve_left fun hzero ↦ ?_
  have hunits := hroomy c hc hzero
  have hle := charge_le_charges b hc
  rw [charge_of_live hzero] at hle
  omega

/-! ## The books of a block -/

/-- The count of free bytes and the charges make up the size of the block and one header. -/
structure Balanced (b : BlockT) (H : Finset ℕ) : Prop where
  sum : b.free + charges b H = b.size + 16
  roomy : Roomy b H

theorem Balanced.free_le (hbal : Balanced b H) (h : Tiling b ↑H) : b.free ≤ b.size := by
  have hsum := hbal.sum
  have hge := sixteen_le_charges h hbal.roomy
  omega

theorem Balanced.free_eq_iff (hbal : Balanced b H) (h : Layout b ↑H live) :
    b.free = b.size ↔ ∀ ptr, live ptr = none := by
  have hsum := hbal.sum
  have hiff := charges_iff_unused h.toTiling hbal.roomy
  have hcount : b.free = b.size ↔ charges b H = 16 := by omega
  rw [hcount, hiff]
  constructor
  · intro hfree ptr
    by_contra hlive
    obtain ⟨size, hsome⟩ := Option.ne_none_iff_exists'.mp hlive
    obtain ⟨hle, hmem⟩ := h.live_head ptr size hsome
    have hzero := (h.live_iff _ hmem).mpr (by rw [Nat.sub_add_cancel hle, hsome]; rfl)
    have hone := hfree _ hmem
    omega
  · intro hnone c hc
    refine (freeOf_cases b.mem c).resolve_left fun hzero ↦ ?_
    have hsome := (h.live_iff c hc).mp hzero
    rw [hnone] at hsome
    cases hsome

/-- Live chunks that keep their extent keep their size. -/
theorem Roomy.of_agree {H' : Finset ℕ} (hroomy : Roomy b H) (hsub : H' ⊆ H)
    (hword : ∀ d ∈ H', freeOf b'.mem d = 0 → b'.mem (nextField d) = b.mem (nextField d)) :
    Roomy b' H' := by
  intro d hd hzero
  have hsame := hword d hd hzero
  have hold : freeOf b.mem d = 0 := by rwa [freeOf, hsame] at hzero
  have hunits := hroomy d (hsub hd) hold
  rwa [unitsOf, nextOf, hsame]

/-! ## `block_malloc` -/

/-- The bytes that `block_malloc` counts for a request. -/
def taken (size : ℕ) : ℕ := alignSize (size + unitSize)

/-- A chunk that is handed out whole has 16 headers more than counted if its neighbours are live, as many
as counted if one of them is free; a chunk that is cut has no free chunk behind it. -/
def TakesExactly (b : BlockT) (size : ℕ) : Prop :=
  chosen b size = 0 ∨
    if unitsOf b (chosen b size) < taken size + 48 then
      unitsOf b (chosen b size) + 16 * freeBefore b (chosen b size) =
        taken size + 16 * (1 - freeBehind b (chosen b size))
    else freeBehind b (chosen b size) = 0

instance (b : BlockT) (size : ℕ) : Decidable (TakesExactly b size) :=
  inferInstanceAs (Decidable (_ ∨ _))

theorem le_taken {size : ℕ} (hpos : 0 < size) : 32 ≤ taken size := by
  unfold taken alignSize unitSize
  omega

theorem taken_le_free {size : ℕ} (hchosen : chosen b size ≠ 0) : taken size ≤ b.free := by
  by_contra hlt
  exact hchosen (if_pos (by unfold taken at hlt; omega))

/-- A chunk handed out whole. -/
theorem TakenWhole.balanced {size : ℕ} (hwhole : TakenWhole b b' c) (hbal : Balanced b H)
    (h : Tiling b ↑H) (h' : Tiling b' ↑H) (hc : c ∈ H) (hbit : freeOf b.mem c = 1) (hpos : 0 < size)
    (hunits : taken size ≤ unitsOf b c) (hle : taken size ≤ b.free)
    (hexact : unitsOf b c + 16 * freeBefore b c = taken size + 16 * (1 - freeBehind b c))
    (hfree : b'.free = b.free - taken size) : Balanced b' H := by
  have heven : nextOf b.mem c % 2 = 0 := by unfold nextOf; omega
  have hword : ∀ d ∈ H, d ≠ c → b'.mem (nextField d) = b.mem (nextField d) := by
    intro d _ hdc
    rw [hwhole.mem_eq, Function.update_of_ne (Tiling.next_injective hdc)]
  have hnext : nextOf b'.mem c = nextOf b.mem c := by
    rw [nextOf, hwhole.mem_eq, Function.update_self, even_div_mul heven]
  have hlive : freeOf b'.mem c = 0 := by rw [freeOf, hwhole.mem_eq, Function.update_self, heven]
  have hflip : Flipped b' b H c :=
    { frame := ⟨hwhole.frame.size.symm, hwhole.frame.data.symm, hwhole.frame.bottom.symm⟩
      next := hnext.symm
      word := fun d hd hdc ↦ (hword d hd hdc).symm
      live := hlive
      free := hbit }
  have heq := hflip.charges_eq h' hc
  rw [← hflip.freeBehind_eq h' hc, ← hflip.freeBefore_eq h' h hc, unitsOf, hnext] at heq
  have hsum := hbal.sum
  have hsize := hwhole.frame.size
  refine ⟨?_, ?_⟩
  · unfold unitsOf at hexact
    omega
  · intro d hd hzero
    by_cases hdc : d = c
    · rw [hdc, unitsOf, hnext]
      exact (le_taken hpos).trans hunits
    · rw [freeOf, hword d hd hdc] at hzero
      rw [unitsOf, nextOf, hword d hd hdc]
      exact hbal.roomy d hd hzero

/-- The end of a chunk cut off. -/
theorem SplitAt.balanced {size : ℕ} (hsplit : SplitAt b b' c n) (hbal : Balanced b H) (h : Tiling b ↑H)
    (hc : c ∈ H) (hcn : c + 16 ≤ n) (hnNext : n + 16 ≤ nextOf b.mem c) (hn16 : (n - b.data) % 16 = 0)
    (hbit : freeOf b.mem c = 1) (hpos : 0 < size) (hn : n + taken size * 16 = nextOf b.mem c)
    (hle : taken size ≤ b.free) (hexact : freeBehind b c = 0) (hfree : b'.free = b.free - taken size) :
    Balanced b' (insert n H) := by
  have heq := hsplit.charges_eq h hc hcn hnNext hn16 hbit
  have hsum := hbal.sum
  have hsize := hsplit.frame.size
  have hunits : (nextOf b.mem c - n) / 16 = taken size := by omega
  refine ⟨by omega, ?_⟩
  intro d hd hzero
  rcases Finset.mem_insert.mp hd with rfl | hd
  · have hnext : nextOf b'.mem d = nextOf b.mem c := by
      rw [nextOf, hsplit.next_ret]
      unfold nextOf
      omega
    rw [unitsOf, hnext, hunits]
    exact le_taken hpos
  · have hdc : d ≠ c := by
      rintro rfl
      rw [freeOf, hsplit.next_chunk] at hzero
      have hdata := h.data_align
      have hge := h.ge_data d hc
      omega
    have hword := hsplit.agree_next h hc hcn hnNext hd hdc
    rw [freeOf, hword] at hzero
    rw [unitsOf, nextOf, hword]
    exact hbal.roomy d hd hzero

theorem Balanced.free_lt (hbal : Balanced b H) (h : Tiling b ↑H) : b.free < 4294967296 :=
  (hbal.free_le h).trans_lt h.size_lt

theorem blockMalloc_balanced {size : ℕ} (h : Layout b ↑H live) (hbal : Balanced b H) (hpos : 0 < size)
    (hsize : size < b.size) (hexact : TakesExactly b size) :
    ∃ (ptr : ℕ) (b' : BlockT) (H' : Finset ℕ), blockMalloc b size = some (ptr, b') ∧
      Layout b' ↑H' (granted live ptr size) ∧ Balanced b' H' := by
  have hlt := hbal.free_lt h.toTiling
  have hposHead : ∀ c, c + unitSize ≠ 0 := by simp [unitSize]
  rcases blockMalloc_cases h.toTiling hlt hpos hsize with
    ⟨-, hnone⟩ | ⟨c, hc, hchosen, hbit, hfits, hunits, hsmall, b', hmalloc, hwhole, hfree⟩ |
      ⟨c, hc, n, hchosen, hbit, hcn, hfits, hn16, hn, hlarge, b', hmalloc, hsplit, hfree⟩
  · exact ⟨0, b, H, hnone, h, hbal⟩
  · have hne : chosen b size ≠ 0 := hchosen ▸ (h.head_pos hc).ne'
    have hle := taken_le_free hne
    have hlayout := hwhole.layout h hc hfits hpos
    have hcond := hexact.resolve_left hne
    have hall : unitsOf b c < taken size + 48 := hsmall
    rw [hchosen, if_pos hall] at hcond
    refine ⟨_, b', H, hmalloc, ?_, ?_⟩
    · rwa [granted, if_neg (hposHead c)]
    · exact hwhole.balanced hbal h.toTiling hlayout.toTiling hc hbit hpos hunits hle hcond
        (hfree.trans (u4Sub_of_le hle hlt))
  · have hne : chosen b size ≠ 0 := hchosen ▸ (h.head_pos hc).ne'
    have hle := taken_le_free hne
    have hlayout := hsplit.layout h hc hbit hcn (by omega) hn16 hfits hpos
    have hcond := hexact.resolve_left hne
    have hcut : ¬ unitsOf b c < taken size + 48 := Nat.not_lt.mpr hlarge
    rw [hchosen, if_neg hcut] at hcond
    refine ⟨_, b', insert n H, hmalloc, ?_, ?_⟩
    · rwa [granted, if_neg (hposHead n), Finset.coe_insert]
    · exact hsplit.balanced hbal h.toTiling hc hcn (by omega) hn16 hbit hpos hn hle hcond
        (hfree.trans (u4Sub_of_le hle hlt))

/-! ## `block_free` -/

/-- The free bit that the release reads through the back link is that of the chunk before. -/
def ReleasesExactly (b : BlockT) (ptr : ℕ) : Prop :=
  ∀ chunks ∈ blockChunks b, ∀ d ∈ chunks, nextOf b.mem d = ptr - unitSize →
    freeOf b.mem (b.mem (preField (ptr - unitSize))) = freeOf b.mem d

instance (b : BlockT) (ptr : ℕ) : Decidable (ReleasesExactly b ptr) :=
  inferInstanceAs (Decidable (∀ chunks ∈ blockChunks b, ∀ d ∈ chunks, _ → _))

/-- The bit that the second merge acts on. -/
def backBit (b : BlockT) (c : ℕ) : ℕ :=
  if b.mem (preField c) = 0 then 0 else freeOf b.mem (b.mem (preField c))

theorem ReleasesExactly.backBit_eq {ptr : ℕ} (hexact : ReleasesExactly b ptr) (h : Tiling b ↑H)
    (hc : ptr - unitSize ∈ H) : backBit b (ptr - unitSize) = freeBefore b (ptr - unitSize) := by
  obtain ⟨cs, hcs, -, hmem⟩ := blockChunks_toFinset h
  rw [backBit]
  by_cases hfirst : ptr - unitSize = b.data
  · rw [hfirst, h.pre_data, if_pos rfl, freeBefore_first h]
  · obtain ⟨p, hp, hpc⟩ := h.exists_before hc hfirst
    have hlt := h.lt_end _ hc
    have hpos := h.head_pos hp
    have hpre := (h.pre_in p hp (by omega)).1
    rw [hpc] at hpre
    have hpcs : p ∈ cs := by rwa [← List.mem_toFinset, hmem]
    rw [if_neg (by omega), hexact cs hcs p hpcs hpc, ← hpc, freeBefore_of_next h hp]

/-- What a merge keeps: the layout and all charges. -/
structure Merged (b b' : BlockT) (H H' : Finset ℕ) (live : ℕ → Option ℕ) : Prop where
  frame : SameFrame b b'
  layout : Layout b' ↑H' live
  charges_eq : charges b' H' = charges b H
  roomy : Roomy b H → Roomy b' H'

theorem AbsorbedBy.merged (habs : AbsorbedBy b b' c n) (h : Layout b ↑H live) (hc : c ∈ H) (hn : n ∈ H)
    (hcn : nextOf b.mem c = n) (hfreeC : freeOf b.mem c = 1) (hfreeN : freeOf b.mem n = 1) :
    Merged b b' H (H.erase n) live := by
  refine ⟨habs.frame, ?_, habs.charges_eq h.toTiling hc hn hcn hfreeC hfreeN, fun hroomy ↦ ?_⟩
  · rw [Finset.coe_erase]
    exact habs.layout h hc hn hcn hfreeC hfreeN
  · refine hroomy.of_agree (Finset.erase_subset _ _) fun d _ hzero ↦ ?_
    rw [habs.mem_eq]
    refine Function.update_of_ne (Tiling.next_injective ?_) _ _
    rintro rfl
    rw [freeOf, habs.mem_eq, Function.update_self] at hzero
    unfold freeOf at hfreeN
    omega

theorem NextMerge.merged (hmerge : NextMerge b b' c) (h : Layout b ↑H live) (hc : c ∈ H)
    (hfree : freeOf b.mem c = 1) :
    ∃ H' : Finset ℕ, Merged b b' H H' live ∧ c ∈ H' ∧ freeOf b'.mem c = 1 ∧
      ∀ a, a ≠ nextField c → b'.mem a = b.mem a := by
  rcases hmerge with ⟨rfl, -⟩ | ⟨hend, hfreeN, habs⟩
  · exact ⟨H, ⟨⟨rfl, rfl, rfl⟩, h, rfl, id⟩, hc, hfree, fun _ _ ↦ rfl⟩
  · have hn := h.next_mem c hc hend
    have hlt := h.lt_next c hc
    refine ⟨_, habs.merged h hc hn rfl hfree hfreeN, Finset.mem_erase.mpr ⟨hlt.ne, hc⟩, ?_, fun a ha ↦ ?_⟩
    · rw [freeOf, habs.mem_eq, Function.update_self]
      exact hfreeN
    · rw [habs.mem_eq, Function.update_of_ne ha]

/-- The second merge keeps all charges also where the back link names a former header: it stores into the
chunk before. -/
theorem PreMerge.merged (hmerge : PreMerge b b' c) (h : Layout b ↑H live) (hc : c ∈ H)
    (hfree : freeOf b.mem c = 1) : ∃ H', Merged b b' H H' live := by
  rcases hmerge with ⟨rfl, -⟩ | ⟨hnil, hfreePre, habs⟩
  · exact ⟨H, ⟨rfl, rfl, rfl⟩, h, rfl, id⟩
  · obtain ⟨p, hp, hpc, hge, hlt, h16⟩ := (h.pre_cases hc).resolve_left hnil
    by_cases hhead : b.mem (preField c) ∈ H
    · have hnext : nextOf b.mem (b.mem (preField c)) = c := by
        rcases hge.eq_or_lt with heq | hgt
        · rw [← heq, hpc]
        · have hgap := h.gap p hp _ hhead hgt
          omega
      exact ⟨_, habs.merged h hhead hc hnext hfreePre hfree⟩
    · have hword : ∀ d ∈ H, b'.mem (nextField d) = b.mem (nextField d) := by
        intro d hd
        rw [habs.mem_eq]
        refine Function.update_of_ne (Tiling.next_injective ?_) _ _
        rintro rfl
        exact hhead hd
      have hpre : ∀ d ∈ H, b'.mem (preField d) = b.mem (preField d) := by
        intro d hd
        have hd16 := h.align d hd
        have hdGe := h.ge_data d hd
        have hpGe := h.ge_data p hp
        rw [habs.mem_eq]
        refine Function.update_of_ne ?_ _ _
        unfold nextField preField at *
        omega
      exact ⟨H, habs.frame, h.of_agree habs.frame hword hpre, charges_congr h.toTiling habs.frame hword,
        fun hroomy ↦ hroomy.of_agree (Finset.Subset.refl _) fun d hd _ ↦ hword d hd⟩

theorem freeBehind_le (b : BlockT) (c : ℕ) : freeBehind b c ≤ 1 := by
  rw [freeBehind]
  split
  · omega
  · rcases freeOf_cases b.mem (nextOf b.mem c) with hbit | hbit <;> omega

/-- A merge that takes place adds one header to the count. -/
theorem merge_count {free free' bit : ℕ} {stop : Prop} [Decidable stop] (hstop : stop → bit = 0)
    (hmerge : ¬ stop → bit = 1) (hcount : free' = if stop then free else u4 (free + unitSize))
    (hlt : free + 16 * bit < 4294967296) : free' = free + 16 * bit := by
  by_cases hnone : stop
  · rw [hcount, if_pos hnone, hstop hnone]
    rfl
  · rw [hmerge hnone] at hlt ⊢
    rw [hcount, if_neg hnone]
    exact u4_of_lt hlt

theorem Counted.next_eq {b₁ b₂ b₃ : BlockT} (hcount : Counted b b₁ b₂ b₃ c)
    (hlt : b₁.free + 16 * freeBehind b₁ c < 4294967296) : b₂.free = b₁.free + 16 * freeBehind b₁ c := by
  refine merge_count (fun hstop ↦ ?_) (fun hmerge ↦ ?_) hcount.next hlt
  · rw [freeBehind]
    split
    · rfl
    · exact hstop.resolve_left ‹_›
  · rw [freeBehind, if_neg (not_or.mp hmerge).1]
    exact (freeOf_cases _ _).resolve_left (not_or.mp hmerge).2

theorem Counted.pre_eq {b₁ b₂ b₃ : BlockT} (hcount : Counted b b₁ b₂ b₃ c)
    (hlt : b₂.free + 16 * backBit b₂ c < 4294967296) : b₃.free = b₂.free + 16 * backBit b₂ c := by
  refine merge_count (fun hstop ↦ ?_) (fun hmerge ↦ ?_) hcount.pre hlt
  · rw [backBit]
    split
    · rfl
    · exact hstop.resolve_left ‹_›
  · rw [backBit, if_neg (not_or.mp hmerge).1]
    exact (freeOf_cases _ _).resolve_left (not_or.mp hmerge).2

/-- The back link is read as it was before the call: it names an address below the chunk. -/
theorem backBit_congr {heads : Set ℕ} (h : Tiling b heads) (hc : c ∈ heads)
    (hword : ∀ a, a ≠ nextField c → b'.mem a = b.mem a) : backBit b' c = backBit b c := by
  have hpre : b'.mem (preField c) = b.mem (preField c) := hword _ (h.next_ne_pre hc hc).symm
  rw [backBit, backBit, hpre]
  by_cases hnil : b.mem (preField c) = 0
  · rw [if_pos hnil, if_pos hnil]
  · obtain ⟨p, -, -, -, hlt, -⟩ := (h.pre_cases hc).resolve_left hnil
    rw [if_neg hnil, if_neg hnil, freeOf, freeOf, hword _ (Tiling.next_injective hlt.ne)]

/-- A release through a back link that tells the truth keeps the books. -/
theorem blockFree_balanced {ptr size : ℕ} (h : Layout b ↑H live) (hbal : Balanced b H)
    (hlive : live ptr = some size) (hexact : ReleasesExactly b ptr) :
    ∃ (b' : BlockT) (H' : Finset ℕ), blockFree b ptr = some (0, b') ∧
      Layout b' ↑H' (Function.update live ptr none) ∧ Balanced b' H' := by
  obtain ⟨hle, hc⟩ := h.live_head ptr size hlive
  obtain ⟨b₁, b₂, b₃, hfree, hcount, hrel, hnext, hpre⟩ := blockFree_counts h hlive
  have hback := hexact.backBit_eq h.toTiling hc
  have hzero : freeOf b.mem (ptr - unitSize) = 0 :=
    (h.live_iff _ hc).mpr (by rw [Nat.sub_add_cancel hle, hlive]; rfl)
  generalize hchunk : ptr - unitSize = c at *
  have hptr : c + unitSize = ptr := by rw [← hchunk, Nat.sub_add_cancel hle]
  -- The free bit is set: the chunk stops being charged, and the runs around it join.
  obtain ⟨h₁, hbit₁, hnext₁⟩ := hrel.layout h hc
  have hword₁ : ∀ a, a ≠ nextField c → b₁.mem a = b.mem a := by
    intro a ha
    rw [hrel.mem_eq, Function.update_of_ne ha]
  have hflip : Flipped b b₁ H c :=
    { frame := hrel.frame, next := hnext₁, live := hzero, free := hbit₁
      word := fun d _ hdc ↦ hword₁ _ (Tiling.next_injective hdc.symm).symm }
  have heq := hflip.charges_eq h.toTiling hc
  have hroomy₁ : Roomy b₁ H := by
    refine hbal.roomy.of_agree (Finset.Subset.refl _) fun d _ hlive' ↦ ?_
    refine hword₁ _ (Tiling.next_injective ?_).symm
    rintro rfl
    omega
  have hcharges₁ := sixteen_le_charges h₁.toTiling hroomy₁
  -- The merges change no charge, and count the runs that have joined.
  obtain ⟨H₂, hmerged₂, hc₂, hbit₂, hword₂⟩ := hnext.merged h₁ hc hbit₁
  obtain ⟨H₃, hmerged₃⟩ := hpre.merged hmerged₂.layout hc₂ hbit₂
  have hroomy₃ := hmerged₃.roomy (hmerged₂.roomy hroomy₁)
  have hbehind := hflip.freeBehind_eq h.toTiling hc
  have hback₂ : backBit b₂ c = freeBefore b c := by
    rw [← hback]
    exact backBit_congr h.toTiling hc fun a ha ↦ (hword₂ a ha).trans (hword₁ a ha)
  have hsize := (hrel.frame.trans hmerged₂.frame).trans hmerged₃.frame |>.size
  have hsum := hbal.sum
  have hlt := h.size_lt
  have hbehind_le := freeBehind_le b c
  have hunits := hbal.roomy c hc hzero
  have hle_charges := charge_le_charges b hc
  rw [charge_of_live hzero] at hle_charges
  have hunits_lt : unitsOf b c < 4294967296 := by
    have hend := h.next_le_end hc
    have hge := h.ge_data c hc
    unfold blockEnd at hend
    unfold unitsOf
    omega
  have hfree₁ : b₁.free = b.free + unitsOf b c - 16 := by
    have hsub : u4Sub (unitsOf b c) unitSize = unitsOf b c - 16 :=
      u4Sub_of_le (hunits.trans' (by decide)) hunits_lt
    have hrelease : b₁.free = u4 (b.free + u4Sub (unitsOf b c) unitSize) := hcount.release
    rw [hrelease, hsub, u4_of_lt (by omega)]
    omega
  have hfree₂ := hcount.next_eq (by rw [hbehind]; omega)
  rw [hbehind] at hfree₂
  have hfree₃ := hcount.pre_eq (by rw [hback₂]; omega)
  rw [hback₂] at hfree₃
  refine ⟨b₃, H₃, hfree, ?_, ?_, hroomy₃⟩
  · rw [← hptr]
    exact hmerged₃.layout
  · rw [hmerged₃.charges_eq, hmerged₂.charges_eq]
    omega

end CPractice.MemPool
