import CPractice.MemPool.Ledger
import CPractice.MemPool.PoolSteps

/-!
# Accounting in a pool

The books of a block are kept by every call that takes and releases exactly what it counts.  In a run of
such calls `block->free` tells whether a block is in use, and no block goes back to the system before its
last allocation is released.
-/

namespace CPractice.MemPool

open Lib

variable {h h' : Heap} {p p' : PoolT} {ptr size addr word : ℕ} {mem : ℕ → ℕ}

/-- The books of a block with its live allocations. -/
def Ledger (h : Heap) : Prop :=
  ∃ H : Finset ℕ, Layout h.block ↑H h.live ∧ Balanced h.block H

/-! ## One block -/

theorem heapMalloc_ledger (hledger : Ledger h) (hpos : 0 < size) (hsize : size < h.block.size)
    (hexact : TakesExactly h.block size) (hmalloc : heapMalloc h size = some (ptr, h')) : Ledger h' := by
  obtain ⟨H, hl, hbal⟩ := hledger
  obtain ⟨ptr', b', H', hblock, hl', hbal'⟩ := blockMalloc_balanced hl hbal hpos hsize hexact
  rw [heapMalloc, hblock, Option.bind_eq_bind, Option.bind_some] at hmalloc
  cases hmalloc
  exact ⟨H', hl', hbal'⟩

theorem heapFree_ledger (hledger : Ledger h) (hlive : (h.live ptr).isSome)
    (hexact : ReleasesExactly h.block ptr) (hfree : heapFree h ptr = some (0, h')) : Ledger h' := by
  obtain ⟨H, hl, hbal⟩ := hledger
  obtain ⟨size, hsome⟩ := Option.isSome_iff_exists.mp hlive
  obtain ⟨b', H', hblock, hl', hbal'⟩ := blockFree_balanced hl hbal hsome hexact
  rw [heapFree, hblock, Option.bind_eq_bind, Option.bind_some] at hfree
  cases hfree
  exact ⟨H', hl', hbal'⟩

theorem userStore_ledger (hledger : Ledger h) (hmay : userMay h addr) :
    Ledger (userStore addr word h) := by
  obtain ⟨H, hl, hbal⟩ := hledger
  have hframe := userStore_frame addr word h
  have hword : ∀ d ∈ H, (userStore addr word h).block.mem (nextField d) = h.block.mem (nextField d) :=
    fun d hd ↦ (userStore_mem hl hmay hd).1
  have hfree : (userStore addr word h).block.free = h.block.free := by
    rw [userStore]
    split <;> rfl
  refine ⟨H, ?_, ?_, ?_⟩
  · rw [userStore_live]
    exact hl.of_agree hframe hword fun d hd ↦ (userStore_mem hl hmay hd).2
  · rw [hfree, charges_congr hl.toTiling hframe hword, hframe.size]
    exact hbal.sum
  · exact hbal.roomy.of_agree (Finset.Subset.refl _) fun d hd _ ↦ hword d hd

/-- A new block owes one header, for its only chunk. -/
theorem newBlock_ledger {b : BlockT} (hl : Layout b {b.data} fun _ ↦ none) (hfree : b.free = b.size)
    (hnext : nextOf b.mem b.data = blockEnd b) : Ledger ⟨b, fun _ ↦ none⟩ := by
  have hmem : b.data ∈ ({b.data} : Set ℕ) := rfl
  have hbit : freeOf b.mem b.data = 1 := by
    refine (freeOf_cases _ _).resolve_left fun hzero ↦ ?_
    simpa using (hl.live_iff _ hmem).mp hzero
  refine ⟨{b.data}, by simpa using hl, ?_, ?_⟩
  · rw [charges, Finset.sum_singleton, charge_of_free hbit, freeBehind, if_pos hnext, hfree]
  · intro c hc hzero
    obtain rfl := Finset.mem_singleton.mp hc
    rw [hbit] at hzero
    cases hzero

/-! ## The condition on a call -/

/-- The block that serves a request, an old one or a new one, takes exactly what it counts. -/
def AllocTakesExactly (p : PoolT) (size addr : ℕ) (mem : ℕ → ℕ) : Prop :=
  (∀ h ∈ p.blockList.find? fun g ↦ chosen g.block size ≠ 0, TakesExactly h.block size) ∧
    ((p.blockList.find? fun g ↦ chosen g.block size ≠ 0).isNone →
      ∀ b ∈ (blockInit p.blockSize addr mem).bind Prod.snd, TakesExactly b size)

instance (p : PoolT) (size addr : ℕ) (mem : ℕ → ℕ) : Decidable (AllocTakesExactly p size addr mem) :=
  inferInstanceAs (Decidable (_ ∧ _))

/-- The call takes or releases exactly what it counts. -/
def KeepsCount (p : PoolT) : PoolCall → Prop
  | .alloc size addr mem => 0 < size → size < p.blockSize → AllocTakesExactly p size addr mem
  | .dealloc ptr => ∀ h ∈ p.blockList, (h.live ptr).isSome → ReleasesExactly h.block ptr
  | .write _ _ => True

instance (p : PoolT) : (call : PoolCall) → Decidable (KeepsCount p call)
  | .alloc size addr mem =>
      inferInstanceAs (Decidable (0 < size → size < p.blockSize → AllocTakesExactly p size addr mem))
  | .dealloc ptr =>
      inferInstanceAs (Decidable (∀ h ∈ p.blockList, (h.live ptr).isSome → ReleasesExactly h.block ptr))
  | .write _ _ => inferInstanceAs (Decidable True)

/-- The runs all of whose calls meet the condition. -/
def countedMachine : Machine PoolT PoolCall Ret where
  init := poolInit
  ok p call := poolOk p call ∧ KeepsCount p call
  exec := poolExec

instance (p : PoolT) (call : PoolCall) : Decidable (countedMachine.ok p call) :=
  inferInstanceAs (Decidable (_ ∧ _))

/-! ## Runs -/

/-- Every block of the pool has its books in order, and those given back were unused. -/
structure PoolLedger (p : PoolT) : Prop where
  blocks : ∀ h ∈ p.blockList, Ledger h
  returned : ∀ h ∈ p.returned, ∀ ptr, h.live ptr = none

theorem PoolLedger.replace {front back : List Heap} (hledger : PoolLedger p)
    (hlist : p.blockList = front ++ h :: back) (hnew : Ledger h') :
    PoolLedger { p with blockList := front ++ h' :: back } := by
  refine ⟨fun g hg ↦ ?_, hledger.returned⟩
  have hcases : g = h' ∨ g ∈ p.blockList := by
    rw [hlist]
    simp only [List.mem_append, List.mem_cons] at hg ⊢
    tauto
  rcases hcases with rfl | hold
  · exact hnew
  · exact hledger.blocks g hold

theorem AllocStep.ledger (hstep : AllocStep p size addr mem ptr p') (hinv : PoolInv p)
    (hledger : PoolLedger p) (hpos : 0 < size) (hsize : size < p.blockSize) (haddr8 : addr % 8 = 0)
    (hexact : AllocTakesExactly p size addr mem) : PoolLedger p' := by
  cases hstep with
  | served hlist hfront hchosen hmalloc =>
      rename_i front back h h'
      have hh : h ∈ p.blockList := by simp [hlist]
      have hfind : p.blockList.find? (fun g ↦ chosen g.block size ≠ 0) = some h := by
        refine List.find?_eq_some_iff_append.mpr ⟨by simpa using hchosen, front, back, hlist, ?_⟩
        intro g hg
        simpa using hfront g hg
      have hnew := heapMalloc_ledger (hledger.blocks h hh) hpos (hinv.size_eq h hh ▸ hsize)
        (hexact.1 h hfind) hmalloc
      exact hledger.replace hlist hnew
  | refused => exact hledger
  | added hnone hne hinit hmalloc =>
      rename_i b h'
      have hfind : p.blockList.find? (fun g ↦ chosen g.block size ≠ 0) = none := by
        refine List.find?_eq_none.mpr fun g hg ↦ ?_
        simpa using hnone g hg
      obtain ⟨b', hinit', hlayout, hbsize, -, hbfree, hnext, -⟩ :=
        blockInit_unit mem hinv.unit_le hinv.size_le hinv.align hne haddr8
      rw [hinit] at hinit'
      cases hinit'
      have hgiven : b ∈ (blockInit p.blockSize addr mem).bind Prod.snd := by
        rw [hinit]
        rfl
      have hnew := heapMalloc_ledger (newBlock_ledger hlayout (hbfree.trans hbsize.symm) hnext) hpos
        (hsize.trans_eq hbsize.symm) (hexact.2 (by rw [hfind]; rfl) b hgiven) hmalloc
      refine ⟨?_, hledger.returned⟩
      rintro g (_ | ⟨_, hg⟩)
      · exact hnew
      · exact hledger.blocks g hg

theorem PoolStep.ledger {call : PoolCall} {r : Ret} (hstep : PoolStep p call r p') (hinv : PoolInv p)
    (hledger : PoolLedger p) (hexact : KeepsCount p call) : PoolLedger p' := by
  cases hstep with
  | nothing => exact hledger
  | direct => exact ⟨hledger.blocks, hledger.returned⟩
  | alloc hpos hsize hgrant hstep =>
      rename_i size addr mem ptr
      have haddr8 : addr % 8 = 0 := by
        rcases hgrant with hrefused | hgrant
        · omega
        · exact hgrant.1
      exact hstep.ledger hinv hledger hpos hsize haddr8 (hexact hpos hsize)
  | directFree => exact ⟨hledger.blocks, hledger.returned⟩
  | free hlist hlive hfree =>
      rename_i front back h h' ptr
      have hh : h ∈ p.blockList := by simp [hlist]
      exact hledger.replace hlist (heapFree_ledger (hledger.blocks h hh) hlive (hexact h hh hlive) hfree)
  | release hlist hlive hfree hgone hfront =>
      rename_i front back h h' ptr
      have hh : h ∈ p.blockList := by simp [hlist]
      obtain ⟨H, hl, hbal⟩ := heapFree_ledger (hledger.blocks h hh) hlive (hexact h hh hlive) hfree
      refine ⟨fun g hg ↦ hledger.blocks g ?_, ?_⟩
      · rw [hlist]
        simp only [unlink, List.mem_append, List.mem_cons] at hg ⊢
        tauto
      · rintro g (_ | ⟨_, hg⟩)
        · exact (hbal.free_eq_iff hl).mp hgone.symm
        · exact hledger.returned g hg
  | write hh hmay =>
      rename_i h addr word
      refine ⟨fun g hg ↦ ?_, hledger.returned⟩
      obtain ⟨g₀, hg₀, rfl⟩ := List.mem_map.mp hg
      by_cases heq : g₀ = h
      · rw [heq]
        exact userStore_ledger (hledger.blocks h hh) hmay
      · rw [hinv.userStore_eq hh hmay hg₀ heq]
        exact hledger.blocks g₀ hg₀

theorem poolInit_ledger (hinit : poolInit p) : PoolLedger p := by
  obtain ⟨b, hlist, -, -, hreturned, hunit, hle, halign, addr, mem, haddr, haddr8, hblock⟩ :=
    poolInit_spec hinit
  obtain ⟨b', hblock', hlayout, hsize, -, hfree, hnext, -⟩ :=
    blockInit_unit mem hunit hle halign haddr haddr8
  have heq := hblock.symm.trans hblock'
  cases heq
  refine ⟨?_, by simp [hreturned]⟩
  rw [hlist]
  simpa using newBlock_ledger hlayout (hfree.trans hsize.symm) hnext

theorem trace_ledger {log : List (PoolCall × Ret)} (htrace : countedMachine.Trace p log) :
    PoolInv p ∧ PoolLedger p := by
  refine htrace.invariant (fun p ↦ PoolInv p ∧ PoolLedger p)
    (fun _ hinit ↦ ⟨poolInit_inv hinit, poolInit_ledger hinit⟩) ?_
  intro p call r p' hinv hok hexec
  have hstep := poolExec_step hinv.1 hok.1 hexec
  exact ⟨hstep.inv hinv.1, hstep.ledger hinv.1 hinv.2 hok.2⟩

/-- What `free` is for: it is in range, it is the size exactly in an unused block, and only unused blocks
have gone back to the system. -/
structure Accounted (p : PoolT) : Prop where
  free_le : ∀ h ∈ p.blockList, h.block.free ≤ h.block.size
  unused_iff : ∀ h ∈ p.blockList, h.block.free = h.block.size ↔ ∀ ptr, h.live ptr = none
  released : ∀ h ∈ p.returned, ∀ ptr, h.live ptr = none

/-- In every run whose calls take and release exactly what they count, the pool is accounted for, and
`free` is the exact sum: with the charges of the chunks it makes up the block and one header. -/
theorem pool_count_exact {log : List (PoolCall × Ret)} (htrace : countedMachine.Trace p log) :
    Accounted p ∧ ∀ h ∈ p.blockList, ∃ chunks, blockChunks h.block = some chunks ∧
      h.block.free + (chunks.map (charge h.block)).sum = h.block.size + unitSize := by
  obtain ⟨-, hledger⟩ := trace_ledger htrace
  refine ⟨⟨fun h hh ↦ ?_, fun h hh ↦ ?_, hledger.returned⟩, fun h hh ↦ ?_⟩
  · obtain ⟨H, hl, hbal⟩ := hledger.blocks h hh
    exact hbal.free_le hl.toTiling
  · obtain ⟨H, hl, hbal⟩ := hledger.blocks h hh
    exact hbal.free_eq_iff hl
  · obtain ⟨H, hl, hbal⟩ := hledger.blocks h hh
    obtain ⟨cs, hcs, hnodup, rfl⟩ := blockChunks_toFinset hl.toTiling
    refine ⟨cs, hcs, ?_⟩
    rw [← List.sum_toFinset _ hnodup]
    exact hbal.sum

/-- Two requests and the release of the first, at the end of the block. -/
def exactCalls : List PoolCall := [.alloc 1 0 fun _ ↦ 0, .alloc 1 0 fun _ ↦ 0, .dealloc 3632]

theorem exactCalls_run : (countedMachine.execAll smallPool exactCalls).isSome := by decide +kernel

theorem pool_count_exact_small : ∃ p log, countedMachine.Trace p log ∧ livesIn p 3120 ∧ Accounted p := by
  have hok : countedMachine.AllOk smallPool exactCalls := by decide +kernel
  have htrace := Machine.trace_execAll (M := countedMachine) smallPool_init hok
    (Option.some_get exactCalls_run).symm
  exact ⟨_, _, htrace, by decide +kernel, (pool_count_exact htrace).1⟩

/-- A chunk of 256 headers handed out whole is counted 224 and given back 240, twice.  Of the two requests
that follow one is released, and the block goes back to the system while the other lives in it. -/
def driftCalls : List PoolCall :=
  [.alloc 208 0 fun _ ↦ 0, .dealloc 48, .alloc 208 0 fun _ ↦ 0, .dealloc 48, .alloc 1 0 fun _ ↦ 0,
    .alloc 1 0 fun _ ↦ 0, .alloc 200 8192 fun _ ↦ 0, .dealloc 3120]

theorem driftCalls_run : (poolMachine.execAll smallPool driftCalls).isSome := by decide +kernel

theorem used_block_released : ∃ p log, poolMachine.Trace p log ∧ ¬ Accounted p := by
  have hok : poolMachine.AllOk smallPool driftCalls := by decide +kernel
  have htrace := Machine.trace_execAll (M := poolMachine) smallPool_init hok
    (Option.some_get driftCalls_run).symm
  refine ⟨_, _, htrace, fun haccounted ↦ ?_⟩
  have hlost : ∃ h ∈ ((poolMachine.execAll smallPool driftCalls).get driftCalls_run).2.returned,
      (h.live 3632).isSome := by decide +kernel
  obtain ⟨h, hmem, hlive⟩ := hlost
  rw [haccounted.released h hmem] at hlive
  cases hlive

end CPractice.MemPool
