import CPractice.Ring.Consumers

/-!
# Rings with one producer

On `RING_SP_SC` and `RING_SP_MC` only the producer moves `write_pos`, so the `read_pos` it loaded may
be old but is never more than a lap behind `write_pos`, and a push that does not see the ring full
has a free slot.  In every interleaving the pops return the pushed elements in order.

This needs the offsets of the slots not to wrap: `ring_init` allocates `unit_num * unit_size` bytes
computed on `u8`, while the pushes and pops multiply on `u4`, so on a ring of 4 GiB or more two slots
can share bytes.
-/

namespace CPractice.Ring

open Lib

variable {α : Type} {ty : RingType} {s s' : State α}

/-- The ring types with one producer. -/
def singleProducer (ty : RingType) : Prop := ty = .spSc ∨ ty = .spMc

/-- What the locals of the producer say about the ring. -/
def SpProducerOk (s : State α) : PushPc α → Prop
  | .idle | .start _ => True
  | .gotRidx _ ridx =>
      ∃ r, ridx = u4 r ∧ r ≤ s.popped.length ∧ s.pushed.length + 1 ≤ r + s.ring.unitNum
  | .gotWidx _ widx =>
      widx = u4 s.pushed.length ∧ s.pushed.length + 2 ≤ s.popped.length + s.ring.unitNum
  | .reserved _ _ _ => False
  | .copied elem _ _ =>
      s.pushed.length + 2 ≤ s.popped.length + s.ring.unitNum ∧
        s.ring.cells (slotOf s.ring s.pushed.length) = some elem
  | .bumping elem value =>
      value = u4 s.pushed.length ∧ s.pushed.length + 2 ≤ s.popped.length + s.ring.unitNum ∧
        s.ring.cells (slotOf s.ring s.pushed.length) = some elem

/-- The invariant of the rings with one producer. -/
structure SpInv (ty : RingType) (s : State α) : Prop where
  core : Core s s.pushed.length
  consumers : Consumers ty s s.pushed.length
  producer : SpProducerOk s (s.producers 0)
  others : ∀ p, p ≠ 0 → s.producers p = .idle

/-- The producer's locals stay right while elements are popped. -/
theorem SpProducerOk.mono {pc : PushPc α} (h : SpProducerOk s pc) (hframe : ConsumerFrame s s') :
    SpProducerOk s' pc := by
  have hpopped := hframe.popped
  have hslot : ∀ pos, slotOf s'.ring pos = slotOf s.ring pos := by
    intro pos
    rw [slotOf, hframe.unitNum, hframe.unitSize, slotOf]
  cases pc with
  | idle => trivial
  | start elem => trivial
  | gotRidx elem ridx =>
      rcases h with ⟨r, hridx, hle, hcap⟩
      exact ⟨r, hridx, by omega, by rw [hframe.pushed, hframe.unitNum]; exact hcap⟩
  | gotWidx elem widx =>
      refine ⟨by rw [hframe.pushed, h.1], ?_⟩
      have hroom := h.2
      rw [hframe.pushed, hframe.unitNum]
      omega
  | reserved elem widx place => exact h
  | copied elem widx place =>
      refine ⟨?_, by rw [hslot, hframe.cells, hframe.pushed]; exact h.2⟩
      have hroom := h.1
      rw [hframe.pushed, hframe.unitNum]
      omega
  | bumping elem value =>
      refine ⟨by rw [hframe.pushed, h.1], ?_, by rw [hslot, hframe.cells, hframe.pushed]; exact h.2.2⟩
      have hroom := h.2.1
      rw [hframe.pushed, hframe.unitNum]
      omega

/-! ## Steps of the producer -/

/-- The producer changes its locals only. -/
theorem SpInv.set (h : SpInv ty s) (pc : PushPc α) (hpc : SpProducerOk s pc) :
    SpInv ty (setProducer s 0 pc) := by
  refine ⟨h.core.setProducer 0 pc, ?_, ?_, ?_⟩
  · exact h.consumers.frame le_rfl _ rfl rfl (List.prefix_refl _) le_rfl h.consumers.limit
  · have hself : (setProducer s 0 pc).producers 0 = pc := by simp [setProducer]
    rw [hself]
    cases pc <;> exact hpc
  · intro p hp
    simpa [setProducer, hp] using h.others p hp

/-- The producer makes its element visible. -/
theorem SpInv.push (hty : singleProducer ty) (h : SpInv ty s) {elem : α}
    (hroom : s.pushed.length + 2 ≤ s.popped.length + s.ring.unitNum)
    (hcell : s.ring.cells (slotOf s.ring s.pushed.length) = some elem) :
    SpInv ty (setProducer (storeWrite s (u4 (s.pushed.length + 1)) elem) 0 .idle) := by
  have hcore := h.core.push hroom elem (Nat.le_succ _) le_rfl (by
    intro pos hlo hhi
    obtain rfl : pos = s.pushed.length := by omega
    rw [hcell, List.getElem?_concat_length])
  have hlength : (storeWrite s (u4 (s.pushed.length + 1)) elem).pushed.length =
      s.pushed.length + 1 := by simp [storeWrite]
  refine ⟨?_, ?_, trivial, ?_⟩
  · have hcore' : Core (storeWrite s (u4 (s.pushed.length + 1)) elem)
        (storeWrite s (u4 (s.pushed.length + 1)) elem).pushed.length := hlength.symm ▸ hcore
    exact hcore'.setProducer 0 .idle
  · refine h.consumers.frame le_rfl _ rfl rfl (List.prefix_append _ _) ?_ ?_
    · simp [setProducer, storeWrite]
    · rcases hty with rfl | rfl
      · simp [popLimit, setProducer, storeWrite]
      · simp [popLimit, setProducer, storeWrite]
  · intro p hp
    simpa [setProducer, storeWrite, hp] using h.others p hp

/-- A push that does not see the ring full has a free slot, however old the `read_pos` it loaded. -/
theorem SpInv.room (h : SpInv ty s) {r : ℕ} (hle : r ≤ s.popped.length)
    (hcap : s.pushed.length + 1 ≤ r + s.ring.unitNum)
    (hnotFull : ¬ isFull s.ring s.ring.writePos (u4 r)) :
    s.pushed.length + 2 ≤ s.popped.length + s.ring.unitNum := by
  have hread := h.core.read_le
  rw [h.core.write, isFull_iff h.core.fits.pow (hle.trans hread) hcap] at hnotFull
  omega

/-- The copy of the producer. -/
theorem SpInv.copy (h : SpInv ty s) (elem : α) (widx place : ℕ)
    (hwidx : widx = u4 s.pushed.length)
    (hroom : s.pushed.length + 2 ≤ s.popped.length + s.ring.unitNum) :
    SpInv ty (setProducer (copyElem s widx elem) 0 (.copied elem widx place)) := by
  have hcopy := h.core.copy (w := s.pushed.length) le_rfl (by omega) elem
  rw [← hwidx] at hcopy
  refine ⟨hcopy.1.setProducer 0 _, ?_, ?_, ?_⟩
  · exact h.consumers.frame le_rfl _ rfl rfl (List.prefix_refl _) le_rfl h.consumers.limit
  · have hself : (setProducer (copyElem s widx elem) 0 (.copied elem widx place)).producers 0 =
        .copied elem widx place := by simp [setProducer]
    rw [hself]
    exact ⟨hroom, hcopy.2⟩
  · intro p hp
    simpa [setProducer, copyElem, hp] using h.others p hp

/-- Every step of the producer keeps the invariant. -/
theorem producerStep_spInv (hty : singleProducer ty) (h : SpInv ty s)
    (hstep : producerStep ty s 0 = some s') : SpInv ty s' := by
  have hok := h.producer
  unfold producerStep at hstep
  cases hpc : s.producers 0 with
  | idle => simp [hpc] at hstep
  | start elem =>
      simp only [hpc, Option.some_inj] at hstep
      subst hstep
      exact h.set _ ⟨_, h.core.read, le_rfl, h.core.capacity⟩
  | gotRidx elem ridx =>
      rw [hpc] at hok
      rcases hok with ⟨r, hridx, hle, hcap⟩
      simp only [hpc] at hstep
      split at hstep
      · obtain rfl := Option.some.inj hstep
        exact h.set _ trivial
      · rename_i hnotFull
        obtain rfl := Option.some.inj hstep
        exact h.set _ ⟨h.core.write, h.room hle hcap (hridx ▸ hnotFull)⟩
  | gotWidx elem widx =>
      rw [hpc] at hok
      simp only [hpc, Option.some_inj] at hstep
      subst hstep
      rcases hty with rfl | rfl
      · exact h.copy elem widx _ hok.1 hok.2
      · exact h.copy elem widx _ hok.1 hok.2
  | reserved elem widx place =>
      rw [hpc] at hok
      exact hok.elim
  | copied elem widx place =>
      rw [hpc] at hok
      simp only [hpc, Option.some_inj] at hstep
      subst hstep
      rcases hty with rfl | rfl
      · exact h.set _ ⟨h.core.write, hok.1, hok.2⟩
      · have hpush := h.push (.inr rfl) hok.1 hok.2
        simpa only [afterCopy, h.core.write, u4_add] using hpush
  | bumping elem value =>
      rw [hpc] at hok
      simp only [hpc, Option.some_inj] at hstep
      subst hstep
      rw [hok.1, u4_add]
      exact h.push hty hok.2.1 hok.2.2

/-! ## Runs -/

/-- The offsets of the ring's elements do not wrap. -/
def offsetsFit (s : State α) : Prop := (s.ring.unitNum - 1) * s.ring.unitSize < 4294967296

instance (s : State α) : Decidable (offsetsFit s) := inferInstanceAs (Decidable (_ < _))

/-- The runs on a ring whose element offsets do not wrap. -/
def fittingMachine (ty : RingType) : Machine (State α) (Action α) Unit where
  init s := fromInit s ∧ offsetsFit s
  ok s action := allowed ty action ∧ spans s action
  exec := step ty

instance (ty : RingType) (s : State α) (action : Action α) :
    Decidable ((fittingMachine ty).ok s action) :=
  inferInstanceAs (Decidable (_ ∧ _))

theorem fits_of_init (hinit : fromInit s) (hoffsets : offsetsFit s) : Fits s.ring := by
  rcases hinit with ⟨unitNum, unitSize, ring, hnum, -, hring, rfl⟩
  rcases ringInit_cases hnum hring with ⟨⟨k, hk, hpow⟩, hsize, rfl⟩
  exact ⟨⟨k, hk, hpow⟩, hsize, hoffsets⟩

theorem core_init (hinit : fromInit s) (hoffsets : offsetsFit s) : Core s 0 ∧ s.pushed = [] ∧
    s.published = 0 ∧ (∀ ty, popLimit ty s.ring = u4 0) ∧ (∀ p, s.producers p = .idle) ∧
      ∀ c, s.consumers c = .idle := by
  have hfits := fits_of_init hinit hoffsets
  have hnum := hfits.num_pos
  have hzero : u4 0 = 0 := u4_of_lt (by decide)
  rcases hinit with ⟨unitNum, unitSize, ring, hlt, -, hring, rfl⟩
  rcases ringInit_cases hlt hring with ⟨-, -, rfl⟩
  refine ⟨⟨hfits, hzero.symm, hzero.symm, rfl, le_rfl, le_rfl, ?_, ?_⟩, rfl, rfl, ?_, fun _ ↦ rfl,
    fun _ ↦ rfl⟩
  · simpa using Nat.succ_le_of_lt hnum
  · intro pos _ hlt
    exact absurd hlt (Nat.not_lt_zero _)
  · intro ty
    rw [hzero]
    cases ty <;> rfl

theorem spInv_init (hinit : fromInit s) (hoffsets : offsetsFit s) : SpInv ty s := by
  rcases core_init hinit hoffsets with ⟨hcore, hpushed, -, hlimit, hproducers, hconsumers⟩
  refine ⟨by rw [hpushed]; exact hcore, ⟨?_, ?_, ?_⟩, ?_, ?_⟩
  · rw [hpushed]
    exact hlimit ty
  · intro c
    rw [hconsumers]
    trivial
  · intro _ c _
    exact hconsumers c
  · rw [hproducers]
    trivial
  · intro p _
    exact hproducers p

theorem spInv_step (hty : singleProducer ty) (h : SpInv ty s) {action : Action α}
    (hallowed : allowed ty action) (hspans : spans s action) {r : Unit}
    (hstep : step ty s action = some (r, s')) : SpInv ty s' := by
  rcases step_cases hstep with ⟨p, elem, rfl, rfl⟩ | ⟨p, rfl, hs'⟩ | ⟨c, rfl, rfl⟩ | ⟨c, rfl, hs'⟩
  · obtain rfl : p = 0 := hallowed hty
    exact h.set _ trivial
  · obtain rfl : p = 0 := hallowed hty
    exact producerStep_spInv hty h hs'
  · have hset := h.consumers.set h.core hallowed .start trivial
    exact ⟨hset.1, hset.2, h.producer.mono (setConsumer_frame _ _ _), h.others⟩
  · rcases consumerStep_spec h.core h.consumers hallowed hspans hs' with
      ⟨hcore, hconsumers, hframe⟩
    refine ⟨by rw [hframe.pushed]; exact hcore, by rw [hframe.pushed]; exact hconsumers, ?_, ?_⟩
    · rw [hframe.producers]
      exact h.producer.mono hframe
    · rw [hframe.producers]
      exact h.others

theorem spInv_trace (hty : singleProducer ty) {log : List (Action α × Unit)}
    (htrace : (fittingMachine ty).Trace s log) : SpInv ty s := by
  apply htrace.invariant (SpInv ty)
  · intro s hinit
    exact spInv_init hinit.1 hinit.2
  · intro s action r s' hinv hok hstep
    exact spInv_step hty hinv hok.1 hok.2 hstep

/-- A copy of `elem` to the position `widx` touches no byte of an element that is pushed and not
yet popped. -/
def copySafe (s : State α) (widx : ℕ) : Prop :=
  ∀ pos, s.popped.length ≤ pos → pos < s.pushed.length →
    ¬ overlaps s.ring.unitSize (elemOffset s.ring widx) (elemOffset s.ring (u4 pos))

/-- A ring from `ring_init` with idle threads. -/
def idleState (unitNum unitSize : ℕ) (h : (ringInit (α := ℕ) unitNum unitSize).isSome) : State ℕ :=
  ⟨(ringInit unitNum unitSize).get h, fun _ ↦ .idle, fun _ ↦ .idle, [], [], 0⟩

theorem idleState_init {unitNum unitSize : ℕ} (h : (ringInit (α := ℕ) unitNum unitSize).isSome)
    (hnum : unitNum < 4294967296) (hsize : unitSize < 4294967296) :
    fromInit (idleState unitNum unitSize h) :=
  ⟨unitNum, unitSize, _, hnum, hsize, (Option.some_get h).symm, rfl⟩

/-- All steps of one push on `RING_SP_SC`. -/
def pushSpSc (elem : ℕ) : List (Action ℕ) :=
  [.push 0 elem, .producer 0, .producer 0, .producer 0, .producer 0, .producer 0]

/-- All steps of one pop on `RING_SP_SC`. -/
def popSpSc : List (Action ℕ) :=
  [.pop 0, .consumer 0, .consumer 0, .consumer 0, .consumer 0, .consumer 0]

/-- Three pushes and a pop. -/
def threePushes : List (Action ℕ) := pushSpSc 10 ++ pushSpSc 20 ++ pushSpSc 30 ++ popSpSc

theorem threePushes_fitting :
    ((fittingMachine .spSc).execAll (idleState 4 8 (by decide)) threePushes).isSome := by
  with_unfolding_all decide

theorem threePushes_wide :
    ((machine .spSc).execAll (idleState 4 2147483648 (by decide)) threePushes).isSome := by
  with_unfolding_all decide

end CPractice.Ring
