import CPractice.Ring.SingleProducer

/-!
# Rings with several producers

A push on `RING_MP_SC` and `RING_MP_MC` loads `read_pos`, then `write_pos`, and reserves its place by
a compare-and-swap on `write_pos` alone.  The full test it made compares with the `read_pos` it
loaded, which may be any number of pops old by then, and only by slot: after whole laps in between it
no longer says whether the ring is full now.  So the safety of the ring needs, of every reservation
that succeeds, that the same test on the current `read_pos` would not report a full ring.  With that
the positions keep their order, no copy hits an element still to be popped, and the pops return each
pushed element once, in order.
-/

namespace CPractice.Ring

open Lib

variable {α : Type} {ty : RingType} {s s' : State α} {p q : ℕ}

/-- The ring types with several producers. -/
def multiProducer (ty : RingType) : Prop := ty = .mpSc ∨ ty = .mpMc

/-- The place a producer has reserved and not yet published. -/
def placeOf : PushPc α → Option ℕ
  | .reserved _ _ place => some place
  | .copied _ _ place => some place
  | _ => none

/-- A reserved place lies between `max_read_idx` and `write_pos` and belongs to the element. -/
def Holds (s : State α) (elem : α) (widx place : ℕ) : Prop :=
  widx = u4 place ∧ s.published ≤ place ∧ place < s.pushed.length ∧ s.pushed[place]? = some elem

/-- What the locals of a producer say about the ring. -/
def MpProducerOk (s : State α) : PushPc α → Prop
  | .idle | .start _ | .gotRidx _ _ | .gotWidx _ _ => True
  | .reserved elem widx place => Holds s elem widx place
  | .copied elem widx place =>
      Holds s elem widx place ∧ s.ring.cells (slotOf s.ring place) = some elem
  | .bumping _ _ => False

/-- The invariant of the rings with several producers. -/
structure MpInv (ty : RingType) (s : State α) : Prop where
  core : Core s s.published
  maxRead : s.ring.maxReadIdx = u4 s.published
  consumers : Consumers ty s s.published
  producers : ∀ p, MpProducerOk s (s.producers p)
  places : ∀ p q place, placeOf (s.producers p) = some place →
    placeOf (s.producers q) = some place → p = q

/-- The locals of a producer stay right while other threads run, as long as its own copy is not
touched and its place not published. -/
theorem MpProducerOk.mono {pc : PushPc α} (h : MpProducerOk s pc)
    (hpushed : s.pushed <+: s'.pushed)
    (hpublished : ∀ place, placeOf pc = some place → s.published ≤ place → s'.published ≤ place)
    (hcell : ∀ elem widx place, pc = .copied elem widx place →
      s.ring.cells (slotOf s.ring place) = some elem →
      s'.ring.cells (slotOf s'.ring place) = some elem) : MpProducerOk s' pc := by
  have hlen : s.pushed.length ≤ s'.pushed.length := hpushed.length_le
  have hholds : ∀ elem widx place, placeOf pc = some place → Holds s elem widx place →
      Holds s' elem widx place := by
    rintro elem widx place hplace ⟨hwidx, hge, hlt, helem⟩
    refine ⟨hwidx, hpublished place hplace hge, by omega, ?_⟩
    rcases hpushed with ⟨rest, hrest⟩
    rw [← hrest, List.getElem?_append_left hlt, helem]
  cases pc with
  | idle => trivial
  | start elem => trivial
  | gotRidx elem ridx => trivial
  | gotWidx elem widx => trivial
  | reserved elem widx place => exact hholds elem widx place rfl h
  | copied elem widx place =>
      exact ⟨hholds elem widx place rfl h.1, hcell elem widx place rfl h.2⟩
  | bumping elem value => exact h

/-- Reserved places lie between `max_read_idx` and `write_pos`. -/
theorem MpInv.place_bounds (h : MpInv ty s) {place : ℕ}
    (hplace : placeOf (s.producers p) = some place) :
    s.published ≤ place ∧ place < s.pushed.length := by
  have hok := h.producers p
  cases hpc : s.producers p with
  | reserved elem widx place' =>
      rw [hpc] at hok hplace
      obtain rfl : place' = place := by simpa [placeOf] using hplace
      exact ⟨hok.2.1, hok.2.2.1⟩
  | copied elem widx place' =>
      rw [hpc] at hok hplace
      obtain rfl : place' = place := by simpa [placeOf] using hplace
      exact ⟨hok.1.2.1, hok.1.2.2.1⟩
  | _ => simp [hpc, placeOf] at hplace

theorem popLimit_of_multi (hty : multiProducer ty) (ring : RingT α) :
    popLimit ty ring = ring.maxReadIdx := by
  rcases hty with rfl | rfl
  · rfl
  · rfl

/-! ## Steps of a producer -/

/-- A producer changes its locals only, and reserves nothing. -/
theorem MpInv.set (h : MpInv ty s) (p : ℕ) (pc : PushPc α) (hpc : MpProducerOk s pc)
    (hplace : placeOf pc = none ∨ placeOf pc = placeOf (s.producers p)) :
    MpInv ty (setProducer s p pc) := by
  have hself : (setProducer s p pc).producers p = pc := by simp [setProducer]
  have hother : ∀ q, q ≠ p → (setProducer s p pc).producers q = s.producers q := by
    intro q hq
    simp [setProducer, hq]
  have hmono : ∀ pc', MpProducerOk s pc' → MpProducerOk (setProducer s p pc) pc' := by
    intro pc' hok
    exact hok.mono (List.prefix_refl _) (fun _ _ hle ↦ hle) fun _ _ _ _ hcell ↦ hcell
  refine ⟨h.core.setProducer p pc, h.maxRead, ?_, ?_, ?_⟩
  · exact h.consumers.frame h.core.top_le _ rfl rfl (List.prefix_refl _) le_rfl h.consumers.limit
  · intro q
    by_cases hq : q = p
    · subst hq
      rw [hself]
      exact hmono pc hpc
    · rw [hother q hq]
      exact hmono _ (h.producers q)
  · -- The places held after the step were held by the same producers before.
    have hback : ∀ q place, placeOf ((setProducer s p pc).producers q) = some place →
        placeOf (s.producers q) = some place := by
      intro q place hq
      by_cases hqp : q = p
      · subst hqp
        rw [hself] at hq
        rcases hplace with hnone | hsame
        · rw [hnone] at hq
          cases hq
        · rw [← hsame, hq]
      · rwa [hother q hqp] at hq
    intro q r place hq hr
    exact h.places q r place (hback q place hq) (hback r place hr)

/-- A reservation that finds room. -/
theorem MpInv.reserve (hty : multiProducer ty) (h : MpInv ty s) (p : ℕ) (elem : α)
    (hroom : s.pushed.length + 2 ≤ s.popped.length + s.ring.unitNum) :
    MpInv ty (setProducer (storeWrite s (u4 (s.pushed.length + 1)) elem) p
      (.reserved elem (u4 s.pushed.length) s.pushed.length)) := by
  set s' : State α := setProducer (storeWrite s (u4 (s.pushed.length + 1)) elem) p
    (.reserved elem (u4 s.pushed.length) s.pushed.length) with hs'
  have hself : s'.producers p = .reserved elem (u4 s.pushed.length) s.pushed.length := by
    simp [hs', setProducer]
  have hother : ∀ q, q ≠ p → s'.producers q = s.producers q := by
    intro q hq
    simp [hs', setProducer, storeWrite, hq]
  have hpushed : s'.pushed = s.pushed ++ [elem] := rfl
  have hcore := h.core.push hroom elem le_rfl (h.core.top_le.trans (Nat.le_succ _))
    fun pos hlo hhi ↦ absurd hhi (Nat.not_lt.mpr hlo)
  have hheld : ∀ q place, placeOf (s.producers q) = some place → place < s.pushed.length :=
    fun q place hq ↦ (h.place_bounds hq).2
  refine ⟨hcore.setProducer p _, h.maxRead, ?_, ?_, ?_⟩
  · refine h.consumers.frame h.core.top_le _ rfl rfl (List.prefix_append _ _) le_rfl ?_
    rw [popLimit_of_multi hty]
    exact h.maxRead
  · intro q
    by_cases hq : q = p
    · subst hq
      rw [hself]
      refine ⟨rfl, h.core.top_le, by simp [hpushed], ?_⟩
      rw [hpushed, List.getElem?_concat_length]
    · rw [hother q hq]
      exact (h.producers q).mono (List.prefix_append _ _) (fun _ _ hle ↦ hle)
        fun _ _ _ _ hcell ↦ hcell
  · intro q r place hq hr
    by_cases hqp : q = p
    · by_cases hrp : r = p
      · rw [hqp, hrp]
      · subst hqp
        rw [hself] at hq
        rw [hother r hrp] at hr
        have hlt := hheld r place hr
        obtain rfl : s.pushed.length = place := by simpa [placeOf] using hq
        exact absurd hlt (lt_irrefl _)
    · by_cases hrp : r = p
      · subst hrp
        rw [hself] at hr
        rw [hother q hqp] at hq
        have hlt := hheld q place hq
        obtain rfl : s.pushed.length = place := by simpa [placeOf] using hr
        exact absurd hlt (lt_irrefl _)
      · rw [hother q hqp] at hq
        rw [hother r hrp] at hr
        exact h.places q r place hq hr

/-- The copy into a reserved place touches no other element of the lap. -/
theorem MpInv.copy (h : MpInv ty s) {elem : α} {widx place : ℕ}
    (hpc : s.producers p = .reserved elem widx place) :
    MpInv ty (setProducer (copyElem s widx elem) p (.copied elem widx place)) := by
  have hok := h.producers p
  rw [hpc] at hok
  rcases hok with ⟨hwidx, hge, hlt, helem⟩
  have hread := h.core.read_le
  have hcap := h.core.capacity
  have hcopy := h.core.copy (w := place) hge (by omega) elem
  rw [← hwidx] at hcopy
  have hplaceP : placeOf (s.producers p) = some place := by rw [hpc, placeOf]
  set s' : State α := setProducer (copyElem s widx elem) p (.copied elem widx place) with hs'
  have hself : s'.producers p = .copied elem widx place := by simp [hs', setProducer]
  have hother : ∀ q, q ≠ p → s'.producers q = s.producers q := by
    intro q hq
    simp [hs', setProducer, copyElem, hq]
  have hplaces : ∀ q, placeOf (s'.producers q) = placeOf (s.producers q) := by
    intro q
    by_cases hq : q = p
    · rw [hq, hself, hplaceP, placeOf]
    · rw [hother q hq]
  refine ⟨hcopy.1.setProducer p _, h.maxRead, ?_, ?_, ?_⟩
  · exact h.consumers.frame h.core.top_le _ rfl rfl (List.prefix_refl _) le_rfl h.consumers.limit
  · intro q
    by_cases hq : q = p
    · rw [hq, hself]
      exact ⟨⟨hwidx, hge, hlt, helem⟩, hcopy.2⟩
    · rw [hother q hq]
      refine (h.producers q).mono (List.prefix_refl _) (fun _ _ hle ↦ hle) ?_
      intro elem' widx' place' hpc' hcell
      have hplaceQ : placeOf (s.producers q) = some place' := by rw [hpc', placeOf]
      have hbounds := h.place_bounds hplaceQ
      have hne : place' ≠ place := fun heq ↦ hq (h.places q p place (heq ▸ hplaceQ) hplaceP)
      have hkeep := copyIn_slot h.core.fits hne (by omega) (by omega) elem
      calc
        s'.ring.cells (slotOf s.ring place') =
            (copyIn s.ring (slotOf s.ring place) elem).cells (slotOf s.ring place') := by
          rw [hs', ← h.core.fits.elemOffset_u4 place, ← hwidx]
          rfl
        _ = s.ring.cells (slotOf s.ring place') := hkeep
        _ = some elem' := hcell
  · intro q r place' hq hr
    rw [hplaces] at hq hr
    exact h.places q r place' hq hr

/-- A producer publishes its place once all places before it are published. -/
theorem MpInv.publish (hty : multiProducer ty) (h : MpInv ty s) {elem : α} {widx place : ℕ}
    (hpc : s.producers p = .copied elem widx place) (hturn : s.ring.maxReadIdx = widx) :
    MpInv ty (setProducer (storeMaxRead s (u4 (widx + 1))) p .idle) := by
  have hok := h.producers p
  rw [hpc] at hok
  rcases hok with ⟨⟨hwidx, hge, hlt, helem⟩, hcell⟩
  have hread := h.core.read_le
  have hcap := h.core.capacity
  have hnum := h.core.fits.num_lt
  have hplaceP : placeOf (s.producers p) = some place := by rw [hpc, placeOf]
  have hplace : s.published = place := by
    apply u4_inj _ (by omega) (by omega)
    rw [← h.maxRead, hturn, hwidx]
  subst hplace
  rw [hwidx, u4_add]
  set s' : State α := setProducer (storeMaxRead s (u4 (s.published + 1))) p .idle with hs'
  have hself : s'.producers p = .idle := by simp [hs', setProducer]
  have hother : ∀ q, q ≠ p → s'.producers q = s.producers q := by
    intro q hq
    simp [hs', setProducer, storeMaxRead, hq]
  have hpublished : s'.published = s.published + 1 := rfl
  refine ⟨?_, ?_, ?_, ?_, ?_⟩
  · refine ⟨⟨h.core.fits.pow, h.core.fits.size_pos, h.core.fits.room⟩, h.core.write, h.core.read,
      h.core.taken, ?_, ?_, h.core.capacity, ?_⟩
    · exact hread.trans (Nat.le_succ _)
    · exact hlt
    · intro pos hlo hhi
      rw [hpublished] at hhi
      by_cases hlast : pos = s.published
      · rw [hlast]
        exact hcell.trans helem.symm
      · exact h.core.cells pos hlo (by omega)
  · rfl
  · refine h.consumers.frame h.core.top_le _ rfl rfl (List.prefix_refl _) (Nat.le_succ _) ?_
    rw [popLimit_of_multi hty]
    rfl
  · intro q
    by_cases hq : q = p
    · rw [hq, hself]
      trivial
    · rw [hother q hq]
      refine (h.producers q).mono (List.prefix_refl _) ?_ fun _ _ _ _ hcell' ↦ hcell'
      intro place' hplaceQ hle
      have hne : place' ≠ s.published :=
        fun heq ↦ hq (h.places q p _ (heq ▸ hplaceQ) hplaceP)
      rw [hpublished]
      omega
  · intro q r place' hq hr
    have hback : ∀ q, placeOf (s'.producers q) = some place' →
        placeOf (s.producers q) = some place' := by
      intro q hq
      by_cases hqp : q = p
      · rw [hqp, hself] at hq
        cases hq
      · rwa [hother q hqp] at hq
    exact h.places q r place' (hback q hq) (hback r hr)

/-! ## The condition on reservations -/

/-- The reservation about to succeed finds room: the full test on the current `read_pos` does not
report a full ring. -/
def reserveOk (s : State α) : PushPc α → Prop
  | .gotWidx _ widx => s.ring.writePos = widx → ¬ isFull s.ring widx s.ring.readPos
  | _ => True

instance (s : State α) : (pc : PushPc α) → Decidable (reserveOk s pc)
  | .gotWidx _ widx =>
      inferInstanceAs (Decidable (s.ring.writePos = widx → ¬ isFull s.ring widx s.ring.readPos))
  | .idle | .start _ | .gotRidx _ _ | .reserved _ _ _ | .copied _ _ _ | .bumping _ _ =>
      isTrue trivial

/-- On a ring within its capacity the condition says that there is room. -/
theorem MpInv.room_iff (h : MpInv ty s) :
    ¬ isFull s.ring s.ring.writePos s.ring.readPos ↔
      s.pushed.length + 2 ≤ s.popped.length + s.ring.unitNum := by
  have hcap := h.core.capacity
  have hle := h.core.read_le.trans h.core.top_le
  rw [h.core.write, h.core.read, isFull_iff h.core.fits.pow hle hcap]
  omega

/-- Every step of a producer whose reservation finds room keeps the invariant. -/
theorem producerStep_mpInv (hty : multiProducer ty) (h : MpInv ty s)
    (hreserve : reserveOk s (s.producers p)) (hstep : producerStep ty s p = some s') : MpInv ty s' := by
  have hok := h.producers p
  unfold producerStep at hstep
  cases hpc : s.producers p with
  | idle => simp [hpc] at hstep
  | start elem =>
      simp only [hpc, Option.some_inj] at hstep
      subst hstep
      exact h.set p _ trivial (.inl rfl)
  | gotRidx elem ridx =>
      simp only [hpc] at hstep
      split at hstep
      · obtain rfl := Option.some.inj hstep
        exact h.set p _ trivial (.inl rfl)
      · obtain rfl := Option.some.inj hstep
        exact h.set p _ trivial (.inl rfl)
  | gotWidx elem widx =>
      rw [hpc] at hreserve
      simp only [hpc, Option.some_inj] at hstep
      subst hstep
      have hcas : MpInv ty (if s.ring.writePos = widx then
          setProducer (storeWrite s (u4 (widx + 1)) elem) p (.reserved elem widx s.pushed.length)
          else setProducer s p (.start elem)) := by
        split
        · rename_i heq
          have hroom := h.room_iff.mp (heq ▸ hreserve heq)
          have hres := h.reserve hty p elem hroom
          rw [← heq, h.core.write, u4_add]
          exact hres
        · exact h.set p _ trivial (.inl rfl)
      rcases hty with rfl | rfl
      · exact hcas
      · exact hcas
  | reserved elem widx place =>
      simp only [hpc, Option.some_inj] at hstep
      subst hstep
      exact h.copy hpc
  | copied elem widx place =>
      rw [hpc] at hok
      simp only [hpc, Option.some_inj] at hstep
      subst hstep
      have hcas : MpInv ty (if s.ring.maxReadIdx = widx then
          setProducer (storeMaxRead s (u4 (widx + 1))) p .idle
          else setProducer s p (.copied elem widx place)) := by
        split
        · rename_i heq
          exact h.publish hty hpc heq
        · exact h.set p _ hok (.inr (by rw [hpc]))
      rcases hty with rfl | rfl
      · exact hcas
      · exact hcas
  | bumping elem value =>
      rw [hpc] at hok
      exact hok.elim

/-! ## Runs -/

/-- The condition on an action: a reservation that succeeds finds room. -/
def actionReserves (s : State α) : Action α → Prop
  | .producer p => reserveOk s (s.producers p)
  | _ => True

instance (s : State α) : (action : Action α) → Decidable (actionReserves s action)
  | .producer p => inferInstanceAs (Decidable (reserveOk s (s.producers p)))
  | .push _ _ | .pop _ | .consumer _ => isTrue trivial

/-- The runs on a ring whose offsets do not wrap, in which every reservation finds room. -/
def reservingMachine (ty : RingType) : Machine (State α) (Action α) Unit where
  init s := fromInit s ∧ offsetsFit s
  ok s action := (allowed ty action ∧ spans s action) ∧ actionReserves s action
  exec := step ty

instance (ty : RingType) (s : State α) (action : Action α) :
    Decidable ((reservingMachine ty).ok s action) :=
  inferInstanceAs (Decidable (_ ∧ _))

theorem mpInv_init (hty : multiProducer ty) (hinit : fromInit s) (hoffsets : offsetsFit s) :
    MpInv ty s := by
  rcases core_init hinit hoffsets with ⟨hcore, -, hpublished, hlimit, hproducers, hconsumers⟩
  refine ⟨by rw [hpublished]; exact hcore, ?_, ⟨?_, ?_, ?_⟩, ?_, ?_⟩
  · rw [hpublished, ← popLimit_of_multi hty]
    exact hlimit ty
  · rw [hpublished]
    exact hlimit ty
  · intro c
    rw [hconsumers]
    trivial
  · intro _ c _
    exact hconsumers c
  · intro p
    rw [hproducers]
    trivial
  · intro p q place hp _
    rw [hproducers] at hp
    cases hp

theorem mpInv_step (hty : multiProducer ty) (h : MpInv ty s) {action : Action α}
    (hallowed : allowed ty action) (hspans : spans s action)
    (hreserves : actionReserves s action) {r : Unit}
    (hstep : step ty s action = some (r, s')) : MpInv ty s' := by
  rcases step_cases hstep with ⟨p, elem, rfl, rfl⟩ | ⟨p, rfl, hs'⟩ | ⟨c, rfl, rfl⟩ | ⟨c, rfl, hs'⟩
  · exact h.set p _ trivial (.inl rfl)
  · exact producerStep_mpInv hty h hreserves hs'
  · have hset := h.consumers.set h.core hallowed .start trivial
    refine ⟨hset.1, h.maxRead, hset.2, ?_, h.places⟩
    intro p
    exact (h.producers p).mono (List.prefix_refl _) (fun _ _ hle ↦ hle) fun _ _ _ _ hcell ↦ hcell
  · rcases consumerStep_spec h.core h.consumers hallowed hspans hs' with
      ⟨hcore, hconsumers, hframe⟩
    refine ⟨?_, ?_, ?_, ?_, ?_⟩
    · rw [hframe.published]
      exact hcore
    · rw [hframe.maxReadIdx, hframe.published]
      exact h.maxRead
    · rw [hframe.published]
      exact hconsumers
    · intro p
      rw [hframe.producers]
      refine (h.producers p).mono (hframe.pushed ▸ List.prefix_refl _) ?_ ?_
      · intro place _ hle
        rw [hframe.published]
        exact hle
      · intro elem widx place _ hcell
        rw [hframe.cells, slotOf, hframe.unitNum, hframe.unitSize]
        exact hcell
    · rw [hframe.producers]
      exact h.places

theorem mpInv_trace (hty : multiProducer ty) {log : List (Action α × Unit)}
    (htrace : (reservingMachine ty).Trace s log) : MpInv ty s := by
  apply htrace.invariant (MpInv ty)
  · intro s hinit
    exact mpInv_init hty hinit.1 hinit.2
  · intro s action r s' hinv hok hstep
    exact mpInv_step hty hinv hok.1.1 hok.1.2 hok.2 hstep

/-- What a ring with several producers promises in every state: the positions are in order and within
one lap, a producer about to copy touches no byte of another element that is not popped yet, the
visible elements are intact, and the `i`-th pop has returned the `i`-th pushed element. -/
structure Safe (s : State α) : Prop where
  write_pos : s.ring.writePos = u4 s.pushed.length
  max_read_idx : s.ring.maxReadIdx = u4 s.published
  read_pos : s.ring.readPos = u4 s.popped.length
  read_le : s.popped.length ≤ s.published
  max_read_le : s.published ≤ s.pushed.length
  capacity : s.pushed.length ≤ s.popped.length + (s.ring.unitNum - 1)
  copies : ∀ p elem widx place, s.producers p = .reserved elem widx place →
    ∀ pos, s.popped.length ≤ pos → pos < s.pushed.length → pos ≠ place →
      ¬ overlaps s.ring.unitSize (elemOffset s.ring widx) (elemOffset s.ring (u4 pos))
  intact : ∀ pos, s.popped.length ≤ pos → pos < s.published →
    s.ring.cells (elemOffset s.ring (u4 pos)) = s.pushed[pos]?
  once : s.popped = (s.pushed.take s.popped.length).map some

theorem MpInv.safe (h : MpInv ty s) : Safe s := by
  have hcap := h.core.capacity
  refine
    { write_pos := h.core.write, max_read_idx := h.maxRead, read_pos := h.core.read
      read_le := h.core.read_le, max_read_le := h.core.top_le, capacity := by omega
      copies := ?_, intact := ?_, once := h.core.taken }
  · intro p elem widx place hpc pos hlo hhi hne
    have hok := h.producers p
    rw [hpc] at hok
    rcases hok with ⟨hwidx, hge, hlt, -⟩
    have hread := h.core.read_le
    rw [hwidx, h.core.fits.elemOffset_u4, h.core.fits.elemOffset_u4]
    exact (h.core.fits.slot_disjoint (mod_ne_of_near hne.symm (by omega) (by omega))).2
  · intro pos hlo hhi
    rw [h.core.fits.elemOffset_u4]
    exact h.core.cells pos hlo hhi

/-- All steps of one push by `p` on `RING_MP_MC`. -/
def pushMp (p elem : ℕ) : List (Action ℕ) :=
  [.push p elem, .producer p, .producer p, .producer p, .producer p, .producer p]

/-- All steps of one pop by `c` on `RING_MP_MC`. -/
def popMc (c : ℕ) : List (Action ℕ) :=
  [.pop c, .consumer c, .consumer c, .consumer c, .consumer c]

/-- Two producers and a consumer, one after the other. -/
def orderlyRun : List (Action ℕ) := pushMp 0 10 ++ popMc 0 ++ pushMp 1 20

theorem orderlyRun_runs :
    ((reservingMachine .mpMc).execAll (idleState 2 1 (by decide)) orderlyRun).isSome := by
  with_unfolding_all decide

/-- Producer `1` loads `read_pos` and sleeps while an element is pushed and popped and another
pushed, which fills the ring of two units; then it loads `write_pos` and reserves. -/
def staleRun : List (Action ℕ) :=
  [.push 1 30, .producer 1] ++ pushMp 0 10 ++ popMc 0 ++ pushMp 0 20 ++ [.producer 1, .producer 1]

theorem staleRun_runs :
    ((machine .mpMc).execAll (idleState 2 1 (by decide)) staleRun).isSome := by
  with_unfolding_all decide

end CPractice.Ring
