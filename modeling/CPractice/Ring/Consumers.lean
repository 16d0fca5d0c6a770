import CPractice.Ring.Slots

/-!
# The pops

All rings share one account of their consumers.  `Core s top` relates the counters to the history:
the pops have returned the first pushed elements in order, at most one lap lies between `read_pos` and
`write_pos`, and the elements from `read_pos` up to `top`, the position visible to consumers, are
intact in their slots.  A consumer copies an element before it owns it; what it copied is only
known to be right if `read_pos` has not moved since, and that is what its compare-and-swap checks.
-/

namespace CPractice.Ring

open Lib

variable {α : Type} {ty : RingType} {s s' : State α} {top top' c : ℕ}

/-- The ring types with one consumer. -/
def singleConsumer (ty : RingType) : Prop := ty = .spSc ∨ ty = .mpSc

/-- The ring's counters, history and visible elements. -/
structure Core (s : State α) (top : ℕ) : Prop where
  fits : Fits s.ring
  write : s.ring.writePos = u4 s.pushed.length
  read : s.ring.readPos = u4 s.popped.length
  taken : s.popped = (s.pushed.take s.popped.length).map some
  read_le : s.popped.length ≤ top
  top_le : top ≤ s.pushed.length
  capacity : s.pushed.length + 1 ≤ s.popped.length + s.ring.unitNum
  cells : ∀ pos, s.popped.length ≤ pos → pos < top →
    s.ring.cells (slotOf s.ring pos) = s.pushed[pos]?

/-- The account does not read the locals of threads. -/
theorem Core.setProducer (h : Core s top) (p : ℕ) (pc : PushPc α) :
    Core (setProducer s p pc) top :=
  ⟨h.fits, h.write, h.read, h.taken, h.read_le, h.top_le, h.capacity, h.cells⟩

theorem Core.setConsumer (h : Core s top) (c : ℕ) (pc : PopPc α) :
    Core (setConsumer s c pc) top :=
  ⟨h.fits, h.write, h.read, h.taken, h.read_le, h.top_le, h.capacity, h.cells⟩

/-- What the locals of a consumer say about the ring. -/
def ConsumerOk (ty : RingType) (s : State α) (top : ℕ) : PopPc α → Prop
  | .idle | .start => True
  | .gotRidx ridx seen =>
      ridx = u4 seen ∧ seen ≤ s.popped.length ∧ (singleConsumer ty → seen = s.popped.length)
  | .gotLimit ridx seen =>
      ridx = u4 seen ∧ seen ≤ s.popped.length ∧ (singleConsumer ty → seen = s.popped.length) ∧
        seen < top
  | .copied elem ridx seen =>
      ridx = u4 seen ∧ seen ≤ s.popped.length ∧ (singleConsumer ty → seen = s.popped.length) ∧
        seen < top ∧ (seen = s.popped.length → elem = s.pushed[seen]?)
  | .bumping elem value =>
      singleConsumer ty ∧ value = u4 s.popped.length ∧ s.popped.length < top ∧
        elem = s.pushed[s.popped.length]?

/-- All consumers; on a single-consumer ring only consumer `0` runs. -/
structure Consumers (ty : RingType) (s : State α) (top : ℕ) : Prop where
  limit : popLimit ty s.ring = u4 top
  ok : ∀ c, ConsumerOk ty s top (s.consumers c)
  single : singleConsumer ty → ∀ c, c ≠ 0 → s.consumers c = .idle

/-- The locals of a consumer stay right while others push and publish, and on a ring with several
consumers also while others pop. -/
theorem ConsumerOk.mono {pc : PopPc α} (h : ConsumerOk ty s top pc) (s' : State α) (htop : top ≤ top')
    (hlast : top ≤ s.pushed.length) (hpushed : s.pushed <+: s'.pushed)
    (hpopped : s.popped.length ≤ s'.popped.length)
    (hsingle : singleConsumer ty → s'.popped.length = s.popped.length) :
    ConsumerOk ty s' top' pc := by
  have hget : ∀ i, i < top → s'.pushed[i]? = s.pushed[i]? := by
    intro i hi
    rcases hpushed with ⟨rest, hrest⟩
    rw [← hrest, List.getElem?_append_left (by omega)]
  cases pc with
  | idle => trivial
  | start => trivial
  | gotRidx ridx seen =>
      exact ⟨h.1, h.2.1.trans hpopped, fun hs ↦ by rw [hsingle hs, h.2.2 hs]⟩
  | gotLimit ridx seen =>
      exact ⟨h.1, h.2.1.trans hpopped, fun hs ↦ by rw [hsingle hs, h.2.2.1 hs], by
        have hlt := h.2.2.2
        omega⟩
  | copied elem ridx seen =>
      rcases h with ⟨hridx, hseen, hone, hlt, helem⟩
      refine ⟨hridx, hseen.trans hpopped, fun hs ↦ by rw [hsingle hs, hone hs], by omega, ?_⟩
      intro heq
      -- If pops went by, `seen` lies behind the new count and there is nothing to show.
      have hsame : seen = s.popped.length := by omega
      rw [hget seen hlt]
      exact helem hsame
  | bumping elem value =>
      rcases h with ⟨hone, hvalue, hlt, helem⟩
      have hsame := hsingle hone
      refine ⟨hone, by rw [hsame, hvalue], by omega, ?_⟩
      rw [hsame, hget _ hlt]
      exact helem

/-- The pop of an element that is still first in line. -/
theorem Core.pop (h : Core s top) (hlt : s.popped.length < top) {elem : Option α}
    (helem : elem = s.pushed[s.popped.length]?) :
    Core (storeRead s (u4 (s.popped.length + 1)) elem) top := by
  have hlast := h.top_le
  have hget : elem = some (s.pushed[s.popped.length]) := by
    rw [helem, List.getElem?_eq_getElem (by omega)]
  refine
    { fits := ⟨h.fits.pow, h.fits.size_pos, h.fits.room⟩, write := h.write
      read := by simp [storeRead], taken := ?_, read_le := by simpa [storeRead] using Nat.succ_le_of_lt hlt
      top_le := h.top_le, capacity := ?_, cells := ?_ }
  · have htake : s.pushed.take (s.popped.length + 1) =
        s.pushed.take s.popped.length ++ [s.pushed[s.popped.length]] := by
      rw [List.take_add_one, List.getElem?_eq_getElem (by omega), Option.toList_some]
    calc
      s.popped ++ [elem] = (s.pushed.take s.popped.length).map some ++ [elem] := by
        rw [← h.taken]
      _ = (s.pushed.take (s.popped.length + 1)).map some := by
        rw [htake, hget, List.map_append, List.map_singleton]
      _ = (s.pushed.take (s.popped ++ [elem]).length).map some := by
        rw [List.length_append, List.length_singleton]
  · have hcap := h.capacity
    simp only [storeRead, List.length_append, List.length_singleton]
    omega
  · intro pos hlo hhi
    apply h.cells pos _ hhi
    simp only [storeRead, List.length_append, List.length_singleton] at hlo
    omega

/-! ## Steps of producers -/

/-- `write_pos` passes one more element; `top'` is what consumers see afterwards. -/
theorem Core.push (h : Core s top) (hroom : s.pushed.length + 2 ≤ s.popped.length + s.ring.unitNum)
    (elem : α) (htop : top ≤ top') (htop' : top' ≤ s.pushed.length + 1)
    (hcells : ∀ pos, top ≤ pos → pos < top' →
      s.ring.cells (slotOf s.ring pos) = (s.pushed ++ [elem])[pos]?) :
    Core (storeWrite s (u4 (s.pushed.length + 1)) elem) top' := by
  have hread := h.read_le
  have hlast := h.top_le
  refine
    { fits := ⟨h.fits.pow, h.fits.size_pos, h.fits.room⟩, write := by simp [storeWrite]
      read := h.read, taken := ?_, read_le := hread.trans htop, top_le := ?_
      capacity := ?_, cells := ?_ }
  · have htake : (s.pushed ++ [elem]).take s.popped.length = s.pushed.take s.popped.length :=
      List.take_append_of_le_length (hread.trans hlast)
    have htaken := h.taken
    rw [← htake] at htaken
    exact htaken
  · simpa [storeWrite] using htop'
  · simp only [storeWrite, List.length_append, List.length_singleton]
    omega
  · intro pos hlo hhi
    by_cases hold : pos < top
    · have hget : (s.pushed ++ [elem])[pos]? = s.pushed[pos]? :=
        List.getElem?_append_left (hold.trans_le hlast)
      exact (h.cells pos hlo hold).trans hget.symm
    · exact hcells pos (Nat.not_lt.mp hold) hhi

/-- A copy to a position of the lap that is not visible yet. -/
theorem Core.copy (h : Core s top) {w : ℕ} (hlo : top ≤ w)
    (hhi : w < s.popped.length + s.ring.unitNum) (elem : α) :
    Core (copyElem s (u4 w) elem) top ∧
      (copyElem s (u4 w) elem).ring.cells (slotOf s.ring w) = some elem := by
  have hoffset := h.fits.elemOffset_u4 w
  constructor
  · refine ⟨⟨h.fits.pow, h.fits.size_pos, h.fits.room⟩, h.write, h.read, h.taken, h.read_le,
      h.top_le, h.capacity, ?_⟩
    intro pos hpos htop
    have hcell : (copyIn s.ring (slotOf s.ring w) elem).cells (slotOf s.ring pos) =
        s.ring.cells (slotOf s.ring pos) := by
      have hpos' : s.popped.length ≤ pos := hpos
      exact copyIn_slot h.fits (by omega) (by omega) (by omega) elem
    calc
      (copyElem s (u4 w) elem).ring.cells (slotOf s.ring pos) =
          (copyIn s.ring (slotOf s.ring w) elem).cells (slotOf s.ring pos) := by
        rw [copyElem, hoffset]
      _ = s.ring.cells (slotOf s.ring pos) := hcell
      _ = s.pushed[pos]? := h.cells pos hpos htop
  · rw [copyElem, hoffset]
    exact copyIn_self _ _ _

/-- Consumers do not notice the steps of producers. -/
theorem Consumers.frame (h : Consumers ty s top) (hlast : top ≤ s.pushed.length) (s' : State α)
    (hconsumers : s'.consumers = s.consumers) (hpopped : s'.popped = s.popped)
    (hpushed : s.pushed <+: s'.pushed) (htop : top ≤ top')
    (hlimit : popLimit ty s'.ring = u4 top') : Consumers ty s' top' := by
  refine ⟨hlimit, ?_, ?_⟩
  · intro c
    rw [hconsumers]
    exact (h.ok c).mono s' htop hlast hpushed (by rw [hpopped]) fun _ ↦ by rw [hpopped]
  · rw [hconsumers]
    exact h.single

/-! ## One step of a consumer -/

/-- A step of a consumer leaves the producers' side alone. -/
structure ConsumerFrame (s s' : State α) : Prop where
  producers : s'.producers = s.producers
  pushed : s'.pushed = s.pushed
  published : s'.published = s.published
  popped : s.popped.length ≤ s'.popped.length
  unitNum : s'.ring.unitNum = s.ring.unitNum
  unitSize : s'.ring.unitSize = s.ring.unitSize
  writePos : s'.ring.writePos = s.ring.writePos
  maxReadIdx : s'.ring.maxReadIdx = s.ring.maxReadIdx
  cells : s'.ring.cells = s.ring.cells

theorem setConsumer_frame (s : State α) (c : ℕ) (pc : PopPc α) :
    ConsumerFrame s (setConsumer s c pc) :=
  ⟨rfl, rfl, rfl, le_rfl, rfl, rfl, rfl, rfl, rfl⟩

theorem storeRead_frame (s : State α) (value : ℕ) (elem : Option α) (c : ℕ) (pc : PopPc α) :
    ConsumerFrame s (setConsumer (storeRead s value elem) c pc) :=
  ⟨rfl, rfl, rfl, by simp [setConsumer, storeRead], rfl, rfl, rfl, rfl, rfl⟩

/-- A consumer changes its locals only. -/
theorem Consumers.set (hcore : Core s top) (h : Consumers ty s top)
    (hone : singleConsumer ty → c = 0) (pc : PopPc α) (hpc : ConsumerOk ty s top pc) :
    Core (setConsumer s c pc) top ∧ Consumers ty (setConsumer s c pc) top := by
  refine ⟨hcore.setConsumer c pc, h.limit, ?_, ?_⟩
  · intro d
    have hmono : ∀ pc', ConsumerOk ty s top pc' → ConsumerOk ty (setConsumer s c pc) top pc' :=
      fun pc' hok ↦ hok.mono _ le_rfl hcore.top_le (List.prefix_refl _) le_rfl fun _ ↦ rfl
    by_cases hd : d = c
    · subst hd
      simpa [setConsumer] using hmono pc hpc
    · simpa [setConsumer, hd] using hmono _ (h.ok d)
  · intro hs d hd
    have hdc : d ≠ c := fun heq ↦ hd (heq.trans (hone hs))
    simpa [setConsumer, hdc] using h.single hs d hd

/-- A consumer takes the first element in line. -/
theorem Consumers.take (hcore : Core s top) (h : Consumers ty s top)
    (hlt : s.popped.length < top) {elem : Option α} (helem : elem = s.pushed[s.popped.length]?)
    (hone : singleConsumer ty → c = 0) :
    Core (setConsumer (storeRead s (u4 (s.popped.length + 1)) elem) c .idle) top ∧
      Consumers ty (setConsumer (storeRead s (u4 (s.popped.length + 1)) elem) c .idle) top := by
  refine ⟨(hcore.pop hlt helem).setConsumer c .idle, ?_, ?_, ?_⟩
  · have hlimit := h.limit
    cases ty <;> exact hlimit
  · intro d
    by_cases hd : d = c
    · subst hd
      simp [setConsumer, ConsumerOk]
    · by_cases hs : singleConsumer ty
      · have hidle : s.consumers d = .idle := by
          apply h.single hs d
          exact fun hzero ↦ hd (hzero.trans (hone hs).symm)
        simp [setConsumer, storeRead, hd, hidle, ConsumerOk]
      · have hok := (h.ok d).mono (setConsumer (storeRead s (u4 (s.popped.length + 1)) elem) c
          .idle) le_rfl hcore.top_le (List.prefix_refl _) (by simp [setConsumer, storeRead])
          fun hs' ↦ absurd hs' hs
        simpa [setConsumer, storeRead, hd] using hok
  · intro hs d hd
    have hdc : d ≠ c := fun heq ↦ hd (heq.trans (hone hs))
    simpa [setConsumer, storeRead, hdc] using h.single hs d hd

/-- The end of a pop.  Where consumers compete, the compare-and-swap succeeds only if no pop came
between, and then the copied element is the first in line. -/
theorem afterRead_spec (hcore : Core s top) (h : Consumers ty s top)
    (hone : singleConsumer ty → c = 0) {elem : Option α} {ridx seen : ℕ}
    (hok : ConsumerOk ty s top (.copied elem ridx seen))
    (hspan : s.popped.length < seen + 4294967296) :
    Core (afterRead ty s c elem ridx) top ∧ Consumers ty (afterRead ty s c elem ridx) top ∧
      ConsumerFrame s (afterRead ty s c elem ridx) := by
  rcases hok with ⟨hridx, hseen, hsingle, hlt, helem⟩
  have hcas : Core (if s.ring.readPos = ridx then setConsumer (storeRead s (u4 (ridx + 1)) elem) c
        .idle else setConsumer s c .start) top ∧
      Consumers ty (if s.ring.readPos = ridx then setConsumer (storeRead s (u4 (ridx + 1)) elem) c
        .idle else setConsumer s c .start) top ∧
      ConsumerFrame s (if s.ring.readPos = ridx then setConsumer (storeRead s (u4 (ridx + 1)) elem)
        c .idle else setConsumer s c .start) := by
    split
    · rename_i heq
      have hsame : seen = s.popped.length := by
        apply u4_inj _ (by omega) (by omega)
        rw [← hridx, ← heq, hcore.read]
      rw [hridx, u4_add, hsame]
      have htake := h.take hcore (hsame ▸ hlt) (hsame ▸ helem hsame) hone
      exact ⟨htake.1, htake.2, storeRead_frame _ _ _ _ _⟩
    · have hset := h.set hcore hone .start trivial
      exact ⟨hset.1, hset.2, setConsumer_frame _ _ _⟩
  cases ty with
  | spSc =>
      have hsame := hsingle (.inl rfl)
      have hset := h.set hcore hone (.bumping elem s.ring.readPos)
        ⟨.inl rfl, hcore.read, hsame ▸ hlt, hsame ▸ helem hsame⟩
      exact ⟨hset.1, hset.2, setConsumer_frame _ _ _⟩
  | mpSc =>
      have hsame := hsingle (.inr rfl)
      have htake := h.take hcore (hsame ▸ hlt) (hsame ▸ helem hsame) hone
      simp only [afterRead, hcore.read, u4_add]
      exact ⟨htake.1, htake.2, storeRead_frame _ _ _ _ _⟩
  | spMc => exact hcas
  | mpMc => exact hcas

/-- Every step of a consumer keeps the account. -/
theorem consumerStep_spec (hcore : Core s top) (h : Consumers ty s top)
    (hone : singleConsumer ty → c = 0) (hspan : popSpan s (s.consumers c))
    (hstep : consumerStep ty s c = some s') :
    Core s' top ∧ Consumers ty s' top ∧ ConsumerFrame s s' := by
  have hok := h.ok c
  unfold consumerStep at hstep
  cases hpc : s.consumers c with
  | idle => simp [hpc] at hstep
  | start =>
      simp only [hpc, Option.some_inj] at hstep
      subst hstep
      have hset := h.set hcore hone (.gotRidx s.ring.readPos s.popped.length)
        ⟨hcore.read, le_rfl, fun _ ↦ rfl⟩
      exact ⟨hset.1, hset.2, setConsumer_frame _ _ _⟩
  | gotRidx ridx seen =>
      rw [hpc] at hok
      simp only [hpc] at hstep
      split at hstep
      · obtain rfl := Option.some.inj hstep
        have hset := h.set hcore hone .idle trivial
        exact ⟨hset.1, hset.2, setConsumer_frame _ _ _⟩
      · rename_i hnotEmpty
        obtain rfl := Option.some.inj hstep
        have hlt : seen < top := by
          apply lt_of_not_isEmpty s.ring (hok.2.1.trans hcore.read_le)
          rwa [← hok.1, ← h.limit]
        have hset := h.set hcore hone (.gotLimit ridx seen) ⟨hok.1, hok.2.1, hok.2.2, hlt⟩
        exact ⟨hset.1, hset.2, setConsumer_frame _ _ _⟩
  | gotLimit ridx seen =>
      rw [hpc] at hok
      simp only [hpc, Option.some_inj] at hstep
      subst hstep
      rcases hok with ⟨hridx, hseen, hsingle, hlt⟩
      have hcopy : seen = s.popped.length →
          s.ring.cells (elemOffset s.ring ridx) = s.pushed[seen]? := by
        intro heq
        rw [hridx, hcore.fits.elemOffset_u4]
        exact hcore.cells seen heq.ge hlt
      have hset := h.set hcore hone (.copied (s.ring.cells (elemOffset s.ring ridx)) ridx seen)
        ⟨hridx, hseen, hsingle, hlt, hcopy⟩
      exact ⟨hset.1, hset.2, setConsumer_frame _ _ _⟩
  | copied elem ridx seen =>
      rw [hpc] at hok hspan
      simp only [hpc, Option.some_inj] at hstep
      subst hstep
      exact afterRead_spec hcore h hone hok hspan
  | bumping elem value =>
      rw [hpc] at hok
      simp only [hpc, Option.some_inj] at hstep
      subst hstep
      rcases hok with ⟨-, hvalue, hlt, helem⟩
      rw [hvalue, u4_add]
      have htake := h.take hcore hlt helem hone
      exact ⟨htake.1, htake.2, storeRead_frame _ _ _ _ _⟩

end CPractice.Ring
