import CPractice.Ring.SingleProducer
import CPractice.Ring.MultiProducer

/-!
# Pops that report an empty ring

A pop of a ring with several consumers loads `read_pos`, then the position it may read up to, and
compares the two modulo `unit_num`.  If that position has moved a whole lap past the `read_pos` it
loaded, the pop takes a ring that was never empty for an empty one.  In runs without such a lap a pop
that reports an empty ring found it empty at its load of `read_pos`.
-/

namespace CPractice.Ring

open Lib

variable {α : Type} {ty : RingType}

/-! ## Watched runs -/

/-- A state, and for each consumer whether the ring has been empty since the start of its pop. -/
structure Watched (α : Type) where
  state : State α
  sawEmpty : ℕ → Bool

/-- `read_pos` equals the position a pop may read up to. -/
def atEmpty (ty : RingType) (s : State α) : Bool := s.ring.readPos = popLimit ty s.ring

/-- What the consumers have seen after a step; a pop that starts has seen the ring as it is. -/
def watch (ty : RingType) (w : Watched α) (s' : State α) (action : Action α) (c : ℕ) : Bool :=
  match action with
  | .pop c' => if c' = c then atEmpty ty s' else w.sawEmpty c || atEmpty ty s'
  | .push _ _ | .producer _ | .consumer _ => w.sawEmpty c || atEmpty ty s'

def watchStep (ty : RingType) (w : Watched α) (action : Action α) :
    Option (Unit × Watched α) := do
  let (_, s') ← step ty w.state action
  some ((), ⟨s', watch ty w s' action⟩)

/-- The number of elements in the ring, as `ring_size` counts them. -/
def held (s : State α) : ℕ := u4Sub s.ring.writePos s.ring.readPos

/-- Every interleaving on a ring that never holds more than `unit_num - 1` elements. -/
def watchMachine (ty : RingType) : Machine (Watched α) (Action α) Unit where
  init w := fromInit w.state ∧ w.sawEmpty = fun _ ↦ false
  ok w action := allowed ty action ∧ held w.state ≤ w.state.ring.unitNum - 1
  exec := watchStep ty

instance (ty : RingType) (w : Watched α) (action : Action α) :
    Decidable ((watchMachine ty).ok w action) :=
  inferInstanceAs (Decidable (_ ∧ _))

/-- The consumer's next step is the return of `-2`. -/
def returnsEmpty (ty : RingType) (s : State α) (c : ℕ) : Prop :=
  ∃ ridx seen, s.consumers c = .gotRidx ridx seen ∧ isEmpty s.ring ridx (popLimit ty s.ring)

/-- How many elements consumers may have taken. -/
def limitCount (ty : RingType) (s : State α) : ℕ :=
  match ty with
  | .spSc | .spMc => s.pushed.length
  | .mpSc | .mpMc => s.published

/-- The pop has not been lapped since its load of `read_pos`. -/
def notLapped (ty : RingType) (s : State α) : PopPc α → Prop
  | .gotRidx _ seen => limitCount ty s < seen + s.ring.unitNum
  | _ => True

instance (ty : RingType) (s : State α) : (pc : PopPc α) → Decidable (notLapped ty s pc)
  | .gotRidx _ seen => inferInstanceAs (Decidable (limitCount ty s < seen + s.ring.unitNum))
  | .idle | .start | .gotLimit _ _ | .copied _ _ _ | .bumping _ _ => isTrue trivial

/-- Consumers make their steps before they are lapped, and before `2^32` other pops. -/
def inLap (ty : RingType) (s : State α) : Action α → Prop
  | .consumer c => notLapped ty s (s.consumers c) ∧ popSpan s (s.consumers c)
  | _ => True

instance (ty : RingType) (s : State α) : (action : Action α) → Decidable (inLap ty s action)
  | .consumer c =>
      inferInstanceAs (Decidable (notLapped ty s (s.consumers c) ∧ popSpan s (s.consumers c)))
  | .push _ _ | .producer _ | .pop _ => isTrue trivial

/-- The interleavings without laps. -/
def lapMachine (ty : RingType) : Machine (Watched α) (Action α) Unit :=
  { watchMachine ty with
    ok := fun w action ↦ (watchMachine ty).ok w action ∧ inLap ty w.state action }

instance (ty : RingType) (w : Watched α) (action : Action α) :
    Decidable ((lapMachine ty).ok w action) :=
  inferInstanceAs (Decidable ((watchMachine ty).ok w action ∧ inLap ty w.state action))

/-! ## The counters -/

/-- The types with several consumers. -/
def multiConsumer (ty : RingType) : Prop := ty = .spMc ∨ ty = .mpMc

/-- A producer that is not at its plain store of `write_pos`. -/
def steadyPc : PushPc α → Prop
  | .bumping _ _ => False
  | _ => True

/-- The positions are the counters of the history, and no pop overtakes the limit. -/
structure Counted (ty : RingType) (s : State α) : Prop where
  pow : ∃ k < 32, s.ring.unitNum = 2 ^ k
  read : s.ring.readPos = u4 s.popped.length
  limit : popLimit ty s.ring = u4 (limitCount ty s)
  read_le : s.popped.length ≤ limitCount ty s
  steady : ty = .spMc → ∀ p, steadyPc (s.producers p)

/-- What a step of a producer leaves alone, and what it may count. -/
structure ProducerFrame (ty : RingType) (s s' : State α) : Prop where
  consumers : s'.consumers = s.consumers
  popped : s'.popped = s.popped
  readPos : s'.ring.readPos = s.ring.readPos
  unitNum : s'.ring.unitNum = s.ring.unitNum
  limit : (popLimit ty s'.ring = popLimit ty s.ring ∧ limitCount ty s' = limitCount ty s) ∨
    (popLimit ty s'.ring = u4 (popLimit ty s.ring + 1) ∧ limitCount ty s' = limitCount ty s + 1)

theorem ProducerFrame.set (s : State α) (p : ℕ) (pc : PushPc α) :
    ProducerFrame ty s (setProducer s p pc) := by
  refine ⟨rfl, rfl, rfl, rfl, .inl ⟨rfl, ?_⟩⟩
  cases ty <;> rfl

theorem ProducerFrame.copy (s : State α) (widx : ℕ) (elem : α) (p : ℕ) (pc : PushPc α) :
    ProducerFrame ty s (setProducer (copyElem s widx elem) p pc) := by
  refine ⟨rfl, rfl, rfl, rfl, .inl ⟨?_, ?_⟩⟩
  · cases ty <;> rfl
  · cases ty <;> rfl

/-- A store of `write_pos` counts on a ring with one producer only. -/
theorem ProducerFrame.write (hty : multiConsumer ty) (s : State α) {value : ℕ}
    (hvalue : ty = .spMc → value = u4 (s.ring.writePos + 1)) (elem : α) (p : ℕ) (pc : PushPc α) :
    ProducerFrame ty s (setProducer (storeWrite s value elem) p pc) := by
  refine ⟨rfl, rfl, rfl, rfl, ?_⟩
  rcases hty with rfl | rfl
  · exact .inr ⟨hvalue rfl, List.length_append⟩
  · exact .inl ⟨rfl, rfl⟩

theorem ProducerFrame.publish (hty : multiProducer ty) (s : State α) {value : ℕ}
    (hvalue : value = u4 (s.ring.maxReadIdx + 1)) (p : ℕ) (pc : PushPc α) :
    ProducerFrame ty s (setProducer (storeMaxRead s value) p pc) := by
  refine ⟨rfl, rfl, rfl, rfl, .inr ⟨?_, ?_⟩⟩
  · rw [popLimit_of_multi hty, popLimit_of_multi hty]
    exact hvalue
  · rcases hty with rfl | rfl
    · rfl
    · rfl

theorem steady_setProducer {s s' : State α} (h : ∀ p, steadyPc (s.producers p))
    (hs' : s'.producers = s.producers) (p : ℕ) {pc : PushPc α} (hpc : steadyPc pc) (q : ℕ) :
    steadyPc ((setProducer s' p pc).producers q) := by
  by_cases hq : q = p
  · simpa [setProducer, hq] using hpc
  · simpa [setProducer, hq, hs'] using h q

theorem afterLoads_frame (hty : multiConsumer ty) {s : State α} (h : Counted ty s) (p : ℕ) (elem : α)
    (widx : ℕ) : ProducerFrame ty s (afterLoads ty s p elem widx) ∧
      (ty = .spMc → ∀ q, steadyPc ((afterLoads ty s p elem widx).producers q)) := by
  rcases hty with rfl | rfl
  · exact ⟨.copy _ _ _ _ _, fun hsp ↦ steady_setProducer (h.steady hsp) rfl _ trivial⟩
  · refine ⟨?_, fun hsp ↦ by cases hsp⟩
    simp only [afterLoads]
    split
    · exact .write (.inr rfl) s (fun hsp ↦ by cases hsp) _ _ _
    · exact .set _ _ _

theorem afterCopy_frame (hty : multiConsumer ty) {s : State α} (h : Counted ty s) (p : ℕ) (elem : α)
    (widx place : ℕ) : ProducerFrame ty s (afterCopy ty s p elem widx place) ∧
      (ty = .spMc → ∀ q, steadyPc ((afterCopy ty s p elem widx place).producers q)) := by
  rcases hty with rfl | rfl
  · exact ⟨.write (.inl rfl) s (fun _ ↦ rfl) _ _ _,
      fun hsp ↦ steady_setProducer (h.steady hsp) rfl _ trivial⟩
  · refine ⟨?_, fun hsp ↦ by cases hsp⟩
    simp only [afterCopy]
    split
    · rename_i hmax
      exact .publish (.inr rfl) s (by rw [hmax]) _ _
    · exact .set _ _ _

/-- A step of a producer. -/
theorem producerStep_frame (hty : multiConsumer ty) {s s' : State α} (h : Counted ty s) {p : ℕ}
    (hstep : producerStep ty s p = some s') :
    ProducerFrame ty s s' ∧ (ty = .spMc → ∀ q, steadyPc (s'.producers q)) := by
  have hset : ∀ pc, steadyPc pc → ProducerFrame ty s (setProducer s p pc) ∧
      (ty = .spMc → ∀ q, steadyPc ((setProducer s p pc).producers q)) :=
    fun pc hpc ↦ ⟨.set s p pc, fun hsp ↦ steady_setProducer (h.steady hsp) rfl p hpc⟩
  unfold producerStep at hstep
  split at hstep
  case h_1 => cases hstep
  case h_2 elem hpc =>
    cases hstep
    exact hset _ trivial
  case h_3 elem ridx hpc =>
    split at hstep
    · cases hstep
      exact hset _ trivial
    · cases hstep
      exact hset _ trivial
  case h_4 elem widx hpc =>
    cases hstep
    exact afterLoads_frame hty h p elem widx
  case h_5 elem widx place hpc =>
    cases hstep
    exact ⟨.copy _ _ _ _ _, fun hsp ↦ steady_setProducer (h.steady hsp) rfl _ trivial⟩
  case h_6 elem widx place hpc =>
    cases hstep
    exact afterCopy_frame hty h p elem widx place
  case h_7 elem value hpc =>
    cases hstep
    have hmulti : ty ≠ .spMc := by
      intro hsp
      have hsteady := h.steady hsp p
      rw [hpc] at hsteady
      exact hsteady
    exact ⟨.write hty s (fun hsp ↦ absurd hsp hmulti) _ _ _, fun hsp ↦ absurd hsp hmulti⟩

/-! ## The invariant -/

/-- What a pop knows.  A limit that is still at the `read_pos` it loaded was there at the load. -/
def PopOk (ty : RingType) (s : State α) (saw : Bool) : PopPc α → Prop
  | .idle | .start => True
  | .gotRidx ridx seen =>
      ridx = u4 seen ∧ seen ≤ s.popped.length ∧ (limitCount ty s = seen → saw = true)
  | .gotLimit ridx seen | .copied _ ridx seen =>
      ridx = u4 seen ∧ seen ≤ s.popped.length ∧ seen < limitCount ty s
  | .bumping _ _ => False

structure WatchInv (ty : RingType) (w : Watched α) : Prop where
  counted : Counted ty w.state
  pops : ∀ c, PopOk ty w.state (w.sawEmpty c) (w.state.consumers c)

/-- Pops of others and pushes keep what a pop knows. -/
theorem PopOk.mono {s s' : State α} {saw saw' : Bool} {pc : PopPc α} (h : PopOk ty s saw pc)
    (hcounted : Counted ty s) (hpopped : s.popped.length ≤ s'.popped.length)
    (hlimit : limitCount ty s ≤ limitCount ty s') (hsaw : saw = true → saw' = true) :
    PopOk ty s' saw' pc := by
  cases pc with
  | idle => trivial
  | start => trivial
  | gotRidx ridx seen =>
      rcases h with ⟨hridx, hseen, hempty⟩
      refine ⟨hridx, hseen.trans hpopped, ?_⟩
      intro heq
      have hle := hcounted.read_le
      exact hsaw (hempty (by omega))
  | gotLimit ridx seen => exact ⟨h.1, h.2.1.trans hpopped, h.2.2.trans_le hlimit⟩
  | copied elem ridx seen => exact ⟨h.1, h.2.1.trans hpopped, h.2.2.trans_le hlimit⟩
  | bumping elem value => exact h

/-- What every step owes: the counters, and what a consumer that does not move has seen. -/
theorem watch_mono (ty : RingType) (w : Watched α) (s' : State α) {action : Action α} {c : ℕ}
    (hother : action ≠ .pop c) (hsaw : w.sawEmpty c = true) : watch ty w s' action c = true := by
  unfold watch
  split
  case h_1 c' =>
    have hne : c' ≠ c := fun heq ↦ hother (by rw [heq])
    rw [if_neg hne, hsaw, Bool.true_or]
  all_goals rw [hsaw, Bool.true_or]

/-- A step of a producer. -/
theorem WatchInv.producer {w : Watched α} (h : WatchInv ty w) {s' : State α} {action : Action α}
    (hframe : ProducerFrame ty w.state s')
    (hsteady : ty = .spMc → ∀ q, steadyPc (s'.producers q)) (hnot : ∀ c, action ≠ .pop c) :
    WatchInv ty ⟨s', watch ty w s' action⟩ := by
  have hlimit : popLimit ty s'.ring = u4 (limitCount ty s') ∧
      limitCount ty w.state ≤ limitCount ty s' := by
    rcases hframe.limit with ⟨hpos, hcount⟩ | ⟨hpos, hcount⟩
    · rw [hpos, hcount]
      exact ⟨h.counted.limit, le_rfl⟩
    · rw [hpos, hcount, h.counted.limit, u4_add]
      exact ⟨rfl, Nat.le_succ _⟩
  refine ⟨⟨?_, ?_, hlimit.1, ?_, hsteady⟩, ?_⟩
  · change ∃ k < 32, s'.ring.unitNum = 2 ^ k
    rw [hframe.unitNum]
    exact h.counted.pow
  · change s'.ring.readPos = u4 s'.popped.length
    rw [hframe.readPos, hframe.popped]
    exact h.counted.read
  · change s'.popped.length ≤ limitCount ty s'
    rw [hframe.popped]
    exact h.counted.read_le.trans hlimit.2
  · intro c
    change PopOk ty s' (watch ty w s' action c) (s'.consumers c)
    rw [hframe.consumers]
    exact (h.pops c).mono h.counted (by rw [hframe.popped]) hlimit.2
      (watch_mono ty w s' (hnot c))

/-- A step of a consumer that only changes its program counter. -/
theorem WatchInv.setConsumer {w : Watched α} (h : WatchInv ty w) (c : ℕ) (pc : PopPc α)
    {action : Action α} (hother : ∀ c', c' ≠ c → action ≠ .pop c')
    (hpc : PopOk ty w.state (watch ty w (setConsumer w.state c pc) action c) pc) :
    WatchInv ty ⟨setConsumer w.state c pc, watch ty w (setConsumer w.state c pc) action⟩ := by
  have hcount : limitCount ty (Ring.setConsumer w.state c pc) = limitCount ty w.state := by
    cases ty <;> rfl
  refine ⟨⟨h.counted.pow, h.counted.read, ?_, ?_, h.counted.steady⟩, ?_⟩
  · rw [hcount]
    exact h.counted.limit
  · rw [hcount]
    exact h.counted.read_le
  · intro c'
    by_cases hc : c' = c
    · subst hc
      have hself : (Ring.setConsumer w.state c' pc).consumers c' = pc := Function.update_self _ _ _
      change PopOk ty (Ring.setConsumer w.state c' pc) _ ((Ring.setConsumer w.state c' pc).consumers c')
      rw [hself]
      exact hpc.mono h.counted le_rfl hcount.ge id
    · have hsame : (Ring.setConsumer w.state c pc).consumers c' = w.state.consumers c' :=
        Function.update_of_ne hc _ _
      change PopOk ty (Ring.setConsumer w.state c pc) _ ((Ring.setConsumer w.state c pc).consumers c')
      rw [hsame]
      exact (h.pops c').mono h.counted le_rfl hcount.ge (watch_mono ty w _ (hother c' hc))

/-- A pop that takes an element. -/
theorem WatchInv.take {w : Watched α} (h : WatchInv ty w) {c ridx seen : ℕ} {elem : Option α}
    (hpc : w.state.consumers c = .copied elem ridx seen) (hspan : popSpan w.state (w.state.consumers c))
    (hcas : w.state.ring.readPos = ridx) {s' : State α}
    (hs' : s' = Ring.setConsumer (storeRead w.state (u4 (ridx + 1)) elem) c .idle) :
    WatchInv ty ⟨s', watch ty w s' (.consumer c)⟩ := by
  have hpop := h.pops c
  rw [hpc] at hpop hspan
  rcases hpop with ⟨hridx, hseen, hlt⟩
  have hread := h.counted.read
  -- `read_pos` has not moved since the load, as fewer than `2^32` pops have passed.
  have hstill : w.state.popped.length = seen := by
    apply u4_inj _ hspan (by omega)
    rw [← hread, hcas, hridx]
  have hcount : limitCount ty s' = limitCount ty w.state := by
    rw [hs']
    cases ty <;> rfl
  have hlimit : popLimit ty s'.ring = popLimit ty w.state.ring := by
    rw [hs']
    cases ty <;> rfl
  have hpopped : s'.popped.length = w.state.popped.length + 1 := by
    rw [hs']
    exact List.length_append
  refine ⟨⟨?_, ?_, ?_, ?_, ?_⟩, ?_⟩
  · rw [hs']
    exact h.counted.pow
  · change s'.ring.readPos = u4 s'.popped.length
    rw [hpopped, hs']
    change u4 (ridx + 1) = _
    rw [← hcas, hread, u4_add]
  · change popLimit ty s'.ring = u4 (limitCount ty s')
    rw [hlimit, hcount]
    exact h.counted.limit
  · change s'.popped.length ≤ limitCount ty s'
    rw [hpopped, hcount]
    omega
  · rw [hs']
    exact h.counted.steady
  · intro c'
    change PopOk ty s' _ (s'.consumers c')
    by_cases hc : c' = c
    · have hself : s'.consumers c' = .idle := by
        rw [hs', hc]
        exact Function.update_self _ _ _
      rw [hself]
      trivial
    · have hsame : s'.consumers c' = w.state.consumers c' := by
        rw [hs']
        exact Function.update_of_ne hc _ _
      rw [hsame]
      have hnot : (Action.consumer c : Action α) ≠ .pop c' := fun heq ↦ by cases heq
      exact (h.pops c').mono h.counted (by omega) hcount.ge (watch_mono ty w s' hnot)

/-- A step of a consumer. -/
theorem WatchInv.consumer (hty : multiConsumer ty) {w : Watched α} (h : WatchInv ty w) {c : ℕ}
    (hspan : popSpan w.state (w.state.consumers c)) {s' : State α}
    (hstep : consumerStep ty w.state c = some s') :
    WatchInv ty ⟨s', watch ty w s' (.consumer c)⟩ := by
  have hpop := h.pops c
  have hother : ∀ c', c' ≠ c → (Action.consumer c : Action α) ≠ .pop c' :=
    fun c' _ heq ↦ by cases heq
  unfold consumerStep at hstep
  split at hstep
  case h_1 => cases hstep
  case h_2 hpc =>
    cases hstep
    refine h.setConsumer c _ hother ⟨h.counted.read, le_rfl, ?_⟩
    intro heq
    have hnow : atEmpty ty w.state = true := by
      rw [atEmpty, h.counted.read, h.counted.limit, heq, decide_eq_true_eq]
    exact Bool.or_eq_true_iff.mpr (.inr hnow)
  case h_3 ridx seen hpc =>
    rw [hpc] at hpop
    rcases hpop with ⟨hridx, hseen, -⟩
    split at hstep
    · cases hstep
      exact h.setConsumer c _ hother trivial
    · rename_i hnot
      cases hstep
      refine h.setConsumer c _ hother ⟨hridx, hseen, ?_⟩
      rw [hridx, h.counted.limit] at hnot
      exact lt_of_not_isEmpty _ (hseen.trans h.counted.read_le) hnot
  case h_4 ridx seen hpc =>
    rw [hpc] at hpop
    cases hstep
    exact h.setConsumer c _ hother hpop
  case h_5 elem ridx seen hpc =>
    have hread : s' = if w.state.ring.readPos = ridx
        then Ring.setConsumer (storeRead w.state (u4 (ridx + 1)) elem) c .idle
        else Ring.setConsumer w.state c .start := by
      cases hstep
      rcases hty with rfl | rfl
      · rfl
      · rfl
    split at hread
    · rename_i hcas
      exact h.take hpc hspan hcas hread
    · rw [hread]
      exact h.setConsumer c _ hother trivial
  case h_6 elem value hpc =>
    rw [hpc] at hpop
    exact hpop.elim

/-! ## Runs -/

theorem watchInv_init {w : Watched α} (hinit : (lapMachine ty).init w) : WatchInv ty w := by
  rcases w with ⟨s, saw⟩
  rcases hinit with ⟨⟨unitNum, unitSize, ring, hnum, -, hring, rfl⟩, -⟩
  rcases ringInit_cases hnum hring with ⟨hpow, -, rfl⟩
  have hzero : 0 = u4 0 := (u4_of_lt (by decide)).symm
  refine ⟨⟨hpow, hzero, ?_, ?_, fun _ _ ↦ trivial⟩, fun _ ↦ trivial⟩
  · cases ty <;> exact hzero
  · cases ty <;> exact le_rfl

theorem watchInv_step (hty : multiConsumer ty) {w w' : Watched α} (h : WatchInv ty w)
    {action : Action α} (hok : (lapMachine ty).ok w action)
    (hexec : watchStep ty w action = some ((), w')) : WatchInv ty w' := by
  rcases Option.bind_eq_some_iff.mp hexec with ⟨⟨_, s'⟩, hstep, heq⟩
  cases heq
  rcases step_cases hstep with ⟨p, elem, rfl, rfl⟩ | ⟨p, rfl, hproducer⟩ | ⟨c, rfl, rfl⟩ |
    ⟨c, rfl, hconsumer⟩
  · refine h.producer (.set _ _ _) ?_ (fun c heq ↦ by cases heq)
    exact fun hsp ↦ steady_setProducer (h.counted.steady hsp) rfl p trivial
  · rcases producerStep_frame hty h.counted hproducer with ⟨hframe, hsteady⟩
    exact h.producer hframe hsteady (fun c heq ↦ by cases heq)
  · refine h.setConsumer c .start ?_ trivial
    rintro c' hne ⟨⟩
    exact hne rfl
  · exact h.consumer hty hok.2.2 hconsumer

theorem watchInv_trace (hty : multiConsumer ty) {w : Watched α} {log : List (Action α × Unit)}
    (htrace : (lapMachine ty).Trace w log) : WatchInv ty w := by
  apply htrace.invariant (WatchInv ty) (fun w hinit ↦ watchInv_init hinit)
  rintro w action ⟨⟩ w' h hok hexec
  exact watchInv_step hty h hok hexec

/-- All steps of one push on `RING_SP_MC`. -/
def pushSpMc (elem : ℕ) : List (Action ℕ) :=
  [.push 0 elem, .producer 0, .producer 0, .producer 0, .producer 0]

/-- A ring of four units, no pop started. -/
def quietRing : Watched ℕ := ⟨idleState 4 8 (by decide), fun _ ↦ false⟩

theorem quietRing_init (ty : RingType) : (watchMachine ty).init quietRing :=
  ⟨idleState_init _ (by decide) (by decide), rfl⟩

/-- The ring is emptied by one consumer, and another one loads `read_pos`. -/
def emptiedRun : List (Action ℕ) := pushSpMc 10 ++ popMc 1 ++ [.pop 0, .consumer 0]

theorem emptiedRun_runs : ((lapMachine .spMc).execAll quietRing emptiedRun).isSome := by
  with_unfolding_all decide

/-- A consumer loads `read_pos` with two elements in the ring; one is popped and two are pushed. -/
def lappedRun : List (Action ℕ) :=
  pushSpMc 10 ++ pushSpMc 20 ++ [.pop 0, .consumer 0] ++ popMc 1 ++ pushSpMc 30 ++ pushSpMc 40

theorem lappedRun_runs : ((watchMachine .spMc).execAll quietRing lappedRun).isSome := by
  with_unfolding_all decide

end CPractice.Ring
