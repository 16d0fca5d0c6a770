import CPractice.Timer.Model
import Mathlib.Tactic.IntervalCases
import Mathlib.Tactic.Ring

/-!
# The hands of the timer

The hands below a level are the milliseconds since the last tick of this level.  `timer_update`
cascades the levels below `max_idx`; in the others no tick was passed, so that these milliseconds
grow by just the clock step.
-/

namespace CPractice.Timer

variable {hand : ℕ → ℕ}

/-- Each hand is below its limit. -/
def HandsOk (hand : ℕ → ℕ) : Prop := ∀ idx < maxTimerLevel, hand idx < limit idx

/-- The milliseconds that the hands below a level show. -/
def low (hand : ℕ → ℕ) : ℕ → ℕ
  | 0 => 0
  | level + 1 => low hand level + hand level * msLimit level

theorem low_congr {hand hand' : ℕ → ℕ} {level : ℕ} (h : ∀ idx < level, hand idx = hand' idx) :
    low hand level = low hand' level := by
  induction level with
  | zero => rfl
  | succ level ih =>
      rw [low, low, ih fun idx hidx ↦ h idx (Nat.lt_succ_of_lt hidx), h level (Nat.lt_succ_self level)]

theorem msLimit_succ {idx : ℕ} (h : idx + 1 < maxTimerLevel) :
    msLimit (idx + 1) = msLimit idx * limit idx := by
  have hidx : idx < 4 := Nat.lt_of_succ_lt_succ h
  interval_cases idx <;> rfl

theorem msLimit_pos {level : ℕ} (h : level < maxTimerLevel) : 0 < msLimit level := by
  unfold maxTimerLevel at h
  interval_cases level <;> decide

theorem limit_pos {level : ℕ} (h : level < maxTimerLevel) : 0 < limit level := by
  unfold maxTimerLevel at h
  interval_cases level <;> decide

/-- The hands below a level show less than a tick of it. -/
theorem low_lt (h : HandsOk hand) {level : ℕ} (hlevel : level < maxTimerLevel) :
    low hand level < msLimit level := by
  induction level with
  | zero => exact Nat.one_pos
  | succ level ih =>
      have hlow := ih (Nat.lt_of_succ_lt hlevel)
      have hhand := h level (Nat.lt_of_succ_lt hlevel)
      calc low hand (level + 1) = low hand level + hand level * msLimit level := rfl
        _ < msLimit level + hand level * msLimit level := Nat.add_lt_add_right hlow _
        _ = (hand level + 1) * msLimit level := by ring
        _ ≤ limit level * msLimit level := Nat.mul_le_mul_right _ hhand
        _ = msLimit (level + 1) := by rw [msLimit_succ hlevel, Nat.mul_comm]

/-! ## The digits of a clock step -/

theorem incLoop_above (count diff : ℕ) (inc : ℕ → ℕ) {idx : ℕ} (h : count ≤ idx) :
    incLoop count diff inc idx = inc idx := by
  induction count generalizing diff inc with
  | zero => rfl
  | succ count ih =>
      rw [incLoop, ih _ _ (Nat.le_of_succ_le h), Function.update_of_ne (by omega)]

/-- The digits show the clock step. -/
theorem low_incLoop (count diff : ℕ) (inc : ℕ → ℕ) (h : count = 0 → diff = 0) :
    low (incLoop count diff inc) count = diff := by
  induction count generalizing diff inc with
  | zero => exact (h rfl).symm
  | succ count ih =>
      have hrest : count = 0 → diff % msLimit count = 0 := by
        rintro rfl
        exact Nat.mod_one diff
      rw [incLoop, low, ih _ _ hrest, incLoop_above _ _ _ le_rfl, Function.update_self]
      exact Nat.mod_add_div' diff (msLimit count)

/-! ## Turning the hands -/

/-- The second loop of `timer_update` after the levels below `count`. -/
structure Turned (hand inc : ℕ → ℕ) (count : ℕ) (cur left : ℕ → ℕ) (maxIdx : ℕ) : Prop where
  kept : ∀ idx, count ≤ idx → cur idx = hand idx
  bounded : ∀ idx < count, cur idx < limit idx
  rest : ∀ idx, count < idx → left idx = inc idx
  digit : inc count ≤ left count
  sum : count < maxTimerLevel →
    low cur count + left count * msLimit count = low hand count + low inc (count + 1)
  still : ∀ level < count, maxIdx ≤ level →
    low cur level = low hand level + low inc level ∧
      ∀ idx, level ≤ idx → idx < count → inc idx = 0

theorem Turned.start (hand inc : ℕ → ℕ) : Turned hand inc 0 hand inc 0 where
  kept _ _ := rfl
  bounded _ h := absurd h (Nat.not_lt_zero _)
  rest _ _ := rfl
  digit := le_rfl
  sum _ := by simp [low]
  still _ h := absurd h (Nat.not_lt_zero _)

variable {inc cur left : ℕ → ℕ} {count maxIdx : ℕ}

/-- A hand that turns hands its carry on to the next level. -/
theorem Turned.turn (hhand : HandsOk hand) (h : Turned hand inc count cur left maxIdx)
    (hcount : count < maxTimerLevel) :
    Turned hand inc (count + 1) (turnHand (cur, left, maxIdx) count).1
      (turnHand (cur, left, maxIdx) count).2.1 (turnHand (cur, left, maxIdx) count).2.2 := by
  by_cases hzero : left count = 0
  · -- the level is passed over: no hand at or above it moves
    have hstate : turnHand (cur, left, maxIdx) count = (cur, left, maxIdx) := by
      simp [turnHand, hzero]
    have hinc : inc count = 0 := Nat.le_zero.mp (hzero ▸ h.digit)
    have hsum : low cur count = low hand count + low inc count := by
      have hlow := h.sum hcount
      simp only [hzero, low, hinc, Nat.zero_mul, Nat.add_zero] at hlow
      exact hlow
    have hcur : cur count = hand count := h.kept count le_rfl
    rw [hstate]
    dsimp only
    refine ⟨fun idx hidx ↦ h.kept idx (by omega), ?_, fun idx hidx ↦ h.rest idx (by omega), ?_,
      ?_, ?_⟩
    · intro idx hidx
      rcases Nat.lt_succ_iff_lt_or_eq.mp hidx with hlt | rfl
      · exact h.bounded idx hlt
      · exact hcur.trans_lt (hhand idx hcount)
    · exact (h.rest (count + 1) (Nat.lt_succ_self count)).ge
    · intro _
      have hnext : left (count + 1) = inc (count + 1) := h.rest _ (Nat.lt_succ_self count)
      simp only [low, hsum, hcur, hnext, hinc]
      omega
    · intro level hlevel hmax
      rcases Nat.lt_succ_iff_lt_or_eq.mp hlevel with hlt | rfl
      · rcases h.still level hlt hmax with ⟨hlow, hnone⟩
        refine ⟨hlow, fun idx hidx hidx' ↦ ?_⟩
        rcases Nat.lt_succ_iff_lt_or_eq.mp hidx' with hlt' | rfl
        · exact hnone idx hidx hlt'
        · exact hinc
      · refine ⟨hsum, fun idx hidx hidx' ↦ ?_⟩
        rw [show idx = level by omega]
        exact hinc
  · have hstate : turnHand (cur, left, maxIdx) count =
        (Function.update cur count ((cur count + left count) % limit count),
          Function.update left (count + 1)
            (left (count + 1) + (cur count + left count) / limit count), count + 1) := by
      simp [turnHand, hzero]
    have hbelow : low (Function.update cur count ((cur count + left count) % limit count)) count =
        low cur count :=
      low_congr fun idx hidx ↦ Function.update_of_ne (Nat.ne_of_lt hidx) _ _
    rw [hstate]
    dsimp only
    refine ⟨?_, ?_, ?_, ?_, ?_, fun level hlevel hmax ↦
      absurd hlevel (Nat.not_lt.mpr hmax)⟩
    · intro idx hidx
      rw [Function.update_of_ne (by omega)]
      exact h.kept idx (by omega)
    · intro idx hidx
      rcases Nat.lt_succ_iff_lt_or_eq.mp hidx with hlt | rfl
      · rw [Function.update_of_ne (by omega)]
        exact h.bounded idx hlt
      · rw [Function.update_self]
        exact Nat.mod_lt _ (limit_pos hcount)
    · intro idx hidx
      rw [Function.update_of_ne (by omega)]
      exact h.rest idx (by omega)
    · rw [Function.update_self, h.rest _ (Nat.lt_succ_self count)]
      exact Nat.le_add_right _ _
    · intro hnextCount
      have hnext : left (count + 1) = inc (count + 1) := h.rest _ (Nat.lt_succ_self count)
      have hlow := h.sum hcount
      have hcur : cur count = hand count := h.kept count le_rfl
      rw [low, low, low, hbelow, Function.update_self, Function.update_self, hnext, ← hcur]
      have hdiv := Nat.mod_add_div (cur count + left count) (limit count)
      calc low cur count + (cur count + left count) % limit count * msLimit count +
            (inc (count + 1) + (cur count + left count) / limit count) * msLimit (count + 1)
          = low cur count + ((cur count + left count) % limit count +
              limit count * ((cur count + left count) / limit count)) * msLimit count +
              inc (count + 1) * msLimit (count + 1) := by
            rw [msLimit_succ hnextCount]
            ring
        _ = (low cur count + left count * msLimit count) + cur count * msLimit count +
              inc (count + 1) * msLimit (count + 1) := by
            rw [hdiv]
            ring
        _ = low hand count + cur count * msLimit count +
              (low inc (count + 1) + inc (count + 1) * msLimit (count + 1)) := by
            rw [hlow]
            ring

/-- What holds at the first hand and is kept by each turn holds of the second loop of
`timer_update`. -/
theorem turnHands_rule (Stage : ℕ → (ℕ → ℕ) × (ℕ → ℕ) × ℕ → Prop) (hand : ℕ → ℕ) (diff : ℕ)
    (hstart : Stage 0 (hand, incLoop maxTimerLevel diff fun _ ↦ 0, 0))
    (hturn : ∀ count < maxTimerLevel, ∀ state, Stage count state →
      Stage (count + 1) (turnHand state count)) : Stage maxTimerLevel (turnHands hand diff) := by
  have hstage : ∀ count ≤ maxTimerLevel, Stage count
      ((List.range count).foldl turnHand (hand, incLoop maxTimerLevel diff fun _ ↦ 0, 0)) := by
    intro count hcount
    induction count with
    | zero => exact hstart
    | succ count ih =>
        rw [List.range_succ, List.foldl_append]
        exact hturn count hcount _ (ih (Nat.le_of_succ_le hcount))
  exact hstage maxTimerLevel le_rfl

theorem turnHands_turned (hhand : HandsOk hand) (diff : ℕ) :
    Turned hand (incLoop maxTimerLevel diff fun _ ↦ 0) maxTimerLevel (turnHands hand diff).1
      (turnHands hand diff).2.1 (turnHands hand diff).2.2 :=
  turnHands_rule
    (fun count state ↦ Turned hand (incLoop maxTimerLevel diff fun _ ↦ 0) count state.1 state.2.1
      state.2.2)
    hand diff (Turned.start _ _) fun _ hcount _ h ↦ h.turn hhand hcount

theorem low_of_zero {level count : ℕ} (hle : level ≤ count)
    (hzero : ∀ idx, level ≤ idx → idx < count → inc idx = 0) : low inc count = low inc level := by
  induction count with
  | zero => rw [Nat.le_zero.mp hle]
  | succ count ih =>
      rcases Nat.of_le_succ hle with hle' | rfl
      · rw [low, ih hle' fun idx hidx hlt ↦ hzero idx hidx (Nat.lt_succ_of_lt hlt),
          hzero count hle' (Nat.lt_succ_self count), Nat.zero_mul, Nat.add_zero]
      · rfl

/-- The hands are within their limits again. -/
theorem turnHands_ok (hhand : HandsOk hand) (diff : ℕ) : HandsOk (turnHands hand diff).1 :=
  (turnHands_turned hhand diff).bounded

/-- In a level that is not cascaded no tick is passed. -/
theorem turnHands_still (hhand : HandsOk hand) (diff : ℕ) {level : ℕ}
    (hlevel : level < maxTimerLevel) (hmax : (turnHands hand diff).2.2 ≤ level) :
    low (turnHands hand diff).1 level = low hand level + diff := by
  rcases (turnHands_turned hhand diff).still level hlevel hmax with ⟨hlow, hzero⟩
  have hdiff := low_incLoop maxTimerLevel diff (fun _ ↦ 0) nofun
  rw [low_of_zero hlevel.le hzero] at hdiff
  rw [hlow, hdiff]

end CPractice.Timer
