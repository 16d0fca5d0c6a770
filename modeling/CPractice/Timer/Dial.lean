import CPractice.Timer.Sorted
import CPractice.Lib.MixedRadix

/-!
# The hands as a mixed radix clock

The hands are the places of the milliseconds passed, with the radices of `limit` and the weights of
`ms_limit`.  The first loop of `timer_update` writes the clock step in these places, and the second
one adds it place by place; a place whose increment is zero has no carry to hand on.
-/

namespace CPractice.Timer

open Lib

variable {t : LiskTimer} {usec room elapsed diff : ℕ} {hand inc cur left : ℕ → ℕ}

/-- The places of the hands. -/
def dial : MixedRadix maxTimerLevel where
  weight := msLimit
  radix := limit
  weight_zero := rfl
  weight_succ _ := msLimit_succ
  radix_pos _ := limit_pos

/-- The hands show a number of milliseconds, the days modulo 31. -/
def Shows (hand : ℕ → ℕ) (elapsed : ℕ) : Prop :=
  ∀ idx < maxTimerLevel, hand idx = elapsed / msLimit idx % limit idx

theorem Shows.handsOk (h : Shows hand elapsed) : HandsOk hand := by
  intro idx hidx
  rw [h idx hidx]
  exact dial.digit_lt elapsed hidx

/-! ## The increments -/

theorem incLoop_top (count diff : ℕ) (inc : ℕ → ℕ) :
    incLoop (count + 1) diff inc count = diff / msLimit count := by
  rw [incLoop, incLoop_above _ _ _ le_rfl, Function.update_self]

/-- Below the highest level the increments are the places of the clock step. -/
theorem incLoop_digit {count idx : ℕ} (diff : ℕ) (inc : ℕ → ℕ) (hidx : idx + 1 < count)
    (hcount : count ≤ maxTimerLevel) : incLoop count diff inc idx = dial.digit diff idx := by
  induction count generalizing diff inc with
  | zero => exact absurd hidx (Nat.not_lt_zero _)
  | succ count ih =>
      have hlt : idx < count := Nat.lt_of_succ_lt_succ hidx
      rw [incLoop]
      rcases Nat.lt_succ_iff_lt_or_eq.mp hidx with hbelow | rfl
      · rw [ih _ _ hbelow (Nat.le_of_succ_le hcount)]
        exact dial.digit_mod diff hlt hcount
      · rw [incLoop_top]
        exact dial.mod_div_weight diff hcount

/-! ## Adding a clock step -/

/-- The second loop of `timer_update` after the levels below `count`. -/
structure Carried (elapsed diff : ℕ) (hand inc : ℕ → ℕ) (count : ℕ) (cur left : ℕ → ℕ) : Prop where
  done : ∀ idx < count, cur idx = dial.digit (elapsed + diff) idx
  kept : ∀ idx, count ≤ idx → cur idx = hand idx
  rest : ∀ idx, count < idx → left idx = inc idx
  carry : count < maxTimerLevel → left count = inc count + dial.carry elapsed diff count

theorem Carried.start (elapsed diff : ℕ) (hand inc : ℕ → ℕ) :
    Carried elapsed diff hand inc 0 hand inc where
  done _ h := absurd h (Nat.not_lt_zero _)
  kept _ _ := rfl
  rest _ _ := rfl
  carry _ := by rw [dial.carry_zero, Nat.add_zero]

/-- A hand below its limit with nothing to add is turned by zero and hands on zero. -/
theorem turnHand_eq (left : ℕ → ℕ) (maxIdx : ℕ) {idx : ℕ} (h : cur idx < limit idx) :
    (turnHand (cur, left, maxIdx) idx).1 =
        Function.update cur idx ((cur idx + left idx) % limit idx) ∧
      (turnHand (cur, left, maxIdx) idx).2.1 =
        Function.update left (idx + 1) (left (idx + 1) + (cur idx + left idx) / limit idx) := by
  by_cases hzero : left idx = 0
  · simp [turnHand, hzero, Nat.mod_eq_of_lt h, Nat.div_eq_of_lt h]
  · simp [turnHand, hzero]

/-- What is left for a hand, and the carry into it, make the place of the sum. -/
theorem digit_of_left {count : ℕ} (hcount : count < maxTimerLevel)
    (hleft : left count = incLoop maxTimerLevel diff (fun _ ↦ 0) count +
      dial.carry elapsed diff count) :
    dial.digit (elapsed + diff) count = (dial.digit elapsed count + left count) % limit count := by
  have hsum := dial.digit_add elapsed diff hcount
  rcases Nat.lt_or_eq_of_le (Nat.succ_le_of_lt hcount) with hnext | hlast
  · rw [incLoop_digit diff _ hnext le_rfl] at hleft
    calc dial.digit (elapsed + diff) count
        = (diff / msLimit count + (dial.digit elapsed count + dial.carry elapsed diff count)) %
            limit count := by
          rw [hsum, Nat.add_right_comm, Nat.add_comm]
          rfl
      _ = (dial.digit diff count +
            (dial.digit elapsed count + dial.carry elapsed diff count)) % limit count :=
          (Nat.mod_add_mod _ _ _).symm
      _ = (dial.digit elapsed count + left count) % limit count := by
          rw [hleft, Nat.add_left_comm]
  · -- the highest increment is the whole quotient, reduced by the last radix only now
    obtain rfl : count = 4 := Nat.succ.inj hlast
    have htop : incLoop maxTimerLevel diff (fun _ ↦ 0) 4 = diff / msLimit 4 := incLoop_top 4 diff _
    rw [hleft, htop, ← Nat.add_assoc]
    exact hsum

theorem Carried.turn {count maxIdx : ℕ} (hshows : Shows hand elapsed)
    (h : Carried elapsed diff hand (incLoop maxTimerLevel diff fun _ ↦ 0) count cur left)
    (hcount : count < maxTimerLevel) :
    Carried elapsed diff hand (incLoop maxTimerLevel diff fun _ ↦ 0) (count + 1)
      (turnHand (cur, left, maxIdx) count).1 (turnHand (cur, left, maxIdx) count).2.1 := by
  have hcur : cur count = dial.digit elapsed count :=
    (h.kept count le_rfl).trans (hshows count hcount)
  have hlt : cur count < limit count := hcur.trans_lt (dial.digit_lt elapsed hcount)
  obtain ⟨hhand, hleft⟩ := turnHand_eq left maxIdx hlt
  rw [hhand, hleft]
  constructor
  · intro idx hidx
    rcases Nat.lt_succ_iff_lt_or_eq.mp hidx with hbelow | rfl
    · rw [Function.update_of_ne (Nat.ne_of_lt hbelow)]
      exact h.done idx hbelow
    · rw [Function.update_self, hcur]
      exact (digit_of_left hcount (h.carry hcount)).symm
  · intro idx hidx
    rw [Function.update_of_ne (Nat.ne_of_gt hidx)]
    exact h.kept idx (Nat.le_of_succ_le hidx)
  · intro idx hidx
    rw [Function.update_of_ne (Nat.ne_of_gt hidx)]
    exact h.rest idx (Nat.lt_of_succ_lt hidx)
  · intro hnext
    rw [Function.update_self, h.rest _ (Nat.lt_succ_self count), hcur, h.carry hcount,
      incLoop_digit diff _ hnext le_rfl, ← Nat.add_assoc]
    exact congrArg _ (dial.carry_succ elapsed diff hnext).symm

theorem turnHands_shows (h : Shows hand elapsed) (diff : ℕ) :
    Shows (turnHands hand diff).1 (elapsed + diff) := by
  have hcarried := turnHands_rule
    (fun count state ↦ Carried elapsed diff hand (incLoop maxTimerLevel diff fun _ ↦ 0) count
      state.1 state.2.1)
    hand diff (Carried.start _ _ _ _) fun _ hcount _ hstage ↦ hstage.turn h hcount
  exact hcarried.done

/-! ## Crossing a unit -/

theorem Shows.low (h : Shows hand elapsed) {level : ℕ} (hlevel : level < maxTimerLevel) :
    Timer.low hand level = elapsed % msLimit level := by
  induction level with
  | zero => exact (Nat.mod_one elapsed).symm
  | succ level ih =>
      rw [Timer.low, ih (Nat.lt_of_succ_lt hlevel), h level (Nat.lt_of_succ_lt hlevel), Nat.mul_comm]
      exact (dial.mod_weight_succ elapsed hlevel).symm

/-- A level that the hands did not reach has passed none of its units. -/
theorem Shows.div_of_still (h : Shows hand elapsed) {level : ℕ} (hlevel : level < maxTimerLevel)
    (hmax : (turnHands hand diff).2.2 ≤ level) :
    (elapsed + diff) / msLimit level = elapsed / msLimit level := by
  refine dial.div_add_of_room elapsed diff hlevel ?_
  calc elapsed % msLimit level + diff
      = Timer.low (turnHands hand diff).1 level := by
        rw [turnHands_still h.handsOk diff hlevel hmax, h.low hlevel]
    _ < msLimit level := low_lt (turnHands_ok h.handsOk diff) hlevel

/-! ## Whole runs -/

instance (t : LiskTimer) : (op : Op) → Decidable (StepsClock t op)
  | .update => inferInstanceAs (Decidable (minimumDiff ≤ clockDiff t))
  | .call (.loop _) => inferInstanceAs (Decidable (t.clock ≠ 0 ∧ minimumDiff ≤ clockDiff t))
  | .call (.tick _) => isFalse id
  | .call (.add _ _) => isFalse id
  | .call (.del _) => isFalse id

/-- The milliseconds from the clock to the time. -/
def behind (t : LiskTimer) : ℕ := t.time / 1000 - t.clock

/-- The timer with the sum of the accepted clock steps, each below 2^32 ms. -/
def dialMachine (usec room : ℕ) : Machine (LiskTimer × ℕ) Op Ret :=
  { (opMachine usec room).withGhost
      (fun t op elapsed ↦ if StepsClock t op then elapsed + behind t else elapsed) 0 with
    ok := fun state op ↦ opOk state.1 op ∧ (StepsClock state.1 op → behind state.1 < 4294967296) }

theorem opOk_time_le {op : Op} {ret : Ret} {a : Schedule} (htime : t.time = a.time) (hok : opOk t op) :
    a.time ≤ (opStep a op ret).time := by
  cases op with
  | update =>
      cases ret with
      | code ret =>
          rw [opStep]
          split <;> exact le_rfl
      | _ => exact le_rfl
  | call call =>
      cases call with
      | tick usec => exact htime ▸ hok.1
      | add key alloc => cases ret <;> exact le_rfl
      | del id => exact le_rfl
      | loop script =>
          cases ret with
          | looped ret runs => cases runs <;> exact le_rfl
          | _ => exact le_rfl

/-- The invariant of the runs. -/
structure DialAt (usec : ℕ) (t : LiskTimer) (elapsed : ℕ) : Prop where
  tidy : ∃ history a, TidyAt (t, history) a
  shows : Shows t.hand elapsed
  clock : t.clock = usec / 1000 + elapsed
  clock_le : t.clock ≤ t.time / 1000

theorem dialAt_init (usec room : ℕ) : DialAt usec (timerInit usec room) 0 where
  tidy := ⟨_, _, tidyAt_init usec room⟩
  shows idx _ := by rw [Nat.zero_div, Nat.zero_mod]; rfl
  clock := rfl
  clock_le := le_rfl

/-- A clock step below 2^32 ms is not cut. -/
theorem DialAt.clockDiff_eq (h : DialAt usec t elapsed) (hbound : behind t < 4294967296) :
    clockDiff t = behind t := by
  rw [clockDiff, ptrOffset, if_neg (Nat.not_lt.mpr h.clock_le)]
  exact u4_of_lt hbound

theorem DialAt.op (h : DialAt usec t elapsed) {op : Op} (hok : opOk t op)
    (hbound : StepsClock t op → behind t < 4294967296) {ret : Ret} {t' : LiskTimer}
    (hexec : opExec t op = some (ret, t')) :
    DialAt usec t' (if StepsClock t op then elapsed + behind t else elapsed) := by
  obtain ⟨history, a, htidy⟩ := h.tidy
  obtain ⟨ret', t'', hexec', htidy', hclock⟩ := op_tidy htidy hok
  obtain ⟨rfl, rfl⟩ : ret' = ret ∧ t'' = t' := by simpa [hexec] using hexec'.symm
  have htime : t.time ≤ t''.time := by
    calc t.time = a.time := htidy.time
      _ ≤ (opStep a op ret').time := opOk_time_le htidy.time hok
      _ = t''.time := htidy'.time.symm
  have hread : t.time / 1000 ≤ t''.time / 1000 := Nat.div_le_div_right htime
  by_cases hsteps : StepsClock t op
  · obtain ⟨hclock', hhand'⟩ := hclock.steps hsteps
    rw [h.clockDiff_eq (hbound hsteps)] at hhand'
    rw [if_pos hsteps]
    refine ⟨⟨_, _, htidy'⟩, ?_, ?_, ?_⟩
    · rw [hhand']
      exact turnHands_shows h.shows (behind t)
    · calc t''.clock = t.clock + behind t := by
            rw [hclock', behind, Nat.add_sub_cancel' h.clock_le]
        _ = usec / 1000 + (elapsed + behind t) := by rw [h.clock, Nat.add_assoc]
    · rw [hclock']
      exact hread
  · obtain ⟨hclock', hhand'⟩ := hclock.stays hsteps
    rw [if_neg hsteps]
    refine ⟨⟨_, _, htidy'⟩, ?_, ?_, ?_⟩
    · rw [hhand']
      exact h.shows
    · rw [hclock']
      exact h.clock
    · rw [hclock']
      exact h.clock_le.trans hread

theorem dialAt_of_trace {log : List (Op × Ret)}
    (htrace : (dialMachine usec room).Trace (t, elapsed) log) : DialAt usec t elapsed := by
  refine htrace.invariant (fun state ↦ DialAt usec state.1 state.2) ?_ ?_
  · rintro ⟨t, elapsed⟩ ⟨rfl, rfl⟩
    exact dialAt_init usec room
  · rintro ⟨t, elapsed⟩ op ret ⟨t', elapsed'⟩ h ⟨hok, hbound⟩ hexec
    obtain ⟨⟨ret', t''⟩, hop, hout⟩ := Option.map_eq_some_iff.mp hexec
    cases hout
    exact h.op hok hbound hop

/-- In every run with accepted clock steps below 2^32 ms the hands are the places of the sum of these
steps, the days modulo 31, and an accepted step cascades every level of which it passes a unit. -/
theorem timer_hands_show_elapsed {log : List (Op × Ret)}
    (htrace : (dialMachine usec room).Trace (t, elapsed) log) :
    t.clock = usec / 1000 + elapsed ∧
    t.hand 0 = elapsed % 1000 ∧
    t.hand 1 = elapsed / 1000 % 60 ∧
    t.hand 2 = elapsed / (60 * 1000) % 60 ∧
    t.hand 3 = elapsed / (60 * 60 * 1000) % 24 ∧
    t.hand 4 = elapsed / (24 * 60 * 60 * 1000) % 31 ∧
    (minimumDiff ≤ clockDiff t → behind t < 4294967296 →
      timerUpdate t = ((cascadedLevels t).foldlM
        (fun t idx ↦ (timerCascade t idx).map Prod.snd) (turned t)).map (fun t' ↦ (0, t')) ∧
      ∀ level, 1 ≤ level → level < maxTimerLevel →
        (elapsed + behind t) / msLimit level ≠ elapsed / msLimit level →
        level ∈ cascadedLevels t) := by
  have h := dialAt_of_trace htrace
  have hfirst : t.hand 0 = elapsed % 1000 := by
    rw [h.shows 0 (by decide)]
    exact congrArg (· % 1000) (Nat.div_one elapsed)
  refine ⟨h.clock, hfirst, h.shows 1 (by decide), h.shows 2 (by decide), h.shows 3 (by decide),
    h.shows 4 (by decide), fun haccepted hbound ↦ ⟨timerUpdate_eq haccepted, ?_⟩⟩
  intro level hpos hlevel hcrossed
  rw [cascadedLevels, h.clockDiff_eq hbound, List.mem_range'_1]
  have hmax : ¬ (turnHands t.hand (behind t)).2.2 ≤ level := fun hmax ↦
    hcrossed (h.shows.div_of_still hlevel hmax)
  omega

instance (usec room : ℕ) (state : LiskTimer × ℕ) (op : Op) :
    Decidable ((dialMachine usec room).ok state op) :=
  inferInstanceAs (Decidable
    (opOk state.1 op ∧ (StepsClock state.1 op → behind state.1 < 4294967296)))

/-- The clock a millisecond before a full hour, and the time ten milliseconds after it. -/
def carryOps : List Op := [.call (.tick 4599999000), .update, .call (.tick 4600010000)]

theorem carryOps_run :
    ((dialMachine 1000000000 4).execAll (timerInit 1000000000 4, 0) carryOps).isSome := by
  decide +kernel

theorem timer_hands_show_elapsed_carry :
    ∃ t elapsed log, (dialMachine 1000000000 4).Trace (t, elapsed) log ∧
      t.hand 1 = 59 ∧ t.hand 2 = 59 ∧ t.hand 3 = 0 ∧ t.hand 2 = elapsed / (60 * 1000) % 60 ∧
      3 ∈ cascadedLevels t := by
  have htrace := Machine.trace_execAll (M := dialMachine 1000000000 4)
    (s := (timerInit 1000000000 4, 0)) ⟨rfl, rfl⟩ (by decide +kernel)
    (Option.some_get carryOps_run).symm
  have hall := timer_hands_show_elapsed htrace
  exact ⟨_, _, _, htrace, by decide +kernel, by decide +kernel, by decide +kernel,
    hall.2.2.2.1, (hall.2.2.2.2.2.2 (by decide +kernel) (by decide +kernel)).2 3 (by decide)
      (by decide) (by decide +kernel)⟩

end CPractice.Timer
