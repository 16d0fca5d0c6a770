import CPractice.Timer.Moves
import CPractice.Timer.Refinement

/-!
# The lists of the timer over whole runs

The calls are those of the interface and `timer_update` on its own, with no bound on the steps of the
clock.  The history of the insertions is a ghost state of the run, and the live timers are read from
its log.
-/

namespace CPractice.Timer

open Lib

variable {t : LiskTimer} {live : ℕ → Option TimerNode} {history : List (ℕ × ℕ)} {usec room : ℕ}

/-! ## Operations -/

inductive Op where
  | call (call : Call)
  | update

def opExec (t : LiskTimer) : Op → Option (Ret × LiskTimer)
  | .call call => callExec t call
  | .update => (timerUpdate t).map fun out ↦ (.code out.1, out.2)

/-- What the environment promises: the time does not go back, allocations are fresh and deleted
timers are live. -/
def opOk (t : LiskTimer) : Op → Prop
  | .call (.tick usec) => t.time ≤ usec ∧ usec < 9223372036854775808
  | .call (.add _ alloc) => Fresh t alloc
  | .call (.del id) => t.Linked id
  | .call (.loop script) =>
      ∀ out ∈ timerUpdate t, out.1 = 0 → loopOk ((out.2.list 0).length + 1) none script out.2
  | .update => True

/-- The insertions of an operation. -/
def opLog (t : LiskTimer) : Op → List (ℕ × ℕ)
  | .call (.tick _) => []
  | .call (.add key alloc) => addLog t key alloc
  | .call (.del _) => []
  | .call (.loop script) =>
      if t.clock = 0 then []
      else updateLog t ++ (timerUpdate t).elim [] fun out ↦
        if out.1 ≠ 0 then [] else loopLog ((out.2.list 0).length + 1) none script out.2
  | .update => updateLog t

/-- The operation makes an accepted step of the clock. -/
def StepsClock (t : LiskTimer) : Op → Prop
  | .update => minimumDiff ≤ clockDiff t
  | .call (.loop _) => t.clock ≠ 0 ∧ minimumDiff ≤ clockDiff t
  | _ => False

def opMachine (usec room : ℕ) : Machine LiskTimer Op Ret where
  init t := t = timerInit usec room
  ok := opOk
  exec := opExec

/-- The timer with the history of its insertions. -/
def historyMachine (usec room : ℕ) : Machine (LiskTimer × List (ℕ × ℕ)) Op Ret :=
  (opMachine usec room).withGhost (fun t op history ↦ history ++ opLog t op) []

def opStep (a : Schedule) : Op → Ret → Schedule
  | .call call, ret => scheduleStep a call ret
  | .update, .code ret => if ret = 0 then { a with clock := a.time / 1000 } else a
  | .update, _ => a

/-- The time, the clock and the live timers after a run. -/
def opsAt (usec : ℕ) (log : List (Op × Ret)) : Schedule :=
  Machine.replay opStep ⟨usec, usec / 1000, fun _ ↦ none⟩ log

/-! ## One operation -/

structure TidyAt (state : LiskTimer × List (ℕ × ℕ)) (a : Schedule) : Prop where
  time : state.1.time = a.time
  clock : state.1.clock = a.clock
  tidy : Tidy state.1 state.2 a.live

theorem tidyAt_init (usec room : ℕ) :
    TidyAt (timerInit usec room, []) ⟨usec, usec / 1000, fun _ ↦ none⟩ where
  time := rfl
  clock := rfl
  tidy := by
    have hrelated := related_init usec room
    refine ⟨hrelated.good.inv, hrelated.lives, hrelated.proper, ?_, fun _ ↦ List.Pairwise.nil⟩
    intro level id hid
    cases hid

/-- The clock and the hands are those of the step if there is one, and else as before. -/
structure ClockAfter (t : LiskTimer) (op : Op) (t' : LiskTimer) : Prop where
  steps : StepsClock t op →
    t'.clock = t.time / 1000 ∧ t'.hand = (turnHands t.hand (clockDiff t)).1
  stays : ¬ StepsClock t op → t'.clock = t.clock ∧ t'.hand = t.hand

variable {a : Schedule}

/-- A loop: the clock step with its cascades, and then the callbacks. -/
theorem timerLoop_tidy (h : TidyAt (t, history) a) {script : List Callback}
    (hok : opOk t (.call (.loop script))) :
    ∃ ret t', opExec t (.call (.loop script)) = some (ret, t') ∧
      TidyAt (t', history ++ opLog t (.call (.loop script))) (scheduleStep a (.loop script) ret) ∧
      ClockAfter t (.call (.loop script)) t' := by
  by_cases hclock : t.clock = 0
  · refine ⟨.looped (-1) none, t, ?_, ?_, fun hsteps ↦ absurd hclock hsteps.1, fun _ ↦ ⟨rfl, rfl⟩⟩
    · simp only [opExec, callExec, timerLoop, if_pos hclock, Option.map_some]
    · rw [opLog, if_pos hclock, List.append_nil]
      exact h
  · obtain ⟨ret, t₁, hupdate, htidy, htime, hstep⟩ := timerUpdate_tidy h.tidy
    have hlog : opLog t (.call (.loop script)) = updateLog t ++
        if ret ≠ 0 then [] else loopLog ((t₁.list 0).length + 1) none script t₁ := by
      rw [opLog, if_neg hclock, hupdate, Option.elim_some]
    have hexec : timerLoop t script = if ret ≠ 0 then some ((0, none), t₁) else
        (loopFrom ((t₁.list 0).length + 1) none script t₁).map fun out ↦ ((0, some out.1), out.2) := by
      simp only [timerLoop, if_neg hclock, hupdate, Option.bind_eq_bind, Option.bind_some,
        Option.map_eq_bind]
      rfl
    rcases hstep with ⟨hsmall, rfl, rfl⟩ | ⟨haccepted, rfl, hclock₁, hhand₁⟩
    · refine ⟨.looped 0 none, t₁, ?_, ⟨h.time, h.clock, ?_⟩,
        fun hsteps ↦ absurd hsmall (Nat.not_lt.mpr hsteps.2), fun _ ↦ ⟨rfl, rfl⟩⟩
      · simp [opExec, callExec, hexec]
      · rw [hlog, if_pos (by decide), List.append_nil]
        exact htidy
    · have hturns : (dueNodes t₁).length < (t₁.list 0).length + 1 :=
        Nat.lt_succ_of_le (List.length_filter_le _ _)
      obtain ⟨runs, t', hloop, htidy', hquiet⟩ :=
        loopFrom_tidy htidy (hok _ hupdate rfl) hturns
      rw [hclock₁, h.time] at htidy'
      refine ⟨.looped 0 (some runs), t', ?_, ⟨?_, ?_, ?_⟩,
        fun _ ↦ ⟨hquiet.clock.trans hclock₁, hquiet.hand.trans hhand₁⟩,
        fun hstays ↦ absurd ⟨hclock, haccepted⟩ hstays⟩
      · simp [opExec, callExec, hexec, hloop]
      · exact (hquiet.time.trans htime).trans h.time
      · rw [hquiet.clock, hclock₁, h.time]
        rfl
      · rw [hlog, if_neg (by simp), ← List.append_assoc]
        exact htidy'

/-- An operation does not fault and keeps the lists tidy. -/
theorem op_tidy (h : TidyAt (t, history) a) {op : Op} (hok : opOk t op) :
    ∃ ret t', opExec t op = some (ret, t') ∧
      TidyAt (t', history ++ opLog t op) (opStep a op ret) ∧ ClockAfter t op t' := by
  cases op with
  | update =>
      obtain ⟨ret, t', hupdate, htidy, htime, hstep⟩ := timerUpdate_tidy h.tidy
      refine ⟨.code ret, t', by rw [opExec, hupdate]; rfl, ?_⟩
      rcases hstep with ⟨hsmall, rfl, rfl⟩ | ⟨haccepted, rfl, hclock, hhand⟩
      · exact ⟨⟨h.time, h.clock, htidy⟩, fun hsteps ↦ absurd hsmall (Nat.not_lt.mpr hsteps),
          fun _ ↦ ⟨rfl, rfl⟩⟩
      · exact ⟨⟨htime.trans h.time, hclock.trans (by rw [h.time]; rfl), htidy⟩,
          fun _ ↦ ⟨hclock, hhand⟩, fun hstays ↦ absurd haccepted hstays⟩
  | call call =>
      cases call with
      | tick usec' =>
          refine ⟨.done, { t with time := usec' }, rfl, ⟨rfl, h.clock, ?_⟩, False.elim,
            fun _ ↦ ⟨rfl, rfl⟩⟩
          rw [opLog, List.append_nil]
          exact h.tidy.set_clock usec' t.clock t.hand
      | add key alloc =>
          obtain ⟨ret, id, t', hadd, -, htidy, hquiet⟩ := timerAdd_tidy h.tidy hok key
          rw [h.clock] at htidy
          exact ⟨.added ret id, t', by rw [opExec, callExec, hadd]; rfl,
            ⟨hquiet.time.trans h.time, hquiet.clock.trans h.clock, htidy⟩, False.elim,
            fun _ ↦ ⟨hquiet.clock, hquiet.hand⟩⟩
      | del id =>
          obtain ⟨t', hdel, htidy, hquiet, -⟩ := timerDelNode_tidy h.tidy hok
          have hid : id ≠ 0 := by
            obtain ⟨level, -, hmem⟩ := hok
            exact (h.tidy.inv.nodes level id hmem).2
          refine ⟨.code 0, t', ?_, ⟨hquiet.time.trans h.time, hquiet.clock.trans h.clock, ?_⟩,
            False.elim, fun _ ↦ ⟨hquiet.clock, hquiet.hand⟩⟩
          · rw [opExec, callExec, timerDel, if_neg hid, hdel]
            rfl
          · rw [opLog, List.append_nil]
            exact htidy
      | loop script => exact timerLoop_tidy h hok

theorem op_simulates (usec room : ℕ) :
    Machine.Simulates (historyMachine usec room) opStep (fun _ _ _ ↦ True) TidyAt := by
  rintro ⟨t, history⟩ a op h hok
  obtain ⟨ret, t', hexec, hrel, -⟩ := op_tidy h hok
  exact ⟨ret, (t', history ++ opLog t op), Option.map_eq_some_iff.mpr ⟨_, hexec, rfl⟩, trivial, hrel⟩

theorem tidy_of_trace {state : LiskTimer × List (ℕ × ℕ)} {log : List (Op × Ret)}
    (htrace : (historyMachine usec room).Trace state log) : TidyAt state (opsAt usec log) := by
  refine htrace.related _ ?_ (op_simulates usec room)
  rintro ⟨t, history⟩ ⟨rfl, rfl⟩
  exact tidyAt_init usec room

/-- In every run of adds, deletes of live timers, loops and clock steps of any size: a live timer is
in exactly one of the five lists, and once in it; every list is sorted by time, and nodes of equal
time stand in the order in which they were last put into the list.  At any reading of the clock and
after any cascades, the cascade of a level from 1 to 4 ends, moves just the nodes with less than a
unit of the level left, each into a lower list, and leaves the others in order. -/
theorem timer_lists_stay_sorted {log : List (Op × Ret)}
    (htrace : (historyMachine usec room).Trace (t, history) log) :
    (∀ id, ((opsAt usec log).live id).isSome → ∃! level, level < maxTimerLevel ∧ id ∈ t.list level) ∧
    (∀ level, (t.list level).Nodup) ∧
    (∀ level, ∀ id ∈ t.list level, ((opsAt usec log).live id).isSome ∧ (level, id) ∈ history) ∧
    (∀ level, StablySorted (trigOf t.node) (fun id ↦ stampOf history (level, id)) (t.list level)) ∧
    ∀ (clock : ℕ) (hand : ℕ → ℕ) (levels : List ℕ), (∀ level ∈ levels, 0 < level) →
      ∃ t₁, levels.foldlM (fun t idx ↦ (timerCascade t idx).map Prod.snd)
          { t with clock := clock, hand := hand } = some t₁ ∧
        ∀ level, 0 < level → level < maxTimerLevel →
          ∃ lists, timerCascade t₁ level = some (0, { t₁ with list := lists }) ∧
            Moves t₁ level lists ∧
            ∀ id ∈ t₁.list level, BelowUnit t₁ level id → ∃ level' < level, id ∈ lists level' := by
  have htidy : Tidy t history (opsAt usec log).live := (tidy_of_trace htrace).tidy
  refine ⟨fun id hlive ↦ ?_, htidy.inv.nodup, fun level id hmem ↦ ?_, htidy.stable, ?_⟩
  · obtain ⟨content, hcontent⟩ := Option.isSome_iff_exists.mp hlive
    obtain ⟨⟨level, hlevel, hmem⟩, -⟩ := (htidy.lives id content).mp hcontent
    refine ⟨level, ⟨hlevel, hmem⟩, ?_⟩
    rintro level' ⟨-, hmem'⟩
    exact htidy.inv.apart level' level id hmem' hmem
  · obtain ⟨content, hnode⟩ := Option.isSome_iff_exists.mp (htidy.inv.nodes level id hmem).1
    have hlive := (htidy.lives id content).mpr ⟨htidy.inv.linked hmem, hnode⟩
    exact ⟨Option.isSome_iff_exists.mpr ⟨content, hlive⟩, htidy.recorded level id hmem⟩
  · intro clock hand levels hlevels
    obtain ⟨lists₁, hfold, htidy₁⟩ := cascades_tidy hlevels (htidy.set_clock t.time clock hand)
    refine ⟨_, hfold, fun level hpos hlevel ↦ ?_⟩
    obtain ⟨lists, hcascade, hmoves, -⟩ := timerCascade_moves hpos hlevel htidy₁
    exact ⟨lists, hcascade, hmoves, fun id hmem hbelow ↦ hmoves.moved hpos hmem hbelow⟩

instance (t : LiskTimer) : (op : Op) → Decidable (opOk t op)
  | .call (.tick usec) => inferInstanceAs (Decidable (t.time ≤ usec ∧ usec < 9223372036854775808))
  | .call (.add _ alloc) => inferInstanceAs (Decidable (∀ id ∈ alloc, id ≠ 0 ∧ t.node id = none))
  | .call (.del id) => inferInstanceAs (Decidable (t.Linked id))
  | .call (.loop script) => inferInstanceAs (Decidable
      (∀ out ∈ timerUpdate t, out.1 = 0 → loopOk ((out.2.list 0).length + 1) none script out.2))
  | .update => inferInstanceAs (Decidable True)

instance (usec room : ℕ) (state : LiskTimer × List (ℕ × ℕ)) (op : Op) :
    Decidable ((historyMachine usec room).ok state op) :=
  inferInstanceAs (Decidable (opOk state.1 op))

/-- Two timers of the same time, and a second that brings them from list 1 to list 0. -/
def equalOps : List Op :=
  [.call (.add ⟨1, 1500, 0, 7⟩ (some 100)), .call (.add ⟨1, 1500, 0, 8⟩ (some 200)),
    .call (.tick 2000000), .update]

theorem equalOps_run :
    ((historyMachine 1000000 4).execAll (timerInit 1000000 4, []) equalOps).isSome := by
  decide +kernel

theorem timer_lists_stay_sorted_equal :
    ∃ t history log, (historyMachine 1000000 4).Trace (t, history) log ∧ t.list 0 = [100, 200] ∧
      history = [(1, 100), (1, 200), (0, 100), (0, 200)] ∧
      StablySorted (trigOf t.node) (fun id ↦ stampOf history (0, id)) (t.list 0) := by
  have htrace := Machine.trace_execAll (M := historyMachine 1000000 4)
    (s := (timerInit 1000000 4, [])) ⟨rfl, rfl⟩ (by decide +kernel)
    (Option.some_get equalOps_run).symm
  exact ⟨_, _, _, htrace, by decide +kernel, by decide +kernel,
    (timer_lists_stay_sorted htrace).2.2.2.1 0⟩

end CPractice.Timer
