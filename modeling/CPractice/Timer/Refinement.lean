import CPractice.Timer.Firing

/-!
# Timers over whole runs

The abstract object is the time, the clock and the live timers.  A loop whose clock step is accepted
runs just the live timers that are due, and moves the clock.
-/

namespace CPractice.Timer

open Lib

variable {t : LiskTimer} {usec room : ℕ}

/-! ## Calls -/

/-- Calls; `tick` is `lisk_time_update`, which sets `g_cur_lisk_time`. -/
inductive Call where
  | tick (usec : ℕ)
  | add (key : TimerKey) (alloc : Option ℕ)
  | del (id : ℕ)
  | loop (script : List Callback)

inductive Ret where
  | done
  | added (ret : ℤ) (id : ℕ)
  | code (ret : ℤ)
  | looped (ret : ℤ) (runs : Option (List Run))
  deriving DecidableEq

def callExec (t : LiskTimer) : Call → Option (Ret × LiskTimer)
  | .tick usec => some (.done, { t with time := usec })
  | .add key alloc => (timerAdd t key alloc).map fun out ↦ (.added out.1.1 out.1.2, out.2)
  | .del id => (timerDel t id).map fun out ↦ (.code out.1, out.2)
  | .loop script => (timerLoop t script).map fun out ↦ (.looped out.1.1 out.1.2, out.2)

/-- What the environment promises: the time does not go back, allocations are fresh, deleted timers
are live, and an accepted clock step is below `2 ^ 32` milliseconds. -/
def callOk (t : LiskTimer) : Call → Prop
  | .tick usec => t.time ≤ usec ∧ usec < 9223372036854775808
  | .add _ alloc => Fresh t alloc
  | .del id => t.Linked id
  | .loop script =>
      (minimumDiff ≤ u4 (ptrOffset (t.time / 1000) t.clock) →
        ptrOffset (t.time / 1000) t.clock < 4294967296) ∧
      ∀ out ∈ timerUpdate t, out.1 = 0 → loopOk ((out.2.list 0).length + 1) none script out.2

/-- The timer from `timer_init` at a time on. -/
def machine (usec room : ℕ) : Machine LiskTimer Call Ret where
  init t := t = timerInit usec room
  ok := callOk
  exec := callExec

/-! ## The abstract object -/

structure Schedule where
  time : ℕ
  clock : ℕ
  live : ℕ → Option TimerNode

def scheduleStep (a : Schedule) : Call → Ret → Schedule
  | .tick usec, _ => { a with time := usec }
  | .add key _, .added ret id => { a with live := afterAdd a.clock a.live ⟨key, ret, id⟩ }
  | .del id, _ => { a with live := Function.update a.live id none }
  | .loop _, .looped _ (some runs) =>
      { a with clock := a.time / 1000, live := runs.foldl (afterRun (a.time / 1000)) a.live }
  | _, _ => a

/-- What a call returns. -/
def schedulePost (a : Schedule) : Call → Ret → Prop
  | .tick _, r => r = .done
  | .add key _, r => ∃ ret id, r = .added ret id ∧ AddOk a.live ⟨key, ret, id⟩
  | .del _, r => r = .code 0
  | .loop _, r => (∃ ret, r = .looped ret none) ∨
      ∃ runs, r = .looped 0 (some runs) ∧ Fires (a.time / 1000) a.live runs

/-- The time, the clock and the live timers after a run. -/
def scheduleAt (usec : ℕ) (log : List (Call × Ret)) : Schedule :=
  Machine.replay scheduleStep ⟨usec, usec / 1000, fun _ ↦ none⟩ log

structure Related (t : LiskTimer) (a : Schedule) : Prop where
  time : t.time = a.time
  clock : t.clock = a.clock
  clock_le : a.clock ≤ a.time / 1000
  good : Good t
  lives : Lives t a.live
  proper : Proper a.live

theorem related_init (usec room : ℕ) :
    Related (timerInit usec room) ⟨usec, usec / 1000, fun _ ↦ none⟩ where
  time := rfl
  clock := rfl
  clock_le := le_rfl
  good := by
    refine ⟨⟨fun _ _ ↦ rfl, fun _ ↦ List.nodup_nil, ?_, fun _ ↦ List.Pairwise.nil, ?_,
      List.nodup_nil, ?_⟩, fun idx hidx ↦ limit_pos hidx, ?_⟩
    all_goals simp [timerInit, Settled]
  lives := by simp [Lives, LiskTimer.Linked, timerInit]
  proper := by simp [Proper]

/-! ## One call -/

variable {a : Schedule}

/-- A clock step is accepted if it is long enough. -/
theorem minimumDiff_le_of_accepted (h : (timerUpdate t).map Prod.fst = some 0) :
    minimumDiff ≤ u4 (ptrOffset (t.time / 1000) t.clock) := by
  by_contra hlt
  rw [timerUpdate] at h
  simp only [if_pos (Nat.not_le.mp hlt), Option.map_some, Option.some_inj] at h
  cases h

theorem timerUpdate_refused (h : ¬ minimumDiff ≤ u4 (ptrOffset (t.time / 1000) t.clock)) :
    timerUpdate t = some (-2, t) := by
  rw [timerUpdate]
  exact if_pos (Nat.not_le.mp h)

theorem Related.timerUpdate (h : Related t a) {script : List Callback}
    (hok : callOk t (.loop script))
    (haccepted : minimumDiff ≤ u4 (ptrOffset (t.time / 1000) t.clock)) :
    ∃ t₁, timerUpdate t = some (0, t₁) ∧ Good t₁ ∧ Lives t₁ a.live ∧ t₁.clock = a.time / 1000 ∧
      t₁.time = a.time := by
  have hle : t.clock ≤ t.time / 1000 := by
    rw [h.clock, h.time]
    exact h.clock_le
  have hoffset : ptrOffset (t.time / 1000) t.clock = t.time / 1000 - t.clock :=
    if_neg (Nat.not_lt.mpr hle)
  have hdiff := hok.1 haccepted
  rw [u4_of_lt hdiff] at haccepted
  rw [hoffset] at hdiff haccepted
  rcases timerUpdate_accepted h.good h.lives hle hdiff haccepted with
    ⟨t₁, hupdate, hgood, hlives, hclock, htime, -⟩
  exact ⟨t₁, hupdate, hgood, hlives, hclock.trans (by rw [h.time]), htime.trans h.time⟩

theorem timerLoop_accepted (h : Related t a) {script : List Callback}
    (hok : callOk t (.loop script)) (hclock : t.clock ≠ 0)
    (haccepted : minimumDiff ≤ u4 (ptrOffset (t.time / 1000) t.clock)) :
    ∃ runs t', callExec t (.loop script) = some (.looped 0 (some runs), t') ∧
      Fires (a.time / 1000) a.live runs ∧
      Related t' (scheduleStep a (.loop script) (.looped 0 (some runs))) ∧
      ∀ id content, (scheduleStep a (.loop script) (.looped 0 (some runs))).live id = some content →
        a.time / 1000 < content.trig := by
  rcases h.timerUpdate hok haccepted with ⟨t₁, hupdate, hgood, hlives, hclock₁, htime₁⟩
  have hturns : (dueNodes t₁).length < (t₁.list 0).length + 1 :=
    Nat.lt_succ_of_le (List.length_filter_le _ _)
  rcases loopFrom_spec hgood hlives h.proper (hok.2 _ hupdate rfl) hturns with
    ⟨runs, t', hloop, hfires, hgood', hlives', hproper', hclock', htime', hnone⟩
  rw [hclock₁] at hfires hlives' hproper' hnone
  refine ⟨runs, t', ?_, hfires, ⟨htime'.trans htime₁, hclock'.trans hclock₁, le_rfl, hgood', hlives',
    hproper'⟩, hnone⟩
  simp only [callExec, timerLoop, if_neg hclock, hupdate, Option.bind_eq_bind, Option.bind_some,
    hloop]
  rfl

theorem call_simulates (usec room : ℕ) :
    Machine.Simulates (machine usec room) scheduleStep schedulePost Related := by
  intro t a call h hok
  cases call with
  | tick usec' =>
      have hle : a.time ≤ usec' := h.time ▸ hok.1
      refine ⟨.done, { t with time := usec' }, rfl, rfl, rfl, h.clock, ?_,
        ⟨⟨h.good.inv.levels, h.good.inv.nodup, h.good.inv.apart, h.good.inv.ordered,
          h.good.inv.nodes, h.good.inv.ring_nodup, h.good.inv.ring_nodes⟩, h.good.hands,
          h.good.settled⟩, h.lives, h.proper⟩
      exact h.clock_le.trans (Nat.div_le_div_right hle)
  | add key alloc =>
      rcases timerAdd_spec h.good h.lives hok key with
        ⟨ret, id, t', hadd, haddOk, hgood, hlives, hclock, htime⟩
      rw [h.clock] at hlives
      refine ⟨.added ret id, t', ?_, ⟨ret, id, rfl, haddOk⟩, htime.trans h.time,
        hclock.trans h.clock, h.clock_le, hgood, hlives, ?_⟩
      · simp only [machine, callExec, hadd, Option.map_some]
      · intro cur content hlive
        rcases (haddOk.grows a.clock).later cur content hlive with hlive | ⟨-, hexpire⟩
        · exact h.proper cur content hlive
        · exact hexpire
  | del id =>
      rcases timerDelNode_spec h.good h.lives hok with ⟨t', hdel, hgood, hlives, hclock, htime⟩
      have hid : id ≠ 0 := by
        obtain ⟨level, -, hmem⟩ := hok
        exact (h.good.inv.nodes level id hmem).2
      refine ⟨.code 0, t', ?_, rfl, htime.trans h.time, hclock.trans h.clock, h.clock_le, hgood,
        hlives, ?_⟩
      · simp only [machine, callExec, timerDel, if_neg hid, hdel, Option.map_some]
      · intro cur content hlive
        by_cases heq : cur = id
        · simp [scheduleStep, heq] at hlive
        · simp only [scheduleStep, Function.update_of_ne heq] at hlive
          exact h.proper cur content hlive
  | loop script =>
      by_cases hclock : t.clock = 0
      · refine ⟨.looped (-1) none, t, ?_, .inl ⟨-1, rfl⟩, h⟩
        simp only [machine, callExec, timerLoop, if_pos hclock, Option.map_some]
      · by_cases haccepted : minimumDiff ≤ u4 (ptrOffset (t.time / 1000) t.clock)
        · rcases timerLoop_accepted h hok hclock haccepted with ⟨runs, t', hexec, hfires, hrel, -⟩
          exact ⟨_, t', hexec, .inr ⟨runs, rfl, hfires⟩, hrel⟩
        · refine ⟨.looped 0 none, t, ?_, .inl ⟨0, rfl⟩, h⟩
          simp only [machine, callExec, timerLoop, if_neg hclock, timerUpdate_refused haccepted,
            Option.bind_eq_bind, Option.bind_some]
          rfl

/-! ## After a loop -/

/-- No callback added a timer under this id. -/
def NotReused (runs : List Run) (id : ℕ) : Prop :=
  ∀ run ∈ runs, ∀ added ∈ run.adds, added.ret = 0 → added.id ≠ id

theorem foldl_afterAdd_other {clock id : ℕ} {adds : List Added} (live : ℕ → Option TimerNode)
    (h : ∀ added ∈ adds, added.ret = 0 → added.id ≠ id) :
    adds.foldl (afterAdd clock) live id = live id := by
  induction adds generalizing live with
  | nil => rfl
  | cons added adds ih =>
      rcases List.forall_mem_cons.mp h with ⟨hadded, hrest⟩
      rw [List.foldl_cons, ih _ hrest, afterAdd]
      split
      · next hret => exact Function.update_of_ne (hadded hret).symm _ _
      · rfl

theorem foldl_afterRun_other {clock id : ℕ} {runs : List Run} (live : ℕ → Option TimerNode)
    (hid : id ∉ runs.map Run.id) (hreused : NotReused runs id) :
    runs.foldl (afterRun clock) live id = live id := by
  induction runs generalizing live with
  | nil => rfl
  | cons run runs ih =>
      rw [List.map_cons, List.mem_cons, not_or] at hid
      rcases List.forall_mem_cons.mp hreused with ⟨hrun, hrest⟩
      rw [List.foldl_cons, ih _ hid.2 hrest, afterRun, Function.update_of_ne hid.1,
        foldl_afterAdd_other live hrun]

/-- A timer that was run is gone if it was its last run, else due again after its period. -/
theorem foldl_afterRun_run {clock : ℕ} {runs : List Run} {run : Run}
    (live : ℕ → Option TimerNode) (honce : (runs.map Run.id).Nodup) (hrun : run ∈ runs)
    (hreused : NotReused runs run.id) :
    runs.foldl (afterRun clock) live run.id =
      if run.Last then none else some { run.node with trig := clock + run.node.expire } := by
  rcases List.append_of_mem hrun with ⟨before, behind, rfl⟩
  rw [List.map_append, List.map_cons] at honce
  have hnot := (List.nodup_cons.mp (List.nodup_append.mp honce).2.1).1
  have hbehind : NotReused behind run.id := fun later hlater ↦
    hreused later (List.mem_append_right _ (List.mem_cons_of_mem _ hlater))
  rw [List.foldl_append, List.foldl_cons, foldl_afterRun_other _ hnot hbehind, afterRun,
    Function.update_self]

/-- In every run from `timer_init` on, a loop whose clock step is accepted runs just the live timers
that are due, each once and in the order of their times; it leaves no due timer in any list; and a
timer that was run is gone if it was its last run, and else due again after its period. -/
theorem timers_fire_when_due {log : List (Call × Ret)} (htrace : (machine usec room).Trace t log)
    {script : List Callback} (hok : callOk t (.loop script)) (hclock : t.clock ≠ 0)
    (haccepted : (timerUpdate t).map Prod.fst = some 0) :
    ∃ runs t', callExec t (.loop script) = some (.looped 0 (some runs), t') ∧
      Fires (t.time / 1000) (scheduleAt usec log).live runs ∧
      t'.clock = t.time / 1000 ∧
      (∀ level, ∀ id ∈ t'.list level, ∀ content, t'.node id = some content →
        t.time / 1000 < content.trig) ∧
      ∀ run ∈ runs, NotReused runs run.id →
        (scheduleAt usec (log ++ [(.loop script, .looped 0 (some runs))])).live run.id =
          if run.Last then none
          else some { run.node with trig := t.time / 1000 + run.node.expire } := by
  have hrel : Related t (scheduleAt usec log) :=
    htrace.related _ (fun s hs ↦ hs ▸ related_init usec room) (call_simulates usec room)
  rcases timerLoop_accepted hrel hok hclock (minimumDiff_le_of_accepted haccepted) with
    ⟨runs, t', hexec, hfires, hrel', hnone⟩
  rw [← hrel.time] at hfires hnone
  refine ⟨runs, t', hexec, hfires, ?_, ?_, ?_⟩
  · rw [hrel'.clock, hrel.time]
    rfl
  · intro level id hmem content hnode
    have hlinked := hrel'.good.inv.linked hmem
    exact hnone id content ((hrel'.lives id content).mpr ⟨hlinked, hnode⟩)
  · intro run hrun hreused
    rw [scheduleAt, Machine.replay_append_singleton, hrel.time]
    exact foldl_afterRun_run _ hfires.once hrun hreused

instance decidableAddsOk : (t : LiskTimer) → (adds : List (TimerKey × Option ℕ)) →
    Decidable (addsOk t adds)
  | _, [] => isTrue trivial
  | t, (key, alloc) :: rest =>
      have (out : (ℤ × ℕ) × LiskTimer) : Decidable (addsOk out.2 rest) :=
        decidableAddsOk out.2 rest
      inferInstanceAs (Decidable ((∀ id ∈ alloc, id ≠ 0 ∧ t.node id = none) ∧
        ∀ out ∈ timerAdd t key alloc, addsOk out.2 rest))

instance decidableLoopOk : (turns : ℕ) → (prev : Option ℕ) → (script : List Callback) →
    (t : LiskTimer) → Decidable (loopOk turns prev script t)
  | 0, _, _, _ => isTrue trivial
  | turns + 1, prev, script, t =>
      have (prev : Option ℕ) (out : Run × LiskTimer) :
          Decidable (loopOk turns prev script.tail out.2) :=
        decidableLoopOk turns prev script.tail out.2
      inferInstanceAs (Decidable (∀ id ∈ nextElem (t.list 0) prev, ∀ content ∈ t.node id,
        content.trig ≤ t.clock → addsOk t (script.headD idleCallback).adds ∧
          ∀ out ∈ runNode t id content (script.headD idleCallback),
            loopOk turns (prevElem (t.list 0) id) script.tail out.2))

instance (t : LiskTimer) : (call : Call) → Decidable (callOk t call)
  | .tick usec => inferInstanceAs (Decidable (t.time ≤ usec ∧ usec < 9223372036854775808))
  | .add _ alloc => inferInstanceAs (Decidable (∀ id ∈ alloc, id ≠ 0 ∧ t.node id = none))
  | .del id => inferInstanceAs (Decidable (t.Linked id))
  | .loop script => inferInstanceAs (Decidable (
      (minimumDiff ≤ u4 (ptrOffset (t.time / 1000) t.clock) →
        ptrOffset (t.time / 1000) t.clock < 4294967296) ∧
      ∀ out ∈ timerUpdate t, out.1 = 0 → loopOk ((out.2.list 0).length + 1) none script out.2))

instance (usec room : ℕ) (t : LiskTimer) (call : Call) : Decidable ((machine usec room).ok t call) :=
  inferInstanceAs (Decidable (callOk t call))

/-- A timer that runs once after 0.5 s and one with a period of 2 s, 2.5 s later. -/
def smallCalls : List Call :=
  [.add ⟨1, 500, 0, 7⟩ (some 100), .add ⟨2, 2000, 0, 7⟩ (some 200), .tick 3500000]

theorem smallCalls_run : ((machine 1000000 4).execAll (timerInit 1000000 4) smallCalls).isSome := by
  decide

theorem timers_fire_when_due_small :
    ∃ t log, (machine 1000000 4).Trace t log ∧
      ∃ runs t', callExec t (.loop []) = some (.looped 0 (some runs), t') ∧
        Fires 3500 (scheduleAt 1000000 log).live runs ∧ runs.map Run.id = [100, 200] := by
  have htrace := Machine.trace_execAll (M := machine 1000000 4) rfl (by decide)
    (Option.some_get smallCalls_run).symm
  have hok : callOk (((machine 1000000 4).execAll (timerInit 1000000 4) smallCalls).get
      smallCalls_run).2 (.loop []) := by decide +kernel
  rcases timers_fire_when_due htrace hok (by decide +kernel) (by decide +kernel) with
    ⟨runs, t', hexec, hfires, -⟩
  have hreturned : (callExec (((machine 1000000 4).execAll (timerInit 1000000 4) smallCalls).get
      smallCalls_run).2 (.loop [])).map Prod.fst =
        some (.looped 0 (some [⟨100, ⟨1500, 1, 500, 0, 7⟩, [], 0⟩,
          ⟨200, ⟨3000, 2, 2000, 0, 7⟩, [], 0⟩])) := by decide +kernel
  have hruns : runs = [⟨100, ⟨1500, 1, 500, 0, 7⟩, [], 0⟩, ⟨200, ⟨3000, 2, 2000, 0, 7⟩, [], 0⟩] := by
    rw [hexec] at hreturned
    simpa using hreturned
  exact ⟨_, _, htrace, runs, t', hexec, hfires, congrArg (List.map Run.id) hruns⟩

end CPractice.Timer
