import CPractice.Scheduler.Steps

/-!
# Runs of the scheduler

What the log of a run says of one slot of the array is the life of a coroutine: created, entered, left and
entered again until its function ends, and then the slot is free for another.  Whatever the other coroutines
write to the stack meanwhile, one that is resumed finds there what it had when it yielded.
-/

namespace CPractice.Scheduler

open Lib

variable {φ : Type} {s s' : State φ} {log : List (Call φ × Result)}

/-! ## Two coroutines -/

/-- A schedule just opened. -/
def pairStart : State ℕ := ⟨coroutineOpen fun _ ↦ 0, none⟩

/-- Two coroutines are created; the first runs and writes to the top of the stack. -/
def pairCalls : List (Call ℕ) :=
  [.new 7, .new 8, .resume 0, .write fun k ↦ if k = 1048575 then 5 else 0]

theorem pairStart_init : (machine ℕ).init pairStart := ⟨_, rfl⟩

theorem pairCalls_run : ((machine ℕ).execAll pairStart pairCalls).isSome := by
  with_unfolding_all decide

theorem pairCalls_ok : (machine ℕ).AllOk pairStart pairCalls := by with_unfolding_all decide

def pairState : State ℕ := (((machine ℕ).execAll pairStart pairCalls).get pairCalls_run).2

theorem pair_trace :
    (machine ℕ).Trace pairState (((machine ℕ).execAll pairStart pairCalls).get pairCalls_run).1 :=
  Machine.trace_execAll pairStart_init pairCalls_ok (Option.some_get _).symm

/-- A call faults exactly if the caller breaks a rule, in every state that can be reached. -/
theorem faults_iff (htrace : (machine φ).Trace s log) {call : Call φ} (hok : (machine φ).ok s call) :
    exec s call = none ↔ Faulty s call := by
  rcases (inv_trace htrace).exec_cases hok with ⟨hfaulty, hnone⟩ | ⟨hsound, r, s', hsome, -⟩
  · exact iff_of_true hnone hfaulty
  · rw [hsome]
    exact iff_of_false (by simp) hsound

/-- A coroutine must not resume another. -/
theorem faults_iff_pair : exec pairState (.resume 1) = none ↔ Faulty pairState (.resume 1) :=
  faults_iff pair_trace trivial

/-! ## The life of a coroutine -/

/-- The coroutine of a slot: its function and its status. -/
def stageOf (s : State φ) (id : ℤ) : Option (φ × Status) :=
  (look s.sched id).map fun C ↦ (C.func, C.status)

/-- `coroutine_status` of a stage. -/
def stageStatus : Option (φ × Status) → Status
  | none => .dead
  | some stage => stage.2

/-- What a call that concerns the slot may do to the coroutine in it. -/
def lifeStep (stage : Option (φ × Status)) : Call φ × Result → Option (Option (φ × Status))
  | (.new func, _) => if stage.isNone then some (some (func, .ready)) else none
  | (_, .entered _) => match stage with
      | some (func, .ready) | some (func, .suspend) => some (some (func, .running))
      | _ => none
  | (_, .absent _) => if stage.isNone then some none else none
  | (_, .left _) => match stage with
      | some (func, .running) => some (some (func, .suspend))
      | _ => none
  | (_, .ended _) => match stage with
      | some (_, .running) => some none
      | _ => none
  | (_, .status status) => if status = stageStatus stage then some stage else none
  | _ => some stage

/-- The slot that a call concerns. -/
def subject : Call φ × Result → Option ℤ
  | (_, .created id) | (_, .entered id) | (_, .absent id) | (_, .left id) | (_, .ended id) => some id
  | (.status id, _) => some id
  | _ => none

/-- What a call does to the coroutine of the slot `id`. -/
def slotStep (id : ℤ) (stage : Option (φ × Status)) (entry : Call φ × Result) :
    Option (Option (φ × Status)) :=
  if subject entry = some id then lifeStep stage entry else some stage

/-- The life of the coroutines of a slot in a run; `none` is a call that does not fit. -/
def life (id : ℤ) (log : List (Call φ × Result)) : Option (Option (φ × Status)) :=
  log.foldlM (slotStep id) none

theorem life_append (id : ℤ) (log : List (Call φ × Result)) (entry : Call φ × Result) :
    life id (log ++ [entry]) = (life id log).bind fun stage ↦ slotStep id stage entry := by
  rw [life, life, List.foldlM_append]
  simp

theorem slotStep_other {id i : ℤ} {stage : Option (φ × Status)} {entry : Call φ × Result}
    (hsubject : subject entry = some i) (hi : id ≠ i) : slotStep id stage entry = some stage := by
  rw [slotStep, hsubject, if_neg fun heq ↦ hi (Option.some.inj heq).symm]

theorem slotStep_self {id : ℤ} {stage : Option (φ × Status)} {entry : Call φ × Result}
    (hsubject : subject entry = some id) : slotStep id stage entry = lifeStep stage entry := by
  rw [slotStep, if_pos hsubject]

theorem stageOf_stored {S' : Schedule φ} {id i : ℤ} {C : Option (Coroutine φ)} {here : Option ℤ}
    (hstored : Stored s.sched S' id C) :
    stageOf ⟨S', here⟩ i = if i = id then C.map fun C ↦ (C.func, C.status) else stageOf s i := by
  rw [stageOf, stageOf, hstored.look_eq]
  split <;> rfl

/-- A step that stores to one slot is a step of the life of its coroutine, and of no other. -/
theorem slotStep_stored {S' : Schedule φ} {id i : ℤ} {C : Option (Coroutine φ)} {here : Option ℤ}
    {entry : Call φ × Result} (hstored : Stored s.sched S' i C) (hsubject : subject entry = some i)
    (hlife : lifeStep (stageOf s i) entry = some (C.map fun C ↦ (C.func, C.status))) :
    slotStep id (stageOf s id) entry = some (stageOf ⟨S', here⟩ id) := by
  rw [stageOf_stored hstored]
  by_cases hid : id = i
  · rw [if_pos hid, hid, slotStep_self hsubject, hlife]
  · rw [if_neg hid, slotStep_other hsubject hid]

theorem stageOf_some {id : ℤ} {C : Coroutine φ} (hlook : look s.sched id = some C) :
    stageOf s id = some (C.func, C.status) := by
  rw [stageOf, hlook]
  rfl

theorem stageOf_none {id : ℤ} (hlook : look s.sched id = none) : stageOf s id = none := by
  rw [stageOf, hlook]
  rfl

theorem Step.life (h : Inv s) {call : Call φ} {r : Result} (hstep : Step s call r s') (id : ℤ) :
    slotStep id (stageOf s id) (call, r) = some (stageOf s' id) := by
  cases hstep with
  | new func i S' _ hnone hstored _ =>
      apply slotStep_stored hstored rfl
      rw [stageOf_none hnone]
      rfl
  | start i C S' _ hlook hstatus hstored _ =>
      apply slotStep_stored hstored rfl
      rw [stageOf_some hlook, hstatus]
      rfl
  | proceed i C S' _ hlook hstatus hstored _ _ =>
      apply slotStep_stored hstored rfl
      rw [stageOf_some hlook, hstatus]
      rfl
  | yield frame depth i C S' hhere hlook _ hstored _ =>
      apply slotStep_stored hstored rfl
      rw [stageOf_some hlook, (h.valid i C hlook).running_iff.mpr hhere]
      rfl
  | finish i C S' hhere hlook hstored _ =>
      apply slotStep_stored hstored rfl
      rw [stageOf_some hlook, (h.valid i C hlook).running_iff.mpr hhere]
      rfl
  | absent i _ hnone =>
      by_cases hid : id = i
      · rw [hid, slotStep_self rfl, stageOf_none hnone]
        rfl
      · exact slotStep_other rfl hid
  | status i =>
      by_cases hid : id = i
      · have hstatus : statusOf s i = stageStatus (stageOf s i) := by
          rw [statusOf, stageOf]
          cases look s.sched i <;> rfl
        rw [hid, slotStep_self rfl]
        exact if_pos hstatus
      · exact slotStep_other rfl hid
  | write stack => rfl
  | running => rfl

theorem life_trace (htrace : (machine φ).Trace s log) (id : ℤ) : life id log = some (stageOf s id) := by
  induction htrace with
  | init hinit =>
      obtain ⟨stack, rfl⟩ := hinit
      rw [stageOf_none (look_open stack id)]
      rfl
  | call htrace hok hexec ih =>
      have hinv := inv_trace htrace
      rw [life_append, ih, Option.bind_some]
      exact (hinv.step_spec hok hexec).life hinv id

/-! ## How many there are -/

def isCreated : Call φ × Result → Bool
  | (_, .created _) => true
  | _ => false

def isEnded : Call φ × Result → Bool
  | (_, .ended _) => true
  | _ => false

theorem Step.crNum_eq {call : Call φ} {r : Result} (hstep : Step s call r s') :
    s'.sched.crNum + [(call, r)].countP isEnded = s.sched.crNum + [(call, r)].countP isCreated := by
  cases hstep with
  | new func i S' _ hnone hstored _ =>
      have hnum := hstored.crNum_eq
      rw [hnone] at hnum
      exact hnum
  | start i C S' _ hlook _ hstored _ =>
      have hnum := hstored.crNum_eq
      rw [hlook] at hnum
      exact congrArg (· + 0) (add_right_cancel hnum)
  | proceed i C S' _ hlook _ hstored _ _ =>
      have hnum := hstored.crNum_eq
      rw [hlook] at hnum
      exact congrArg (· + 0) (add_right_cancel hnum)
  | yield frame depth i C S' _ hlook _ hstored _ =>
      have hnum := hstored.crNum_eq
      rw [hlook] at hnum
      exact congrArg (· + 0) (add_right_cancel hnum)
  | finish i C S' _ hlook hstored _ =>
      have hnum := hstored.crNum_eq
      rw [hlook] at hnum
      exact hnum
  | _ => rfl

theorem crNum_trace (htrace : (machine φ).Trace s log) :
    s.sched.crNum + log.countP isEnded = log.countP isCreated := by
  induction htrace with
  | init hinit =>
      obtain ⟨stack, rfl⟩ := hinit
      rfl
  | call htrace hok hexec ih =>
      have hstep := ((inv_trace htrace).step_spec hok hexec).crNum_eq
      rw [List.countP_append, List.countP_append]
      omega

theorem length_close (h : Tidy s.sched) : ((coroutineClose s.sched).length : ℤ) = s.sched.crNum := by
  rw [h.crNum_eq, coroutineClose, live]
  congr 1
  induction s.sched.co with
  | nil => rfl
  | cons C co ih =>
      cases C with
      | none =>
          rw [List.filterMap_cons_none rfl, List.countP_cons_of_neg (by simp)]
          exact ih
      | some C =>
          have hcons : (some C :: co).filterMap (fun C ↦ C.map Coroutine.func) =
              C.func :: co.filterMap fun C ↦ C.map Coroutine.func := List.filterMap_cons_some rfl
          rw [hcons, List.countP_cons_of_pos rfl, List.length_cons, ih]

/-- In every run each slot lives by the rules: a coroutine is created in a free slot with its function, runs
from a first `coroutine_resume` on with breaks from `coroutine_yield` to the next one, and its slot is free
when its function ends; `coroutine_status` tells where it is.  Only the one that `coroutine_running` names
has the status running.  Each that was created has ended, or `coroutine_close` deletes it. -/
theorem lifecycle (htrace : (machine φ).Trace s log) :
    (∀ id, life id log = some (stageOf s id)) ∧
      (∀ id, stageStatus (stageOf s id) = .running ↔ s.here = some id) ∧
      coroutineRunning s.sched = s.here.getD (-1) ∧
      log.countP isCreated = log.countP isEnded + (coroutineClose s.sched).length := by
  have hinv := inv_trace htrace
  refine ⟨life_trace htrace, fun id ↦ ?_, hinv.running_eq, ?_⟩
  · cases hlook : look s.sched id with
    | none =>
        rw [stageOf_none hlook]
        refine iff_of_false Status.noConfusion fun hhere ↦ ?_
        have hlive := hinv.here_live id hhere
        rw [hlook] at hlive
        cases hlive
    | some C =>
        rw [stageOf_some hlook]
        exact (hinv.valid id C hlook).running_iff
  · have hnum := crNum_trace htrace
    have hclose := length_close hinv.tidy
    omega

theorem lifecycle_pair :
    (∀ id, life id (((machine ℕ).execAll pairStart pairCalls).get pairCalls_run).1 =
        some (stageOf pairState id)) ∧
      (∀ id, stageStatus (stageOf pairState id) = .running ↔ pairState.here = some id) ∧
      coroutineRunning pairState.sched = pairState.here.getD (-1) ∧
      (((machine ℕ).execAll pairStart pairCalls).get pairCalls_run).1.countP isCreated =
        (((machine ℕ).execAll pairStart pairCalls).get pairCalls_run).1.countP isEnded +
          (coroutineClose pairState.sched).length :=
  lifecycle pair_trace

/-! ## The stack -/

/-- The coroutine is suspended with these bytes saved. -/
structure Saved (s : State φ) (id : ℤ) (depth : ℕ) (bytes : ℕ → UInt8) : Prop where
  away : s.here ≠ some id
  saved : ∃ C, look s.sched id = some C ∧ C.status = .suspend ∧ C.size = depth ∧
    ∀ k < depth, C.stack k = bytes k

/-- What others do leaves a suspended coroutine as it is. -/
theorem Saved.step {id : ℤ} {depth : ℕ} {bytes : ℕ → UInt8} (hsaved : Saved s id depth bytes)
    {call : Call φ} {r : Result} (hstep : Step s call r s') (hr : r ≠ .entered id) :
    Saved s' id depth bytes := by
  obtain ⟨haway, C, hlook, hstatus, hsize, hbytes⟩ := hsaved
  have hother : ∀ {S' : Schedule φ} {i : ℤ} {C' : Option (Coroutine φ)}, Stored s.sched S' i C' →
      i ≠ id → ∃ C, look S' id = some C ∧ C.status = .suspend ∧ C.size = depth ∧
        ∀ k < depth, C.stack k = bytes k := by
    intro S' i C' hstored hi
    exact ⟨C, (hstored.look_of_ne hi.symm).trans hlook, hstatus, hsize, hbytes⟩
  cases hstep with
  | new func i S' _ hnone hstored _ =>
      refine ⟨haway, hother hstored ?_⟩
      rintro rfl
      rw [hnone] at hlook
      cases hlook
  | start i D S' _ hD hready hstored _ =>
      have hi : i ≠ id := fun heq ↦ hr (heq ▸ rfl)
      exact ⟨fun heq ↦ hi (Option.some.inj heq), hother hstored hi⟩
  | proceed i D S' _ hD hready hstored _ _ =>
      have hi : i ≠ id := fun heq ↦ hr (heq ▸ rfl)
      exact ⟨fun heq ↦ hi (Option.some.inj heq), hother hstored hi⟩
  | yield frame depth' i D S' hhere hD _ hstored _ =>
      exact ⟨by simp, hother hstored fun heq ↦ haway (heq ▸ hhere)⟩
  | finish i D S' hhere hD hstored _ =>
      exact ⟨by simp, hother hstored fun heq ↦ haway (heq ▸ hhere)⟩
  | write stack => exact ⟨haway, C, hlook, hstatus, hsize, hbytes⟩
  | absent i _ _ => exact ⟨haway, C, hlook, hstatus, hsize, hbytes⟩
  | status i => exact ⟨haway, C, hlook, hstatus, hsize, hbytes⟩
  | running => exact ⟨haway, C, hlook, hstatus, hsize, hbytes⟩

theorem Saved.run (h : Inv s) {id : ℤ} {depth : ℕ} {bytes : ℕ → UInt8} (hsaved : Saved s id depth bytes)
    {calls : List (Call φ)} (hok : (machine φ).AllOk s calls) {out : List (Call φ × Result) × State φ}
    (hexec : (machine φ).execAll s calls = some out) (hr : ∀ entry ∈ out.1, entry.2 ≠ .entered id) :
    Inv out.2 ∧ Saved out.2 id depth bytes := by
  induction calls generalizing s out with
  | nil =>
      cases Option.some.inj hexec
      exact ⟨h, hsaved⟩
  | cons call calls ih =>
      obtain ⟨⟨r, s₁⟩, hcall, hrest⟩ := Option.bind_eq_some_iff.mp hexec
      obtain ⟨rest, htail, rfl⟩ := Option.map_eq_some_iff.mp hrest
      have hstep := h.step_spec hok.1 hcall
      have hsaved₁ := hsaved.step hstep (hr (call, r) (List.mem_cons_self ..))
      have hrun := ih (h.step hstep) hsaved₁ (hok.2 _ hcall) htail
      exact hrun fun entry hentry ↦ hr entry (List.mem_cons_of_mem _ hentry)

/-- A coroutine that yields with `depth` bytes of the stack in use is resumed with the same bytes there,
whatever ran between. -/
theorem stack_kept (htrace : (machine φ).Trace s log) {frame depth : ℕ} {id : ℤ}
    (hyield : exec s (.yield frame depth) = some (.left id, s')) {calls : List (Call φ)}
    (hok : (machine φ).AllOk s' calls) {out : List (Call φ × Result) × State φ}
    (hexec : (machine φ).execAll s' calls = some out) (haway : ∀ entry ∈ out.1, entry.2 ≠ .entered id)
    (hmain : out.2.here = none) :
    ∃ s₂, exec out.2 (.resume id) = some (.entered id, s₂) ∧ s₂.here = some id ∧
      ∀ k, stackSize - depth ≤ k → k < stackSize → s₂.sched.stack k = s.sched.stack k := by
  have hinv := inv_trace htrace
  have hokYield : (machine φ).ok s (.yield frame depth) := trivial
  have hstep := hinv.step_spec hokYield hyield
  have hsaved : Saved s' id depth fun k ↦ s.sched.stack (stackSize - depth + k) := by
    cases hstep with
    | yield _ _ _ C S' hhere hlook hdepth hstored hrunning =>
        exact ⟨by simp, _, hstored.look_self, rfl, rfl, fun k hk ↦ if_pos hk⟩
  obtain ⟨hinv', -, C, hlook, hstatus, hsize, hbytes⟩ :=
    hsaved.run (hinv.step hstep) hok hexec haway
  obtain ⟨S', hresume, -, -, hstack⟩ := coroutineResume_suspend hinv'.tidy
    (hinv'.running_none hmain) hlook hstatus ((hinv'.valid id C hlook).saved hstatus)
  refine ⟨⟨S', some id⟩, ?_, rfl, fun k hge hlt ↦ ?_⟩
  · rw [exec, hresume]
    rfl
  · rw [hsize] at hstack
    have hsplit : stackSize - depth + (k - (stackSize - depth)) = k := by omega
    calc S'.stack k = C.stack (k - (stackSize - depth)) := hstack k hge hlt
      _ = s.sched.stack (stackSize - depth + (k - (stackSize - depth))) := hbytes _ (by omega)
      _ = s.sched.stack k := by rw [hsplit]

/-- The first coroutine yields with twelve bytes in use. -/
theorem firstYield_run : (exec pairState (.yield 10 12)).isSome := by with_unfolding_all decide

def afterYield : State ℕ := ((exec pairState (.yield 10 12)).get firstYield_run).2

theorem firstYield : exec pairState (.yield 10 12) = some (.left 0, afterYield) := by
  have hleft : ((exec pairState (.yield 10 12)).get firstYield_run).1 = .left 0 := by
    with_unfolding_all decide
  rw [← hleft]
  exact (Option.some_get firstYield_run).symm

/-- Then the second one clears the stack, and yields. -/
def otherCalls : List (Call ℕ) := [.resume 1, .write fun _ ↦ 0, .yield 20 24]

theorem otherCalls_run : ((machine ℕ).execAll afterYield otherCalls).isSome := by
  with_unfolding_all decide

def afterOther : List (Call ℕ × Result) × State ℕ :=
  ((machine ℕ).execAll afterYield otherCalls).get otherCalls_run

theorem stack_kept_pair :
    ∃ s₂, exec afterOther.2 (.resume 0) = some (.entered 0, s₂) ∧ s₂.here = some 0 ∧
      ∀ k, stackSize - 12 ≤ k → k < stackSize → s₂.sched.stack k = pairState.sched.stack k :=
  stack_kept pair_trace firstYield (by with_unfolding_all decide) (Option.some_get otherCalls_run).symm
    (by with_unfolding_all decide) (by with_unfolding_all rfl)

end CPractice.Scheduler
