import CPractice.Scheduler.Invariant

/-!
# The invariant of the scheduler

Who runs is what the field `running` says, and a coroutine has the status `running` exactly if it is the one
that runs.  Under the invariant a call faults only for what its caller does wrong (`Faulty`), and otherwise
it is one of the steps of `Step`; the assertion behind the loop of `coroutine_new` and the one in the
`switch` of `coroutine_resume` do not fail.
-/

namespace CPractice.Scheduler

open Lib

variable {φ : Type} {s s' : State φ} {log : List (Call φ × Result)}

/-- What the array keeps about a coroutine; `runs` says that it is the one that runs. -/
structure Coroutine.Valid (C : Coroutine φ) (runs : Prop) : Prop where
  alive : C.status ≠ .dead
  running_iff : C.status = .running ↔ runs
  saved : C.status = .suspend → C.size ≤ C.crCap ∧ C.size ≤ stackSize

structure Inv (s : State φ) : Prop where
  tidy : Tidy s.sched
  running_eq : s.sched.running = s.here.getD (-1)
  valid : ∀ id C, look s.sched id = some C → C.Valid (s.here = some id)
  here_live : ∀ id, s.here = some id → (look s.sched id).isSome

/-- The status of a coroutine as `coroutine_status` tells it. -/
def statusOf (s : State φ) (id : ℤ) : Status :=
  match look s.sched id with
  | none => .dead
  | some C => C.status

/-- The calls that fault: an array that cannot be doubled, a coroutine that resumes another, a main function
that yields, an index out of the array, and a stack that is too deep. -/
def Faulty (s : State φ) : Call φ → Prop
  | .new _ => s.sched.crCap ≤ live s.sched ∧ 1073741824 ≤ s.sched.crCap
  | .resume id => s.here.isSome ∨ ¬ (0 ≤ id ∧ id < s.sched.crCap)
  | .yield frame depth => s.here = none ∨ stackSize ≤ frame ∨ stackSize < depth
  | .status id => ¬ (0 ≤ id ∧ id < s.sched.crCap)
  | _ => False

/-- What a call that does not fault does. -/
inductive Step (s : State φ) : Call φ → Result → State φ → Prop where
  | new (func : φ) (id : ℤ) (S' : Schedule φ) : 0 ≤ id → look s.sched id = none →
      Stored s.sched S' id (some (coNew func)) → S'.running = s.sched.running →
      Step s (.new func) (.created id) ⟨S', s.here⟩
  | start (id : ℤ) (C : Coroutine φ) (S' : Schedule φ) : s.here = none → look s.sched id = some C →
      C.status = .ready → Stored s.sched S' id (some { C with status := .running }) →
      S'.running = id → Step s (.resume id) (.entered id) ⟨S', some id⟩
  | proceed (id : ℤ) (C : Coroutine φ) (S' : Schedule φ) : s.here = none →
      look s.sched id = some C → C.status = .suspend →
      Stored s.sched S' id (some { C with status := .running }) → S'.running = id →
      (∀ k, stackSize - C.size ≤ k → k < stackSize →
        S'.stack k = C.stack (k - (stackSize - C.size))) →
      Step s (.resume id) (.entered id) ⟨S', some id⟩
  | absent (id : ℤ) : s.here = none → look s.sched id = none → Step s (.resume id) (.absent id) s
  | yield (frame depth : ℕ) (id : ℤ) (C : Coroutine φ) (S' : Schedule φ) : s.here = some id →
      look s.sched id = some C → depth ≤ stackSize →
      Stored s.sched S' id (some { saveStack s.sched C depth with status := .suspend }) →
      S'.running = -1 → Step s (.yield frame depth) (.left id) ⟨S', none⟩
  | finish (id : ℤ) (C : Coroutine φ) (S' : Schedule φ) : s.here = some id →
      look s.sched id = some C → Stored s.sched S' id none → S'.running = -1 →
      Step s .finish (.ended id) ⟨S', none⟩
  | write (stack : ℕ → UInt8) :
      Step s (.write stack) .done ⟨{ s.sched with stack := stack }, s.here⟩
  | status (id : ℤ) : Step s (.status id) (.status (statusOf s id)) s
  | running : Step s .running (.running (s.here.getD (-1))) s

/-! ## One call -/

namespace Inv

theorem running_here (h : Inv s) {id : ℤ} (hhere : s.here = some id) : s.sched.running = id := by
  rw [h.running_eq, hhere, Option.getD_some]

theorem exists_here (h : Inv s) {id : ℤ} (hhere : s.here = some id) :
    ∃ C, look s.sched id = some C ∧ 0 ≤ id := by
  obtain ⟨C, hC⟩ := Option.isSome_iff_exists.mp (h.here_live id hhere)
  exact ⟨C, hC, (h.tidy.range_of_look hC).1⟩

theorem running_none (h : Inv s) (hhere : s.here = none) : s.sched.running = -1 := by
  rw [h.running_eq, hhere, Option.getD_none]

/-- A call either faults as `Faulty` says, or is a step. -/
def Cases (s : State φ) (call : Call φ) : Prop :=
  (Faulty s call ∧ exec s call = none) ∨
    (¬ Faulty s call ∧ ∃ r s', exec s call = some (r, s') ∧ Step s call r s')

theorem new_cases (h : Inv s) (func : φ) : Cases s (.new func) := by
  rcases coroutineNew_spec h.tidy func with ⟨hfull, hlarge, hnone⟩ |
    ⟨hroom, id, S', hnew, hpos, hnone, hstored, hrunning, -⟩
  · refine .inl ⟨⟨hfull, hlarge⟩, ?_⟩
    rw [exec, hnone]
    rfl
  · refine .inr ⟨hroom, .created id, ⟨S', s.here⟩, ?_, .new func id S' hpos hnone hstored hrunning⟩
    rw [exec, hnew]
    rfl

/-- The main function resumes a coroutine. -/
theorem resume_main (h : Inv s) {id : ℤ} (hhere : s.here = none) (hrange : 0 ≤ id ∧ id < s.sched.crCap) :
    ∃ r s', exec s (.resume id) = some (r, s') ∧ Step s (.resume id) r s' := by
  have hrunning := h.running_none hhere
  cases hlook : look s.sched id with
  | none =>
      refine ⟨.absent id, s, ?_, .absent id hhere hlook⟩
      rw [exec, coroutineResume_none h.tidy hrunning hrange hlook]
      rfl
  | some C =>
      have hvalid := h.valid id C hlook
      cases hstatus : C.status with
      | ready =>
          obtain ⟨S', hresume, hstored, hid⟩ := coroutineResume_ready h.tidy hrunning hlook hstatus
          refine ⟨.entered id, ⟨S', some id⟩, ?_, .start id C S' hhere hlook hstatus hstored hid⟩
          rw [exec, hresume]
          rfl
      | suspend =>
          obtain ⟨S', hresume, hstored, hid, hstack⟩ :=
            coroutineResume_suspend h.tidy hrunning hlook hstatus (hvalid.saved hstatus)
          refine ⟨.entered id, ⟨S', some id⟩, ?_,
            .proceed id C S' hhere hlook hstatus hstored hid hstack⟩
          rw [exec, hresume]
          rfl
      | running =>
          have hself := hvalid.running_iff.mp hstatus
          rw [hhere] at hself
          cases hself
      | dead => exact absurd hstatus hvalid.alive

theorem resume_cases (h : Inv s) (id : ℤ) : Cases s (.resume id) := by
  by_cases hrange : 0 ≤ id ∧ id < s.sched.crCap
  · cases hhere : s.here with
    | none =>
        refine .inr ⟨?_, h.resume_main hhere hrange⟩
        rw [Faulty, hhere]
        rintro (hsome | hout)
        · cases hsome
        · exact hout hrange
    | some other =>
        obtain ⟨C, -, hpos⟩ := h.exists_here hhere
        have hrunning := h.running_here hhere
        refine .inl ⟨.inl (by rw [hhere]; rfl), ?_⟩
        rw [exec, coroutineResume, if_neg (by omega)]
        rfl
  · refine .inl ⟨.inr hrange, ?_⟩
    rw [exec, coroutineResume, if_neg fun hall ↦ hrange hall.2]
    rfl

theorem yield_cases (h : Inv s) (frame depth : ℕ) : Cases s (.yield frame depth) := by
  cases hhere : s.here with
  | none =>
      refine .inl ⟨.inl hhere, ?_⟩
      rw [exec, coroutineYield, h.running_none hhere, if_neg (by decide)]
      rfl
  | some id =>
      obtain ⟨C, hlook, hpos⟩ := h.exists_here hhere
      have hrunning := h.running_here hhere
      by_cases hfits : frame < stackSize ∧ depth ≤ stackSize
      · obtain ⟨S', hyield, hstored, hid⟩ :=
          coroutineYield_spec h.tidy hrunning hlook hfits.1 hfits.2
        refine .inr ⟨?_, .left id, ⟨S', none⟩, ?_,
          .yield frame depth id C S' hhere hlook hfits.2 hstored hid⟩
        · rw [Faulty, hhere]
          rintro (hnone | hdeep)
          · cases hnone
          · omega
        · rw [exec, hyield]
          rfl
      · refine .inl ⟨.inr (by omega), ?_⟩
        rw [exec, coroutineYield, hrunning, if_pos hpos, h.tidy.slot_of_look hlook]
        dsimp only
        rw [if_neg hfits]
        rfl

theorem status_cases (h : Inv s) (id : ℤ) : Cases s (.status id) := by
  by_cases hrange : 0 ≤ id ∧ id < s.sched.crCap
  · refine .inr ⟨fun hout ↦ hout hrange, .status (statusOf s id), s, ?_, .status id⟩
    rw [exec, coroutineStatus, if_pos hrange, h.tidy.slot_eq, if_pos hrange, statusOf]
    cases look s.sched id <;> rfl
  · refine .inl ⟨hrange, ?_⟩
    rw [exec, coroutineStatus, if_neg hrange]
    rfl

theorem exec_cases (h : Inv s) {call : Call φ} (hok : (machine φ).ok s call) : Cases s call := by
  cases call with
  | new func => exact h.new_cases func
  | resume id => exact h.resume_cases id
  | yield frame depth => exact h.yield_cases frame depth
  | finish =>
      obtain ⟨id, hhere⟩ := Option.isSome_iff_exists.mp hok
      obtain ⟨C, hlook, -⟩ := h.exists_here hhere
      obtain ⟨S', hreturn, hstored, hid⟩ := mainfuncReturn_spec h.tidy hlook
      refine .inr ⟨fun hf ↦ hf, .ended id, ⟨S', none⟩, ?_,
        .finish id C S' hhere hlook hstored hid⟩
      rw [exec, hhere, Option.bind_some, hreturn]
      rfl
  | write stack => exact .inr ⟨fun hf ↦ hf, .done, _, rfl, .write stack⟩
  | status id => exact h.status_cases id
  | running =>
      refine .inr ⟨fun hf ↦ hf, .running (s.here.getD (-1)), s, ?_, .running⟩
      rw [exec, coroutineRunning, h.running_eq]

theorem step_spec (h : Inv s) {call : Call φ} (hok : (machine φ).ok s call) {r : Result}
    (hexec : exec s call = some (r, s')) : Step s call r s' := by
  rcases h.exec_cases hok with ⟨-, hnone⟩ | ⟨-, r', s'', hsome, hstep⟩
  · rw [hnone] at hexec
    cases hexec
  · cases hsome.symm.trans hexec
    exact hstep

/-! ## The invariant -/

/-- What a store leaves of the other coroutines, when who runs changes. -/
theorem valid_other (h : Inv s) {S' : Schedule φ} {id i : ℤ} {C' : Option (Coroutine φ)} {D : Coroutine φ}
    (hstored : Stored s.sched S' id C') (hi : i ≠ id) (hD : look S' i = some D) {here : Option ℤ}
    (hsame : s.here = some i ↔ here = some i) : D.Valid (here = some i) := by
  rw [hstored.look_of_ne hi] at hD
  have hvalid := h.valid i D hD
  exact ⟨hvalid.alive, hvalid.running_iff.trans hsame, hvalid.saved⟩

theorem create (h : Inv s) {id : ℤ} {func : φ} {S' : Schedule φ} (hnone : look s.sched id = none)
    (hstored : Stored s.sched S' id (some (coNew func))) (hrunning : S'.running = s.sched.running) :
    Inv ⟨S', s.here⟩ := by
  have hne : ∀ i, s.here = some i → i ≠ id := by
    rintro i hi rfl
    have hlive := h.here_live i hi
    rw [hnone] at hlive
    cases hlive
  refine ⟨hstored.tidy, hrunning.trans h.running_eq, fun i D hD ↦ ?_, fun i hi ↦ ?_⟩
  · by_cases heq : i = id
    · rw [heq, hstored.look_self] at hD
      cases hD
      exact ⟨Status.noConfusion, iff_of_false Status.noConfusion fun hi ↦ hne i hi heq,
        Status.noConfusion⟩
    · exact h.valid_other hstored heq hD Iff.rfl
  · dsimp only
    rw [hstored.look_of_ne (hne i hi)]
    exact h.here_live i hi

theorem enter (h : Inv s) {id : ℤ} {C : Coroutine φ} {S' : Schedule φ} (hhere : s.here = none)
    (hstored : Stored s.sched S' id (some { C with status := .running })) (hrunning : S'.running = id) :
    Inv ⟨S', some id⟩ := by
  refine ⟨hstored.tidy, hrunning, fun i D hD ↦ ?_, fun i hi ↦ ?_⟩
  · by_cases heq : i = id
    · rw [heq, hstored.look_self] at hD
      cases hD
      exact ⟨Status.noConfusion, iff_of_true rfl (congrArg some heq.symm), Status.noConfusion⟩
    · refine h.valid_other hstored heq hD ?_
      rw [hhere]
      exact iff_of_false (by simp) fun hi ↦ heq (Option.some.inj hi).symm
  · cases hi
    dsimp only
    rw [hstored.look_self]
    rfl

theorem leave (h : Inv s) {id : ℤ} {C : Option (Coroutine φ)} {S' : Schedule φ} (hhere : s.here = some id)
    (hstored : Stored s.sched S' id C) (hvalid : ∀ D, C = some D → D.Valid False)
    (hrunning : S'.running = -1) : Inv ⟨S', none⟩ := by
  refine ⟨hstored.tidy, hrunning, fun i D hD ↦ ?_, fun i hi ↦ absurd hi (by simp)⟩
  by_cases heq : i = id
  · rw [heq, hstored.look_self] at hD
    have hself := hvalid D hD
    exact ⟨hself.alive, hself.running_iff.trans (iff_of_false (fun hf ↦ hf) (by simp)), hself.saved⟩
  · refine h.valid_other hstored heq hD ?_
    rw [hhere]
    exact iff_of_false (fun hi ↦ heq (Option.some.inj hi).symm) (by simp)

/-- Every step keeps the invariant. -/
theorem step (h : Inv s) {call : Call φ} {r : Result} (hstep : Step s call r s') : Inv s' := by
  cases hstep with
  | new func id S' hpos hnone hstored hrunning => exact h.create hnone hstored hrunning
  | start id C S' hhere hlook hstatus hstored hrunning => exact h.enter hhere hstored hrunning
  | proceed id C S' hhere hlook hstatus hstored hrunning hstack => exact h.enter hhere hstored hrunning
  | yield frame depth id C S' hhere hlook hdepth hstored hrunning =>
      refine h.leave hhere hstored (fun D hD ↦ ?_) hrunning
      cases hD
      refine ⟨Status.noConfusion, iff_of_false Status.noConfusion fun hf ↦ hf, fun _ ↦ ⟨?_, hdepth⟩⟩
      dsimp only [saveStack]
      split <;> omega
  | finish id C S' hhere hlook hstored hrunning =>
      exact h.leave hhere hstored (fun D hD ↦ absurd hD (by simp)) hrunning
  | write stack => exact ⟨h.tidy.with_stack stack, h.running_eq, h.valid, h.here_live⟩
  | absent id hhere hnone => exact h
  | status id => exact h
  | running => exact h

end Inv

theorem look_open (stack : ℕ → UInt8) (id : ℤ) : look (coroutineOpen (φ := φ) stack) id = none := by
  rw [look, slot, coroutineOpen]
  split
  · rw [List.getElem?_replicate]
    split <;> rfl
  · rfl

theorem inv_init (hinit : (machine φ).init s) : Inv s := by
  obtain ⟨stack, rfl⟩ := hinit
  refine ⟨⟨List.length_replicate, ?_, show 0 < defaultCoroutine by decide⟩, rfl, fun i C hC ↦ ?_,
    fun i hi ↦ absurd hi (by simp)⟩
  · rw [live, coroutineOpen, List.countP_replicate]
    rfl
  · rw [look_open] at hC
    cases hC

theorem inv_trace (htrace : (machine φ).Trace s log) : Inv s :=
  htrace.invariant Inv (fun _ ↦ inv_init) fun _ _ _ _ h hok hexec ↦ h.step (h.step_spec hok hexec)

end CPractice.Scheduler
