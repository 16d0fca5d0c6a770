import CPractice.Fsm.Lookup

/-!
# `fsm_run` follows declared switches

A run is looked at through the log of its lookups, calls and assignments.  A turn looks up the switch
for the current state and event, which is a declared one, calls the handler and the judge, and then
assigns the state only if the judge returned zero; so in the log every assignment stands behind the
lookup and the two calls that justify it.
-/

namespace CPractice.Fsm

variable {lib : StdLib} {decls : List NodeDecl} {ω : Type} {calls : Callbacks ω} {fsm : FsmT}

/-- A switch declared for a state and an event. -/
def Declared (decls : List NodeDecl) (state event : ℤ) (sw : Switcher) : Prop :=
  ∃ decl ∈ decls, decl.state = state ∧ sw ∈ decl.switches ∧ sw.event = event

/-- `fsm->state` after the assignments of a log. -/
def stateAfter (state : ℤ) (log : List Action) : ℤ :=
  log.foldl (fun state action ↦ match action with
    | .moved state' => state'
    | _ => state) state

/-- What an assignment of `target` needs before it in the log: in the state reached a lookup for which
a switch to `target` is declared, one call of its handler and one of its judge, which returned zero. -/
def MoveDeclared (decls : List NodeDecl) (fsm : FsmT) (before : List Action) (target : ℤ) : Prop :=
  ∃ earlier state event event' ret sw,
    before = earlier ++ [.looked state event,
      .called (orDefault sw.handler fsm.handler) state event ret,
      .called (orDefault sw.judge fsm.judge) state event' 0] ∧
    state = stateAfter fsm.state earlier ∧ Declared decls state event sw ∧ sw.state = target

/-- Every assignment in a log is a declared one. -/
def MovesDeclared (decls : List NodeDecl) (fsm : FsmT) (log : List Action) : Prop :=
  ∀ before target after, log = before ++ .moved target :: after → MoveDeclared decls fsm before target

/-! ## Logs -/

@[simp]
theorem stateAfter_append (state : ℤ) (log log' : List Action) :
    stateAfter state (log ++ log') = stateAfter (stateAfter state log) log' :=
  List.foldl_append

theorem MovesDeclared.nil : MovesDeclared decls fsm [] := by
  intro before target after heq
  simp at heq

/-- One more action, which is justified if it is an assignment. -/
theorem MovesDeclared.append {log : List Action} (h : MovesDeclared decls fsm log) {action : Action}
    (haction : ∀ target, action = .moved target → MoveDeclared decls fsm log target) :
    MovesDeclared decls fsm (log ++ [action]) := by
  intro before target after heq
  rcases List.eq_nil_or_concat after with rfl | ⟨after', last, rfl⟩
  · obtain ⟨rfl, hlast⟩ := List.append_inj' heq rfl
    exact haction target (List.cons.inj hlast).1
  · rw [List.concat_eq_append, ← List.cons_append, ← List.append_assoc] at heq
    exact h before target after' (List.append_inj' heq rfl).1

theorem MovesDeclared.append_silent {log actions : List Action} (h : MovesDeclared decls fsm log)
    (hsilent : ∀ target, .moved target ∉ actions) : MovesDeclared decls fsm (log ++ actions) := by
  induction actions generalizing log with
  | nil => rwa [List.append_nil]
  | cons action actions ih =>
      have hhead : MovesDeclared decls fsm (log ++ [action]) := by
        apply h.append
        rintro target rfl
        exact absurd List.mem_cons_self (hsilent target)
      have hrest := ih hhead fun target hmem ↦ hsilent target (List.mem_cons_of_mem action hmem)
      rwa [List.append_assoc, List.singleton_append] at hrest

/-! ## A turn -/

theorem callFunction_eq_some {function : ℕ} {r : Run ω} {out : ℤ × Run ω}
    (h : callFunction calls function r = some out) :
    out.2.state = r.state ∧ out.2.ret = r.ret ∧
      out.2.log = r.log ++ [.called function r.state r.event out.1] := by
  rcases Option.ite_none_left_eq_some.mp h with ⟨-, h⟩
  obtain rfl := Option.some.inj h
  exact ⟨rfl, rfl, rfl⟩

theorem callFunction_defined (calls : Callbacks ω) {function : ℕ} (h : function ≠ 0) (r : Run ω) :
    ∃ out, callFunction calls function r = some out := ⟨_, if_neg h⟩

theorem orDefault_ne_zero (function : ℕ) {default : ℕ} (h : default ≠ 0) :
    orDefault function default ≠ 0 := by
  unfold orDefault
  split
  · exact h
  · assumption

/-- What a turn can do: the lookup fails and nothing changes, or a switch is found and the handler and
the judge are called. -/
theorem fsmTurn_cases {r r' : Run ω} (h : fsmTurn lib calls fsm r = some r') :
    (fsmLookup lib fsm.node r.state r.event = none ∧
      r' = { r with log := r.log ++ [.looked r.state r.event], ret := some (-2) }) ∨
    ∃ sw event' ret ret', fsmLookup lib fsm.node r.state r.event = some sw ∧
      r'.log = r.log ++ [.looked r.state r.event,
        .called (orDefault sw.handler fsm.handler) r.state r.event ret,
        .called (orDefault sw.judge fsm.judge) r.state event' ret'] ++
          (if ret' = 0 then [.moved sw.state] else []) ∧
      r'.state = (if ret' = 0 then sw.state else r.state) ∧
      r'.ret = if r'.state = invalidState then some 0 else r.ret := by
  unfold fsmTurn at h
  cases hlookup : fsmLookup lib fsm.node r.state r.event with
  | none =>
      simp only [hlookup, Option.some.injEq] at h
      exact .inl ⟨rfl, h.symm⟩
  | some sw =>
      simp only [hlookup] at h
      rcases Option.bind_eq_some_iff.mp h with ⟨handled, hhandled, h⟩
      rcases Option.bind_eq_some_iff.mp h with ⟨judged, hjudged, h⟩
      rcases callFunction_eq_some hhandled with ⟨hstate, hret, hlog⟩
      rcases callFunction_eq_some hjudged with ⟨hstate', hret', hlog'⟩
      have hout : r'.log = (switchState judged.1 sw judged.2).log ∧
          r'.state = (switchState judged.1 sw judged.2).state ∧
          r'.ret = if r'.state = invalidState then some 0
            else (switchState judged.1 sw judged.2).ret := by
        split at h
        · rename_i hfinal
          obtain rfl := Option.some.inj h
          exact ⟨rfl, rfl, (if_pos hfinal).symm⟩
        · rename_i hfinal
          obtain rfl := Option.some.inj h
          exact ⟨rfl, rfl, (if_neg hfinal).symm⟩
      refine .inr ⟨sw, handled.2.event, handled.1, judged.1, rfl, ?_, ?_, ?_⟩
      · rw [hout.1, switchState]
        split
        · simp [hlog', hlog, hstate]
        · simp [hlog', hlog, hstate]
      · rw [hout.2.1, switchState]
        split
        · rfl
        · rw [hstate', hstate]
      · rw [hout.2.2, switchState]
        split
        · rfl
        · split
          · exact hret'.trans hret
          · exact hret'.trans hret

/-- With default functions a turn never calls through nil. -/
theorem fsmTurn_defined (hhandler : fsm.handler ≠ 0) (hjudge : fsm.judge ≠ 0) (r : Run ω) :
    ∃ r', fsmTurn lib calls fsm r = some r' := by
  unfold fsmTurn
  cases hlookup : fsmLookup lib fsm.node r.state r.event with
  | none =>
      simp only [hlookup]
      exact ⟨_, rfl⟩
  | some sw =>
      rcases callFunction_defined calls (orDefault_ne_zero sw.handler hhandler)
        { r with log := r.log ++ [.looked r.state r.event] } with ⟨handled, hhandled⟩
      rcases callFunction_defined calls (orDefault_ne_zero sw.judge hjudge) handled.2 with
        ⟨judged, hjudged⟩
      simp only [hlookup, hhandled, hjudged, Option.bind_eq_bind, Option.bind_some]
      split
      · exact ⟨_, rfl⟩
      · exact ⟨_, rfl⟩

/-! ## Runs -/

/-- The assignments of a run are declared ones, and the value returned says why it stopped. -/
structure RunDeclared (decls : List NodeDecl) (fsm : FsmT) (r : Run ω) : Prop where
  moves : MovesDeclared decls fsm r.log
  state_eq : r.state = stateAfter fsm.state r.log
  returned : ∀ ret, r.ret = some ret → ret = 0 ∨ ret = -2
  final_iff : r.ret = some 0 ↔ r.state = invalidState
  missing_iff : r.ret = some (-2) ↔ (∃ earlier, r.log = earlier ++ [.looked r.state r.event]) ∧
    ∀ sw, ¬ Declared decls r.state r.event sw

theorem RunDeclared.valid {r : Run ω} (h : RunDeclared decls fsm r) (hrunning : r.ret = none) :
    r.state ≠ invalidState := by
  intro hfinal
  rw [h.final_iff.mpr hfinal] at hrunning
  cases hrunning

section
variable (hlib : lib.Correct) (hwf : WellFormed decls)
  (hlast : ∀ decl ∈ decls, FinalLast decl.switches)
  (hnode : fsm.node = fsmNodeArrSort lib (nodeArr decls))
include hlib hwf hlast hnode

theorem lookup_eq_some_iff {r : Run ω} (hstate : r.state ≠ invalidState) (sw : Switcher) :
    fsmLookup lib fsm.node r.state r.event = some sw ↔ Declared decls r.state r.event sw := by
  rw [hnode]
  exact fsmLookup_of_finalLast hlib hwf hlast hstate r.event sw

/-- A turn keeps the log justified. -/
theorem RunDeclared.turn {r r' : Run ω} (h : RunDeclared decls fsm r) (hrunning : r.ret = none)
    (hturn : fsmTurn lib calls fsm r = some r') : RunDeclared decls fsm r' := by
  have hvalid := h.valid hrunning
  have hlookup := lookup_eq_some_iff hlib hwf hlast hnode hvalid
  rcases fsmTurn_cases hturn with
    ⟨hnone, rfl⟩ | ⟨sw, event', ret, ret', hfound, hlog, hstate, hret⟩
  · have hmissing : ∀ sw, ¬ Declared decls r.state r.event sw := by
      intro sw hsw
      rw [(hlookup sw).mpr hsw] at hnone
      cases hnone
    constructor
    · exact h.moves.append (fun _ heq ↦ by cases heq)
    · simpa [stateAfter] using h.state_eq
    · intro ret hret
      exact .inr (Option.some.inj hret).symm
    · simpa using hvalid
    · simpa using hmissing
  · have hdeclared := (hlookup sw).mp hfound
    have hcalls : MovesDeclared decls fsm (r.log ++ [.looked r.state r.event,
        .called (orDefault sw.handler fsm.handler) r.state r.event ret,
        .called (orDefault sw.judge fsm.judge) r.state event' ret']) :=
      h.moves.append_silent (by simp)
    constructor
    · rw [hlog]
      split
      · rename_i hzero
        apply hcalls.append
        intro target heq
        obtain rfl := Action.moved.inj heq
        rw [hzero]
        exact ⟨r.log, r.state, r.event, event', ret, sw, rfl, h.state_eq, hdeclared, rfl⟩
      · rwa [List.append_nil]
    · rw [hlog, hstate]
      split
      · simp [stateAfter]
      · simpa [stateAfter] using h.state_eq
    · intro out hout
      rw [hret, hrunning] at hout
      split at hout
      · exact .inl (Option.some.inj hout).symm
      · cases hout
    · rw [hret, hrunning]
      split
      · simp_all
      · simp_all
    · rw [hret, hrunning]
      constructor
      · intro hminus
        split at hminus
        · cases hminus
        · cases hminus
      · rintro ⟨⟨earlier, heq⟩, -⟩
        rw [hlog] at heq
        have hend := congrArg List.getLast? heq
        split at hend
        · simp at hend
        · simp at hend

theorem fsmRun_declared {world : ω} {event : ℤ} (hstate : fsm.state ≠ invalidState)
    (hevent : event ≠ invalidEvent) {turns : ℕ} {r : Run ω}
    (hrun : fsmRun lib calls fsm world event turns = some r) : RunDeclared decls fsm r := by
  induction turns generalizing r with
  | zero =>
      rw [fsmRun, if_neg (not_or.mpr ⟨hstate, hevent⟩)] at hrun
      obtain rfl := Option.some.inj hrun
      exact ⟨.nil, rfl, by simp, by simpa using hstate, by simp⟩
  | succ turns ih =>
      rcases Option.bind_eq_some_iff.mp hrun with ⟨r₀, hrun₀, hturn⟩
      split at hturn
      · obtain rfl := Option.some.inj hturn
        exact ih hrun₀
      · rename_i hrunning
        exact (ih hrun₀).turn hlib hwf hlast hnode (by simpa using hrunning) hturn

end

theorem fsmRun_defined (hhandler : fsm.handler ≠ 0) (hjudge : fsm.judge ≠ 0) (world : ω) (event : ℤ)
    (turns : ℕ) : ∃ r, fsmRun lib calls fsm world event turns = some r := by
  induction turns with
  | zero =>
      rw [fsmRun]
      split
      · exact ⟨_, rfl⟩
      · exact ⟨_, rfl⟩
  | succ turns ih =>
      rcases ih with ⟨r, hrun⟩
      rw [fsmRun, hrun, Option.bind_eq_bind, Option.bind_some]
      split
      · exact ⟨r, rfl⟩
      · exact fsmTurn_defined hhandler hjudge r

/-- Over a sorted table whose switches to the final state are the last of their nodes, for all
callbacks and after any number of turns: every assignment to `fsm->state` goes to the target of a
switch declared for the state and event looked up, behind one call of its handler and one of its
judge that returned zero; `fsm->state` is what was assigned last; the function has returned `0`
exactly in the final state and `-2` exactly after a lookup for which no switch is declared, which
is what the next turn returns where none is. -/
theorem fsm_run_follows_declared (hlib : lib.Correct) (hwf : WellFormed decls)
    (hlast : ∀ decl ∈ decls, FinalLast decl.switches) (calls : Callbacks ω)
    (hnode : fsm.node = fsmNodeArrSort lib (nodeArr decls)) (hstate : fsm.state ≠ invalidState)
    {event : ℤ} (hevent : event ≠ invalidEvent) (world : ω) (turns : ℕ) :
    (fsm.handler ≠ 0 → fsm.judge ≠ 0 →
      ∃ r, fsmRun lib calls fsm world event turns = some r) ∧
    ∀ r, fsmRun lib calls fsm world event turns = some r → RunDeclared decls fsm r ∧
      (r.ret = none → ((∀ sw, ¬ Declared decls r.state r.event sw) ↔
        ∃ r', fsmTurn lib calls fsm r = some r' ∧ r'.state = r.state ∧ r'.ret = some (-2))) := by
  refine ⟨fun hhandler hjudge ↦ fsmRun_defined hhandler hjudge world event turns, ?_⟩
  intro r hrun
  have h := fsmRun_declared hlib hwf hlast hnode hstate hevent hrun
  refine ⟨h, fun hrunning ↦ ?_⟩
  have hvalid := h.valid hrunning
  constructor
  · intro hmissing
    have hnone : fsmLookup lib fsm.node r.state r.event = none := by
      rw [Option.eq_none_iff_forall_ne_some]
      intro sw hfound
      exact hmissing sw ((lookup_eq_some_iff hlib hwf hlast hnode hvalid sw).mp hfound)
    have hturn : fsmTurn lib calls fsm r =
        some { r with log := r.log ++ [.looked r.state r.event], ret := some (-2) } := by
      unfold fsmTurn
      simp only [hnone]
    exact ⟨_, hturn, rfl, rfl⟩
  · rintro ⟨r', hturn, -, hret⟩ sw hsw
    rcases fsmTurn_cases hturn with ⟨hnone, -⟩ | ⟨-, -, -, -, -, -, -, hret'⟩
    · rw [(lookup_eq_some_iff hlib hwf hlast hnode hvalid sw).mpr hsw] at hnone
      cases hnone
    · rw [hret', hrunning] at hret
      split at hret
      · cases hret
      · cases hret

/-- The machine of `watchDecls` in its first state. -/
def watchFsm : FsmT := ⟨1, 5, 6, fsmNodeArrSort plainLib (nodeArr watchDecls)⟩

/-- Every handler and judge succeeds, and the handler `10` raises the event `8`. -/
def watchCalls : Callbacks Unit := fun function _ _ event ↦ ((), 0, if function = 10 then 8 else event)

theorem watchFsm_lookup {state event : ℤ} {sw : Switcher} (hstate : state ≠ invalidState)
    (hsw : ∃ decl ∈ watchDecls, decl.state = state ∧ sw ∈ decl.switches ∧ sw.event = event) :
    fsmLookup plainLib watchFsm.node state event = some sw :=
  (fsmLookup_of_finalLast plainLib_correct (by decide) (by decide) hstate event sw).mpr hsw

theorem watch_runs :
    fsmRun plainLib watchCalls watchFsm () 2 2 = some ⟨(), invalidState, 8,
      [.looked 1 2, .called 10 1 2 0, .called 6 1 8 0, .moved 2,
        .looked 2 8, .called 12 2 8 0, .called 6 2 8 0, .moved invalidState], some 0⟩ := by
  have hfirst : fsmLookup plainLib watchFsm.node 1 2 = some ⟨2, 2, 10, 0⟩ :=
    watchFsm_lookup (by decide) ⟨_, List.mem_cons_of_mem _ List.mem_cons_self, rfl, by decide, rfl⟩
  have hsecond : fsmLookup plainLib watchFsm.node 2 8 = some ⟨invalidState, 8, 12, 0⟩ :=
    watchFsm_lookup (by decide) ⟨_, List.mem_cons_self, rfl, by decide, rfl⟩
  have hstate : watchFsm.state = 1 := rfl
  have hhandler : watchFsm.handler = 5 := rfl
  have hjudge : watchFsm.judge = 6 := rfl
  simp [fsmRun, fsmTurn, hfirst, hsecond, hstate, hhandler, hjudge, callFunction, orDefault,
    switchState, watchCalls, invalidState, invalidEvent]

theorem fsm_run_follows_declared_watch :
    ∃ r, fsmRun plainLib watchCalls watchFsm () 2 2 = some r ∧ RunDeclared watchDecls watchFsm r ∧
      r.ret = some 0 := by
  have hwf : WellFormed watchDecls := by decide
  have hnode : watchFsm.node = fsmNodeArrSort plainLib (nodeArr watchDecls) := rfl
  have hevent : (2 : ℤ) ≠ invalidEvent := by decide
  have h := fsm_run_follows_declared plainLib_correct hwf (by decide) watchCalls hnode (by decide)
    hevent () 2
  exact ⟨_, watch_runs, (h.2 _ watch_runs).1, rfl⟩

end CPractice.Fsm
