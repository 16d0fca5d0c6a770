import CPractice.Fsm.Run
import CPractice.Lib.Steps

/-!
# When `fsm_run` returns

Where the handlers and judges depend on the state and the event alone, a turn of the loop is a step
from one pair of these to the next.  Only the pairs for which a switch is found have a next one, and
the table has finitely many of them, so `fsm_run` returns just if it never comes back to a pair.  A
switch that the judge rejects leaves the state as it is and the loop goes on, which is such a return
whenever `param->event` was not rewritten.
-/

namespace CPractice.Fsm

open Lib Relation

variable {lib : StdLib} {ω : Type} {calls : Callbacks ω} {behave : ℕ → ℤ → ℤ → ℤ × ℤ} {fsm : FsmT}

/-- What a function returns and leaves in `param->event` depends on the state and the event alone. -/
def DependsOnPair (calls : Callbacks ω) (behave : ℕ → ℤ → ℤ → ℤ × ℤ) : Prop :=
  ∀ function world state event, (calls function world state event).2 = behave function state event

/-- No switch is found for which a nil pointer would be called. -/
def HasFunctions (lib : StdLib) (fsm : FsmT) : Prop :=
  ∀ state event sw, fsmLookup lib fsm.node state event = some sw →
    orDefault sw.handler fsm.handler ≠ 0 ∧ orDefault sw.judge fsm.judge ≠ 0

/-- A turn on `fsm->state` and `param->event`: the value of the judge, and the pair after the turn. -/
def turnOn (lib : StdLib) (behave : ℕ → ℤ → ℤ → ℤ × ℤ) (fsm : FsmT) (pair : ℤ × ℤ) :
    Option (ℤ × ℤ × ℤ) :=
  (fsmLookup lib fsm.node pair.1 pair.2).map fun sw ↦
    let handled := behave (orDefault sw.handler fsm.handler) pair.1 pair.2
    let judged := behave (orDefault sw.judge fsm.judge) pair.1 handled.2
    (judged.1, if judged.1 = 0 then sw.state else pair.1, judged.2)

/-- A turn in which the judge returns zero. -/
def Accepted (lib : StdLib) (behave : ℕ → ℤ → ℤ → ℤ × ℤ) (fsm : FsmT) (pair pair' : ℤ × ℤ) : Prop :=
  turnOn lib behave fsm pair = some (0, pair')

/-- A turn in which it does not. -/
def Rejected (lib : StdLib) (behave : ℕ → ℤ → ℤ → ℤ × ℤ) (fsm : FsmT) (pair pair' : ℤ × ℤ) : Prop :=
  ∃ ret ≠ 0, turnOn lib behave fsm pair = some (ret, pair')

/-- A turn of either kind. -/
def Turn (lib : StdLib) (behave : ℕ → ℤ → ℤ → ℤ × ℤ) (fsm : FsmT) (pair pair' : ℤ × ℤ) : Prop :=
  Accepted lib behave fsm pair pair' ∨ Rejected lib behave fsm pair pair'

/-- The pair after a turn. -/
def nextPair (lib : StdLib) (behave : ℕ → ℤ → ℤ → ℤ × ℤ) (fsm : FsmT) (pair : ℤ × ℤ) :
    Option (ℤ × ℤ) :=
  (turnOn lib behave fsm pair).map Prod.snd

theorem next_iff_turn {pair pair' : ℤ × ℤ} :
    Steps.Next (nextPair lib behave fsm) pair pair' ↔ Turn lib behave fsm pair pair' := by
  rw [Steps.Next, nextPair, Option.map_eq_some_iff]
  constructor
  · rintro ⟨⟨ret, _⟩, hturn, rfl⟩
    by_cases hret : ret = 0
    · exact .inl (hret ▸ hturn)
    · exact .inr ⟨ret, hret, hturn⟩
  · rintro (haccepted | ⟨ret, -, hturn⟩)
    · exact ⟨_, haccepted, rfl⟩
    · exact ⟨_, hturn, rfl⟩

/-! ## The pairs with a switch -/

/-- A switch is found only for a state and an event of the table, and not for the invalid ones. -/
theorem fsmLookup_mem (hlib : lib.Correct) {arr : List FsmNode} {state event : ℤ} {sw : Switcher}
    (h : fsmLookup lib arr state event = some sw) :
    state ≠ invalidState ∧ event ≠ invalidEvent ∧
      ∃ node ∈ arr, node.state = state ∧ ∃ sw ∈ node.switcher, sw.event = event := by
  obtain ⟨node, hnode, hsw⟩ := Option.bind_eq_some_iff.mp h
  obtain ⟨hmem, hcmp⟩ := hlib.bsearch_some _ _ _ _ hnode
  obtain ⟨hmem', hcmp'⟩ := hlib.bsearch_some _ _ _ _ hsw
  obtain ⟨hstate, heq⟩ := (idCmp_eq_zero_iff state node.state).mp hcmp
  obtain ⟨hevent, heq'⟩ := (idCmp_eq_zero_iff event sw.event).mp hcmp'
  exact ⟨hstate, hevent, node, hmem, heq.symm, sw, hmem', heq'.symm⟩

/-- The pairs of the states and the events of a table. -/
def tablePairs (arr : List FsmNode) : List (ℤ × ℤ) :=
  arr.flatMap fun node ↦ node.switcher.map fun sw ↦ (node.state, sw.event)

theorem finite_nextPair (hlib : lib.Correct) :
    {pair | (nextPair lib behave fsm pair).isSome}.Finite := by
  refine (tablePairs fsm.node).finite_toSet.subset ?_
  intro pair hpair
  have hlookup : (fsmLookup lib fsm.node pair.1 pair.2).isSome := by
    simpa [nextPair, turnOn] using hpair
  obtain ⟨sw, hsw⟩ := Option.isSome_iff_exists.mp hlookup
  obtain ⟨-, -, node, hnode, hstate, sw', hsw', hevent⟩ := fsmLookup_mem hlib hsw
  exact List.mem_flatMap.mpr ⟨node, hnode, List.mem_map.mpr ⟨sw', hsw', by rw [hstate, hevent]⟩⟩

theorem nextPair_invalid (hlib : lib.Correct) {pair : ℤ × ℤ}
    (h : pair.1 = invalidState ∨ pair.2 = invalidEvent) : nextPair lib behave fsm pair = none := by
  have hnone : fsmLookup lib fsm.node pair.1 pair.2 = none := by
    rw [Option.eq_none_iff_forall_ne_some]
    intro sw hsw
    obtain ⟨hstate, hevent, -⟩ := fsmLookup_mem hlib hsw
    exact h.elim hstate hevent
  simp [nextPair, turnOn, hnone]

/-! ## Turns of a run -/

theorem callFunction_behaves (hcalls : DependsOnPair calls behave) {function : ℕ}
    (h : function ≠ 0) (r : Run ω) :
    ∃ r', callFunction calls function r = some ((behave function r.state r.event).1, r') ∧
      r'.state = r.state ∧ r'.event = (behave function r.state r.event).2 ∧ r'.ret = r.ret := by
  have hout := hcalls function r.world r.state r.event
  rw [callFunction, if_neg h, ← hout]
  exact ⟨_, rfl, rfl, rfl, rfl⟩

theorem fsmTurn_stops (calls : Callbacks ω) {r : Run ω}
    (h : nextPair lib behave fsm (r.state, r.event) = none) :
    ∃ r', fsmTurn lib calls fsm r = some r' ∧ r'.ret.isSome := by
  have hnone : fsmLookup lib fsm.node r.state r.event = none := by
    simpa [nextPair, turnOn] using h
  have hturn : fsmTurn lib calls fsm r =
      some { r with log := r.log ++ [.looked r.state r.event], ret := some (-2) } := by
    simp only [fsmTurn, hnone]
  exact ⟨_, hturn, rfl⟩

theorem fsmTurn_goes (hcalls : DependsOnPair calls behave) (hfun : HasFunctions lib fsm) {r : Run ω}
    {pair : ℤ × ℤ} (h : nextPair lib behave fsm (r.state, r.event) = some pair) :
    ∃ r', fsmTurn lib calls fsm r = some r' ∧ (r'.state, r'.event) = pair ∧
      r'.ret = if r'.state = invalidState then some 0 else r.ret := by
  obtain ⟨⟨ret, pair'⟩, hturn, hpair'⟩ := Option.map_eq_some_iff.mp h
  obtain ⟨sw, hlookup, hpair⟩ := Option.map_eq_some_iff.mp hturn
  obtain ⟨hhandler, hjudge⟩ := hfun _ _ _ hlookup
  obtain ⟨handled, hcall, hstate, hevent, hret⟩ := callFunction_behaves hcalls hhandler
    { r with log := r.log ++ [.looked r.state r.event] }
  obtain ⟨judged, hcall', hstate', hevent', hret'⟩ := callFunction_behaves hcalls hjudge handled
  rw [hstate, hevent] at hcall' hevent'
  obtain ⟨hzero, hpair⟩ := Prod.mk.inj hpair
  have hmoved : ((switchState ret sw judged).state, (switchState ret sw judged).event) = pair := by
    rw [← show pair' = pair from hpair', ← hpair, hzero, ← hevent', switchState]
    split
    · rfl
    · rw [hstate', hstate]
  have hkept : (switchState ret sw judged).ret = r.ret := by
    rw [switchState]
    split
    · exact hret'.trans hret
    · exact hret'.trans hret
  rw [fsmTurn]
  simp only [hlookup, hcall, hcall', hzero, Option.bind_eq_bind, Option.bind_some]
  split
  · next hfinal => exact ⟨_, rfl, hmoved, (if_pos hfinal).symm⟩
  · next hfinal => exact ⟨_, rfl, hmoved, hkept.trans (if_neg hfinal).symm⟩

/-! ## Runs -/

/-- A run is at the pair that so many steps lead to, or it has returned and the steps end. -/
def Follows (step : ℤ × ℤ → Option (ℤ × ℤ)) (start : ℤ × ℤ) (turns : ℕ) (r : Run ω) : Prop :=
  (r.ret = none → Steps.after step start turns = some (r.state, r.event) ∧ r.state ≠ invalidState) ∧
    (r.ret.isSome → ∃ count, Steps.after step start count = none)

theorem fsmRun_follows (hlib : lib.Correct) (hcalls : DependsOnPair calls behave)
    (hfun : HasFunctions lib fsm) (world : ω) (event : ℤ) (turns : ℕ) :
    ∃ r, fsmRun lib calls fsm world event turns = some r ∧
      Follows (nextPair lib behave fsm) (fsm.state, event) turns r := by
  induction turns with
  | zero =>
      rw [fsmRun]
      by_cases hinvalid : fsm.state = invalidState ∨ event = invalidEvent
      · rw [if_pos hinvalid]
        refine ⟨_, rfl, by simp, fun _ ↦ ⟨1, ?_⟩⟩
        exact nextPair_invalid hlib hinvalid
      · rw [if_neg hinvalid]
        exact ⟨_, rfl, fun _ ↦ ⟨rfl, fun hfinal ↦ hinvalid (.inl hfinal)⟩, by simp⟩
  | succ turns ih =>
      obtain ⟨r, hrun, hrunning, hreturned⟩ := ih
      rw [fsmRun, hrun, Option.bind_eq_bind, Option.bind_some]
      cases hret : r.ret with
      | some ret =>
          rw [hret] at hreturned
          exact ⟨r, rfl, by simp [hret], fun _ ↦ hreturned rfl⟩
      | none =>
          obtain ⟨hafter, -⟩ := hrunning hret
          have hstep : Steps.after (nextPair lib behave fsm) (fsm.state, event) (turns + 1) =
              nextPair lib behave fsm (r.state, r.event) := by
            rw [Steps.after, hafter, Option.bind_some]
          cases hnext : nextPair lib behave fsm (r.state, r.event) with
          | none =>
              obtain ⟨r', hturn, hstop⟩ := fsmTurn_stops calls hnext
              refine ⟨r', hturn, ?_, fun _ ↦ ⟨turns + 1, hstep.trans hnext⟩⟩
              intro hnone
              rw [hnone] at hstop
              cases hstop
          | some pair =>
              obtain ⟨r', hturn, hpair, hret'⟩ := fsmTurn_goes hcalls hfun hnext
              rw [hret] at hret'
              have hhere : Steps.after (nextPair lib behave fsm) (fsm.state, event) (turns + 1) =
                  some (r'.state, r'.event) := by rw [hstep, hnext, hpair]
              refine ⟨r', hturn, ?_, ?_⟩
              · intro hnone
                refine ⟨hhere, fun hfinal ↦ ?_⟩
                rw [hret', if_pos hfinal] at hnone
                cases hnone
              · intro hsome
                by_cases hfinal : r'.state = invalidState
                · refine ⟨turns + 2, ?_⟩
                  rw [Steps.after, hhere]
                  exact nextPair_invalid hlib (.inl hfinal)
                · rw [hret', if_neg hfinal] at hsome
                  cases hsome

/-- `fsm_run` returns just if no pair that it meets is met again. -/
theorem returns_iff_no_cycle (hlib : lib.Correct) (hcalls : DependsOnPair calls behave)
    (hfun : HasFunctions lib fsm) (world : ω) (event : ℤ) :
    (∃ turns r, fsmRun lib calls fsm world event turns = some r ∧ r.ret.isSome) ↔
      ∀ pair, ReflTransGen (Turn lib behave fsm) (fsm.state, event) pair →
        ¬ TransGen (Turn lib behave fsm) pair pair := by
  have hnext : Steps.Next (nextPair lib behave fsm) = Turn lib behave fsm := by
    funext pair pair'
    exact propext next_iff_turn
  rw [← hnext, ← Steps.stops_iff (finite_nextPair hlib)]
  constructor
  · rintro ⟨turns, r, hrun, hret⟩
    obtain ⟨r', hrun', -, hreturned⟩ := fsmRun_follows hlib hcalls hfun world event turns
    obtain rfl := Option.some.inj (hrun.symm.trans hrun')
    exact hreturned hret
  · rintro ⟨count, hstop⟩
    obtain ⟨r, hrun, hrunning, -⟩ := fsmRun_follows hlib hcalls hfun world event count
    refine ⟨count, r, hrun, ?_⟩
    by_contra hret
    rw [Option.not_isSome_iff_eq_none] at hret
    rw [(hrunning hret).1] at hstop
    cases hstop

/-- Over any table, sorted or not, with handlers and judges that depend on the state and the event
alone and whose accepted switches do not lead from a pair back to it: `fsm_run` returns just if no
pair that it meets is met again after a turn in which the judge rejected the switch. -/
theorem fsm_run_returns_iff (hlib : lib.Correct) (hcalls : DependsOnPair calls behave)
    (hfun : HasFunctions lib fsm)
    (hacyclic : ∀ pair, ¬ TransGen (Accepted lib behave fsm) pair pair) (world : ω) (event : ℤ) :
    (∃ turns r, fsmRun lib calls fsm world event turns = some r ∧ r.ret.isSome) ↔
      ∀ pair pair', ReflTransGen (Turn lib behave fsm) (fsm.state, event) pair →
        Rejected lib behave fsm pair pair' → ¬ ReflTransGen (Turn lib behave fsm) pair' pair := by
  rw [returns_iff_no_cycle hlib hcalls hfun]
  constructor
  · intro hnever pair pair' hreach hrejected hback
    exact hnever pair hreach (.head' (.inr hrejected) hback)
  · intro hnever pair hreach hcycle
    rcases Steps.transGen_or hcycle with haccepted | ⟨mid, mid', hto, hrejected, hfrom⟩
    · exact hacyclic pair haccepted
    · exact hnever mid mid' (hreach.trans hto) hrejected (hfrom.trans hto)

/-- A state that is left for the final one. -/
def offDecls : List NodeDecl := [⟨1, [⟨invalidState, 8, 12, 0⟩]⟩]

/-- The machine of `offDecls` with a default judge. -/
def offFsm (judge : ℕ) : FsmT := ⟨1, 5, judge, fsmNodeArrSort plainLib (nodeArr offDecls)⟩

/-- The function `7` is a judge that rejects every switch, and the others succeed. -/
def offBehave (function : ℕ) (_ event : ℤ) : ℤ × ℤ := (if function = 7 then -2 else 0, event)

def offCalls : Callbacks Unit := fun function _ state event ↦ ((), offBehave function state event)

theorem offFsm_functions {judge : ℕ} (hjudge : judge ≠ 0) : HasFunctions plainLib (offFsm judge) :=
  fun _ _ sw _ ↦ ⟨orDefault_ne_zero sw.handler (by decide : 5 ≠ 0), orDefault_ne_zero sw.judge hjudge⟩

theorem offFsm_lookup (judge : ℕ) {state event : ℤ} {sw : Switcher} :
    fsmLookup plainLib (offFsm judge).node state event = some sw ↔
      (state, event) = (1, 8) ∧ sw = ⟨invalidState, 8, 12, 0⟩ := by
  have hwf : WellFormed offDecls := by decide
  have hiff (hstate : state ≠ invalidState) :=
    fsmLookup_of_finalLast plainLib_correct hwf (by decide) hstate event sw
  constructor
  · intro h
    obtain ⟨decl, hdecl, rfl, hsw, rfl⟩ := (hiff (fsmLookup_mem plainLib_correct h).1).mp h
    obtain rfl := List.mem_singleton.mp hdecl
    obtain rfl := List.mem_singleton.mp hsw
    exact ⟨rfl, rfl⟩
  · rintro ⟨hpair, rfl⟩
    obtain ⟨rfl, rfl⟩ := Prod.mk.inj hpair
    exact (hiff (by decide)).mpr ⟨_, List.mem_singleton_self _, rfl, List.mem_singleton_self _, rfl⟩

/-- The only turn of the machine is that of the event `8` in the state `1`. -/
theorem offFsm_turnOn (judge : ℕ) {pair : ℤ × ℤ} {out : ℤ × ℤ × ℤ} :
    turnOn plainLib offBehave (offFsm judge) pair = some out ↔
      pair = (1, 8) ∧ (if judge = 7 then (-2, 1, 8) else (0, invalidState, 8)) = out := by
  have hfound := (offFsm_lookup judge).mpr ⟨rfl, rfl⟩
  have hjudge : orDefault 0 (offFsm judge).judge = judge := rfl
  have hturn : turnOn plainLib offBehave (offFsm judge) (1, 8) =
      some (if judge = 7 then (-2, 1, 8) else (0, invalidState, 8)) := by
    simp only [turnOn, hfound, Option.map_some, hjudge, offBehave]
    split
    · rfl
    · rfl
  constructor
  · intro h
    obtain ⟨sw, hlookup, -⟩ := Option.map_eq_some_iff.mp h
    obtain rfl : pair = (1, 8) := ((offFsm_lookup judge).mp hlookup).1
    exact ⟨rfl, Option.some.inj (hturn.symm.trans h)⟩
  · rintro ⟨rfl, rfl⟩
    exact hturn

/-- No accepted switch of the machine leads back. -/
theorem offFsm_acyclic (judge : ℕ) (pair : ℤ × ℤ) :
    ¬ TransGen (Accepted plainLib offBehave (offFsm judge)) pair pair := by
  have hfinal : ∀ pair', TransGen (Accepted plainLib offBehave (offFsm judge)) pair pair' →
      pair'.1 = invalidState := by
    intro pair' hpath
    obtain ⟨mid, -, hlast⟩ := TransGen.tail'_iff.mp hpath
    obtain ⟨-, hout⟩ := (offFsm_turnOn judge).mp hlast
    split at hout
    · cases hout
    · obtain rfl := (Prod.mk.inj hout).2
      rfl
  intro hcycle
  obtain ⟨mid, hfirst, -⟩ := TransGen.head'_iff.mp hcycle
  obtain ⟨rfl, -⟩ := (offFsm_turnOn judge).mp hfirst
  exact absurd (hfinal _ hcycle) (by decide)

theorem fsm_run_returns_iff_off :
    ∃ turns r, fsmRun plainLib offCalls (offFsm 6) () 8 turns = some r ∧ r.ret.isSome := by
  have hcalls : DependsOnPair offCalls offBehave := fun _ _ _ _ ↦ rfl
  refine (fsm_run_returns_iff plainLib_correct hcalls (offFsm_functions (by decide))
    (offFsm_acyclic 6) () 8).mpr ?_
  rintro pair pair' - ⟨ret, hret, hturn⟩
  obtain ⟨-, hout⟩ := (offFsm_turnOn 6).mp hturn
  exact absurd (Prod.mk.inj hout).1.symm hret

/-- A judge that rejects the switch and leaves the event as it is: the accepted switches have no
cycle, and `fsm_run` goes on in the same state with the same event for ever. -/
theorem fsm_run_rejected_forever :
    DependsOnPair offCalls offBehave ∧ HasFunctions plainLib (offFsm 7) ∧
      (∀ pair, ¬ TransGen (Accepted plainLib offBehave (offFsm 7)) pair pair) ∧
      ∀ turns, ∃ r, fsmRun plainLib offCalls (offFsm 7) () 8 turns = some r ∧
        r.state = 1 ∧ r.event = 8 ∧ r.ret = none := by
  have hcalls : DependsOnPair offCalls offBehave := fun _ _ _ _ ↦ rfl
  have hfun : HasFunctions plainLib (offFsm 7) := offFsm_functions (by decide)
  refine ⟨hcalls, hfun, offFsm_acyclic 7, fun turns ↦ ?_⟩
  have hafter : ∀ count,
      Steps.after (nextPair plainLib offBehave (offFsm 7)) (1, 8) count = some (1, 8) := by
    intro count
    induction count with
    | zero => rfl
    | succ count ih =>
        rw [Steps.after, ih]
        exact Option.map_eq_some_iff.mpr ⟨_, (offFsm_turnOn 7).mpr ⟨rfl, rfl⟩, rfl⟩
  obtain ⟨r, hrun, hrunning, hreturned⟩ := fsmRun_follows plainLib_correct hcalls hfun () 8 turns
  have hret : r.ret = none := by
    by_contra hne
    obtain ⟨count, hstop⟩ := hreturned (Option.isSome_iff_ne_none.mpr hne)
    have hgoes := hafter count
    rw [show ((1 : ℤ), (8 : ℤ)) = ((offFsm 7).state, 8) from rfl, hstop] at hgoes
    cases hgoes
  obtain ⟨hstate, hevent⟩ :=
    Prod.mk.inj (Option.some.inj ((hafter turns).symm.trans (hrunning hret).1))
  exact ⟨r, hrun, hstate.symm, hevent.symm, hret⟩

end CPractice.Fsm
