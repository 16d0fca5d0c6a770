import Mathlib.Data.Int.Order.Basic
import Mathlib.Data.List.Basic
import Mathlib.Order.RelClasses

/-!
# The state machine tables of `lisk_fsm.c`

A table is an array of nodes, one per state, and a node has an array of `MAX_SWITCH_NUM` switches
from events to next states.  The header's macros write the declared switches, a terminator and
zeros; `fsm_node_arr_sort` wipes what is behind the terminator and sorts both arrays so that
`fsm_run` can find a switch by binary search.

`qsort` and `bsearch` are parameters.  `INVALID_STATE` and `INVALID_EVENT` are `-1`, and pointers to
functions are numbers with `0` for `nil`.
-/

namespace CPractice.Fsm

/-- `MAX_SWITCH_NUM`. -/
def maxSwitchNum : ℕ := 13

/-- `INVALID_EVENT`. -/
def invalidEvent : ℤ := -1

/-- `INVALID_STATE`. -/
def invalidState : ℤ := -1

/-- `switcher_t`. -/
structure Switcher where
  state : ℤ
  event : ℤ
  handler : ℕ
  judge : ℕ
  deriving DecidableEq

/-- `fsm_node_t`. -/
structure FsmNode where
  state : ℤ
  switcher : List Switcher
  deriving DecidableEq

/-! ## The macros -/

/-- `FSM_NODE_BEGIN(state, name)` with its `FSM_SWITCH` lines. -/
structure NodeDecl where
  state : ℤ
  switches : List Switcher

/-- The entry of `FSM_NODE_END`. -/
def terminator : Switcher := ⟨invalidState, invalidEvent, 0, 0⟩

/-- The zeros of an initialiser that is too short. -/
def zeroSwitcher : Switcher := ⟨0, 0, 0, 0⟩

/-- The node a declaration stands for. -/
def NodeDecl.node (decl : NodeDecl) : FsmNode where
  state := decl.state
  switcher := decl.switches ++ terminator ::
    List.replicate (maxSwitchNum - (decl.switches.length + 1)) zeroSwitcher

/-- The entry of `FSM_NODE_ARR_END`. -/
def endNode : FsmNode := ⟨invalidState, List.replicate maxSwitchNum zeroSwitcher⟩

/-- `FSM_NODE_ARR_BEGIN` to `FSM_NODE_ARR_END`. -/
def nodeArr (decls : List NodeDecl) : List FsmNode := decls.map NodeDecl.node ++ [endNode]

/-! ## The library functions -/

/-- `qsort` and `bsearch` of `stdlib.h`, as functions of the comparison and the array. -/
structure StdLib where
  qsort : {α : Type} → (α → α → ℤ) → List α → List α
  bsearch : {α : Type} → (α → α → ℤ) → α → List α → Option α

/-- The elements that compare above the key, then those that compare equal, then those below. -/
def Partitioned {α : Type} (cmp : α → α → ℤ) (key : α) (arr : List α) : Prop :=
  arr.Pairwise fun a b ↦ (cmp key a < 0 → cmp key b < 0) ∧ (cmp key b > 0 → cmp key a > 0)

/-- A correct sort and a correct search: a comparison that orders the elements is respected, and an
element equal to the key is found in an array that is partitioned by the key. -/
structure StdLib.Correct (lib : StdLib) : Prop where
  qsort_perm : ∀ {α : Type} (cmp : α → α → ℤ) (arr : List α), (lib.qsort cmp arr).Perm arr
  qsort_sorted : ∀ {α : Type} (cmp : α → α → ℤ) (arr : List α),
    IsStrictWeakOrder α (fun a b ↦ cmp a b < 0) →
      (lib.qsort cmp arr).Pairwise fun a b ↦ ¬ cmp b a < 0
  bsearch_some : ∀ {α : Type} (cmp : α → α → ℤ) (key a : α) (arr : List α),
    lib.bsearch cmp key arr = some a → a ∈ arr ∧ cmp key a = 0
  bsearch_none : ∀ {α : Type} (cmp : α → α → ℤ) (key : α) (arr : List α),
    Partitioned cmp key arr → lib.bsearch cmp key arr = none → ∀ a ∈ arr, cmp key a ≠ 0

/-! ## `fsm_node_arr_sort` -/

/-- The comparison of two ids: the invalid one is above every other. -/
def idCmp (id0 id1 : ℤ) : ℤ :=
  if id0 = -1 then 1 else if id1 = -1 then -1 else if id1 < id0 then 1
  else if id0 < id1 then -1 else 0

/-- `switcher_cmp`. -/
def switcherCmp (switcher0 switcher1 : Switcher) : ℤ := idCmp switcher0.event switcher1.event

/-- `fsm_node_cmp`. -/
def fsmNodeCmp (node0 node1 : FsmNode) : ℤ := idCmp node0.state node1.state

/-- The inner loop of `fsm_node_arr_sort`; `done` is `IS_ZR(flag)`. -/
def clearSwitchers : Bool → List Switcher → List Switcher
  | _, [] => []
  | true, _ :: rest => ⟨invalidState, invalidEvent, 0, 0⟩ :: clearSwitchers true rest
  | false, sw :: rest => sw :: clearSwitchers (sw.state = invalidState) rest

def fsmNodeArrSort (lib : StdLib) (arr : List FsmNode) : List FsmNode :=
  (lib.qsort fsmNodeCmp arr).map fun node ↦
    { node with switcher := lib.qsort switcherCmp (clearSwitchers false node.switcher) }

/-! ## The lookup of `fsm_run` -/

/-- The two searches of `fsm_run`; the keys are locals of which only `state` or `event` is set. -/
def fsmLookup (lib : StdLib) (arr : List FsmNode) (state event : ℤ) : Option Switcher := do
  let node ← lib.bsearch fsmNodeCmp ⟨state, []⟩ arr
  lib.bsearch switcherCmp ⟨0, event, 0, 0⟩ node.switcher

/-! ## `fsm_run` -/

/-- `fsm_t`, with the default handler and judge. -/
structure FsmT where
  state : ℤ
  handler : ℕ
  judge : ℕ
  node : List FsmNode

/-- The functions behind the pointers: from the rest of the memory, `fsm->state` and `param->event`
to the memory, the value returned and the event left in `param->event`. -/
abbrev Callbacks (ω : Type) := ℕ → ω → ℤ → ℤ → ω × ℤ × ℤ

/-- What `fsm_run` does, in this order in a turn: it looks up a switch, calls functions and assigns
`fsm->state`. -/
inductive Action where
  | looked (state event : ℤ)
  | called (function : ℕ) (state event ret : ℤ)
  | moved (state : ℤ)
  deriving DecidableEq

/-- A run of `fsm_run` between two turns of its loop, or returned. -/
structure Run (ω : Type) where
  world : ω
  state : ℤ
  event : ℤ
  log : List Action
  ret : Option ℤ

section
variable {ω : Type} (lib : StdLib) (calls : Callbacks ω) (fsm : FsmT)

/-- A call through a pointer; a nil pointer faults. -/
def callFunction (function : ℕ) (r : Run ω) : Option (ℤ × Run ω) :=
  if function = 0 then none
  else
    let out := calls function r.world r.state r.event
    some (out.2.1, { r with
      world := out.1
      event := out.2.2
      log := r.log ++ [.called function r.state r.event out.2.1] })

/-- `handler` and `judge` of a switch, with the default for nil. -/
def orDefault (function default : ℕ) : ℕ := if function = 0 then default else function

/-- `fsm->state = pswitcher->state`, if the judge returned zero. -/
def switchState (ret : ℤ) (sw : Switcher) (r : Run ω) : Run ω :=
  if ret = 0 then { r with state := sw.state, log := r.log ++ [.moved sw.state] } else r

/-- A turn of the loop. -/
def fsmTurn (r : Run ω) : Option (Run ω) :=
  let r := { r with log := r.log ++ [.looked r.state r.event] }
  match fsmLookup lib fsm.node r.state r.event with
  | none => some { r with ret := some (-2) }
  | some sw => do
      let handled ← callFunction calls (orDefault sw.handler fsm.handler) r
      let judged ← callFunction calls (orDefault sw.judge fsm.judge) handled.2
      let r := switchState judged.1 sw judged.2
      if r.state = invalidState then some { r with ret := some 0 } else some r

/-- `fsm_run` up to a number of turns. -/
def fsmRun (world : ω) (event : ℤ) : ℕ → Option (Run ω)
  | 0 =>
      if fsm.state = invalidState ∨ event = invalidEvent then
        some ⟨world, fsm.state, event, [], some (-1)⟩
      else some ⟨world, fsm.state, event, [], none⟩
  | turns + 1 => do
      let r ← fsmRun world event turns
      if r.ret.isSome then some r else fsmTurn lib calls fsm r

end

end CPractice.Fsm
