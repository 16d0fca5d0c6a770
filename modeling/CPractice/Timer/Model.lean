import CPractice.Base
import CPractice.Lib.Refinement

/-!
# The timers of `lisk_timer.c`

A timer node is in one of five lists, by how far its time `trig` is from the clock of the timer.  An
accepted clock step turns the five hands, moves nodes to lower lists (`timer_cascade`), and
`timer_loop` then runs the front of list 0.

The memory of the nodes is a heap, and a list is the sequence of its nodes.  An erased node that was
not freed is in no list; its pointers are the magic numbers that `list_insert_front` looks for.  What
stands in front of a node on the stack is taken not to be these numbers.  The ring of erased nodes is
a queue with a bounded number of places, none if `ring_init` failed.  A freed node that is read, and
a loop that does not end, return `none`.
-/

namespace CPractice.Timer

open Lib

/-! ## Data -/

/-- `lisk_timer_node_t`. -/
structure TimerNode where
  trig : ℕ
  type : ℕ
  expire : ℕ
  arg : ℕ
  run : ℕ
  deriving DecidableEq

/-- `timer_key_t`; a `func` of 0 is `nil`. -/
structure TimerKey where
  type : ℕ
  expire : ℕ
  arg : ℕ
  func : ℕ
  deriving DecidableEq

/-- `lisk_timer_t`, with the nodes it points to and `g_cur_lisk_time`. -/
structure LiskTimer where
  time : ℕ
  clock : ℕ
  hand : ℕ → ℕ
  list : ℕ → List ℕ
  num : ℕ
  room : ℕ
  ring : List ℕ
  node : ℕ → Option TimerNode

def maxTimerLevel : ℕ := 5

/-- `MINIMUM_DIFF`. -/
def minimumDiff : ℕ := 10

def minExpire : ℕ := 1

def maxExpire : ℕ := 0xEFFFFFF

/-- `ETIMER_ONCE`. -/
def etimerOnce : ℕ := 1

/-- The array `limit` of `timer_update`. -/
def limit : ℕ → ℕ
  | 0 => 1000
  | 1 => 60
  | 2 => 60
  | 3 => 24
  | 4 => 31
  | _ => 0

/-- The array `ms_limit`: `MS`, `SECOND_MS`, `MINUTE_MS`, `HOUR_MS` and `DAY_MS`. -/
def msLimit : ℕ → ℕ
  | 0 => 1
  | 1 => 1000
  | 2 => 60000
  | 3 => 3600000
  | 4 => 86400000
  | _ => 0

/-! ## Lists -/

namespace LiskTimer

variable (t : LiskTimer)

/-- The node is in a list, so that its pointers are not the magic numbers. -/
def Linked (id : ℕ) : Prop := ∃ level < maxTimerLevel, id ∈ t.list level

instance (id : ℕ) : Decidable (t.Linked id) :=
  inferInstanceAs (Decidable (∃ level < maxTimerLevel, id ∈ t.list level))

def unlink (id : ℕ) : LiskTimer := { t with list := fun level ↦ (t.list level).filter (· ≠ id) }

/-- A content is stored in a node. -/
def write (id : ℕ) (content : TimerNode) : LiskTimer :=
  { t with node := Function.update t.node id (some content) }

end LiskTimer

/-- A node in front of another one of the list, or at its end. -/
def insertFront (pos : Option ℕ) (id : ℕ) (list : List ℕ) : List ℕ :=
  match pos with
  | none => list ++ [id]
  | some cur => list.takeWhile (· ≠ cur) ++ id :: list.dropWhile (· ≠ cur)

def LiskTimer.link (t : LiskTimer) (level : ℕ) (pos : Option ℕ) (id : ℕ) : LiskTimer :=
  { t with list := Function.update t.list level (insertFront pos id (t.list level)) }

/-- `list_erase` with `ELIST_ERASE_FULL` or without. -/
def listErase (t : LiskTimer) (id : ℕ) (full : Bool) : Option LiskTimer := do
  let _ ← t.node id
  let t := t.unlink id
  some (if full then { t with node := Function.update t.node id none } else t)

/-- The element behind `prev`, where `none` stands for the list itself. -/
def nextElem (list : List ℕ) : Option ℕ → Option ℕ
  | none => list.head?
  | some prev => (list.dropWhile (· ≠ prev)).tail.head?

/-- The element in front of a node. -/
def prevElem (list : List ℕ) (id : ℕ) : Option ℕ := (list.takeWhile (· ≠ id)).getLast?

/-! ## Inserting nodes -/

def cmpLiskTimerNode (first second : TimerNode) : ℤ :=
  if first.trig < second.trig then -1 else if second.trig < first.trig then 1 else 0

/-- The loop of `timer_list_insert`: the first node that is later than the element. -/
def listPos (node : ℕ → Option TimerNode) (elem : TimerNode) : List ℕ → Option (Option ℕ)
  | [] => some none
  | cur :: rest => do
      let content ← node cur
      if cmpLiskTimerNode elem content < 0 then some (some cur) else listPos node elem rest

/-- What `timer_ins_node` gets: with `flag` a node of a list, without it a content to be copied and
what `ALLOC` returns if it is called. -/
inductive Elem where
  | own (id : ℕ)
  | new (content : TimerNode) (alloc : Option ℕ)

/-- `list_insert_front` of an element that is not an erased node. -/
def insertCopy (t : LiskTimer) (level : ℕ) (pos : Option ℕ) (content : TimerNode) :
    Option ℕ → (ℤ × ℕ) × LiskTimer
  | none => ((-2, 0), t)
  | some id => ((0, id), (t.write id content).link level pos id)

/-- `timer_list_insert`, with the id of the node. -/
def timerListInsert (t : LiskTimer) (level : ℕ) : Elem → Option ((ℤ × ℕ) × LiskTimer)
  | .own id => do
      let content ← t.node id
      let pos ← listPos t.node content (t.list level)
      if t.Linked id then some ((0, id), (t.unlink id).link level pos id) else none
  | .new content alloc => do
      let pos ← listPos t.node content (t.list level)
      match t.ring with
      | [] => some (insertCopy { t with num := u4 (t.num + 1) } level pos content alloc)
      | old :: ring => do
          let _ ← t.node old
          let t := { t.write old content with ring := ring }
          if t.Linked old then some (insertCopy t level pos content alloc)
          else some ((0, old), t.link level pos old)

/-- The list of `timer_ins_node` for a time. -/
def insLevel (clock trig : ℕ) : ℕ :=
  let diff := trig - clock
  if trig ≤ clock then 0
  else if diff / msLimit 4 ≠ 0 then 4
  else if diff / msLimit 3 ≠ 0 then 3
  else if diff / msLimit 2 ≠ 0 then 2
  else if diff / msLimit 1 ≠ 0 then 1
  else 0

def Elem.content (t : LiskTimer) : Elem → Option TimerNode
  | .own id => t.node id
  | .new content _ => some content

def timerInsNode (t : LiskTimer) (elem : Elem) : Option ((ℤ × ℕ) × LiskTimer) := do
  let content ← elem.content t
  let out ← timerListInsert t (insLevel t.clock content.trig) elem
  some (if out.1.1 ≠ 0 then ((-2, 0), out.2) else out)

def timerDelNode (t : LiskTimer) (id : ℕ) : Option LiskTimer :=
  if t.ring.length < t.room then listErase { t with ring := t.ring ++ [id] } id false
  else listErase { t with num := u4Sub t.num 1 } id true

/-! ## Clock steps -/

/-- `guard` of `timer_cascade`. -/
def cascadeGuard (clock level : ℕ) (content : TimerNode) : Prop :=
  ¬ content.trig ≤ clock ∧ 1 ≤ (content.trig - clock) / msLimit level

instance (clock level : ℕ) (content : TimerNode) : Decidable (cascadeGuard clock level content) :=
  inferInstanceAs (Decidable (_ ∧ _))

/-- The loop of `timer_cascade`, which begins again at the front after each move. -/
def cascadeLoop (level : ℕ) : ℕ → LiskTimer → Option LiskTimer
  | 0, _ => none
  | turns + 1, t =>
      match t.list level with
      | [] => some t
      | cur :: _ => do
          let content ← t.node cur
          if cascadeGuard t.clock level content then some t
          else do
            let out ← timerInsNode t (.own cur)
            cascadeLoop level turns out.2

def timerCascade (t : LiskTimer) (level : ℕ) : Option (ℤ × LiskTimer) :=
  if level ≤ 0 ∨ maxTimerLevel ≤ level then some (-1, t)
  else (cascadeLoop level ((t.list level).length + 1) t).map fun t' ↦ (0, t')

/-- The first loop of `timer_update`: `inc` from the highest level down. -/
def incLoop : ℕ → ℕ → (ℕ → ℕ) → ℕ → ℕ
  | 0, _, inc => inc
  | idx + 1, diff, inc =>
      incLoop idx (diff % msLimit idx) (Function.update inc idx (diff / msLimit idx))

/-- One turn of its second loop, on `hand`, `inc` and `max_idx`. -/
def turnHand (state : (ℕ → ℕ) × (ℕ → ℕ) × ℕ) (idx : ℕ) : (ℕ → ℕ) × (ℕ → ℕ) × ℕ :=
  let (hand, inc, _) := state
  if inc idx ≠ 0 then
    let sum := hand idx + inc idx
    (Function.update hand idx (sum % limit idx),
      Function.update inc (idx + 1) (inc (idx + 1) + sum / limit idx), idx + 1)
  else state

/-- The hands and `max_idx` after a clock step. -/
def turnHands (hand : ℕ → ℕ) (diff : ℕ) : (ℕ → ℕ) × (ℕ → ℕ) × ℕ :=
  (List.range maxTimerLevel).foldl turnHand
    (hand, incLoop maxTimerLevel diff fun _ ↦ 0, 0)

/-- `PTR_OFFSET`. -/
def ptrOffset (a b : ℕ) : ℕ := if a < b then b - a else a - b

def timerUpdate (t : LiskTimer) : Option (ℤ × LiskTimer) :=
  let curClock := t.time / 1000
  let diff := u4 (ptrOffset curClock t.clock)
  if diff < minimumDiff then some (-2, t)
  else do
    let turned := turnHands t.hand diff
    let t := { t with clock := curClock, hand := turned.1 }
    let t ← (List.range' 1 (turned.2.2 - 1)).foldlM
      (fun t idx ↦ (timerCascade t idx).map Prod.snd) t
    some (0, t)

/-! ## The interface -/

/-- `timer_init` at a time, with the number of nodes that the ring holds. -/
def timerInit (usec room : ℕ) : LiskTimer :=
  ⟨usec, usec / 1000, fun _ ↦ 0, fun _ ↦ [], 0, room, [], fun _ ↦ none⟩

def timerAdd (t : LiskTimer) (key : TimerKey) (alloc : Option ℕ) :
    Option ((ℤ × ℕ) × LiskTimer) :=
  if key.expire < minExpire ∨ maxExpire < key.expire then some ((-1, 0), t)
  else if key.func = 0 then some ((-1, 0), t)
  else timerInsNode t (.new ⟨t.clock + key.expire, key.type, key.expire, key.arg, key.func⟩ alloc)

def timerDel (t : LiskTimer) (id : ℕ) : Option (ℤ × LiskTimer) :=
  if id = 0 then some (-1, t) else (timerDelNode t id).map fun t' ↦ (0, t')

/-- What a callback does: the timers it adds, each with what `ALLOC` would return, and its value. -/
structure Callback where
  adds : List (TimerKey × Option ℕ)
  ret : ℤ

/-- A timer added, with the value and the id that `timer_add` gives. -/
structure Added where
  key : TimerKey
  ret : ℤ
  id : ℕ
  deriving DecidableEq

/-- A callback that was run: the node at that time, and what the callback did. -/
structure Run where
  id : ℕ
  node : TimerNode
  adds : List Added
  ret : ℤ
  deriving DecidableEq

def runAdds (t : LiskTimer) : List (TimerKey × Option ℕ) → Option (List Added × LiskTimer)
  | [] => some ([], t)
  | (key, alloc) :: rest => do
      let out ← timerAdd t key alloc
      let more ← runAdds out.2 rest
      some (⟨key, out.1.1, out.1.2⟩ :: more.1, more.2)

/-- The body of the loop of `timer_loop` for a node that is due. -/
def runNode (t : LiskTimer) (id : ℕ) (content : TimerNode) (callback : Callback) :
    Option (Run × LiskTimer) := do
  let added ← runAdds t callback.adds
  let t := added.2
  let node ← t.node id
  let t ←
    if callback.ret = -3 ∨ node.type = etimerOnce then timerDelNode t id
    else do
      let t := t.write id { node with trig := t.clock + node.expire }
      let out ← timerInsNode t (.own id)
      some out.2
  some (⟨id, content, added.1, callback.ret⟩, t)

/-- A callback that does nothing. -/
def idleCallback : Callback := ⟨[], 0⟩

/-- The loop of `timer_loop` behind the element `prev` of list 0; `script` is what the callbacks do,
one after another. -/
def loopFrom : ℕ → Option ℕ → List Callback → LiskTimer → Option (List Run × LiskTimer)
  | 0, _, _, _ => none
  | turns + 1, prev, script, t =>
      match nextElem (t.list 0) prev with
      | none => some ([], t)
      | some id => do
          let content ← t.node id
          if t.clock < content.trig then some ([], t)
          else do
            let out ← runNode t id content (script.headD idleCallback)
            let more ← loopFrom turns (prevElem (t.list 0) id) script.tail out.2
            some (out.1 :: more.1, more.2)

/-- `timer_loop`, with the runs if the clock step is accepted. -/
def timerLoop (t : LiskTimer) (script : List Callback) :
    Option ((ℤ × Option (List Run)) × LiskTimer) :=
  if t.clock = 0 then some ((-1, none), t)
  else do
    let updated ← timerUpdate t
    if updated.1 ≠ 0 then some ((0, none), updated.2)
    else do
      let out ← loopFrom ((updated.2.list 0).length + 1) none script updated.2
      some ((0, some out.1), out.2)

end CPractice.Timer
