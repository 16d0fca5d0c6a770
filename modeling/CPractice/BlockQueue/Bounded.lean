import CPractice.BlockQueue.CircularBuffer
import CPractice.Lib.Monitor

/-!
# `BoundedBlockingQueue` of `bounded_queue.h`

A `circular_buffer` under one mutex.  `put` waits on `notFull_` while the buffer is full and notifies
`notEmpty_`, `take` waits on `notEmpty_` while it is empty and notifies `notFull_`; both go on with an
assertion that the wait is over.  A buffer of capacity `maxSize` has `maxSize - 1` places: the threads see
a FIFO queue of that many, and where `maxSize` is one, which the constructor takes, no `put` or `take`
returns.
-/

namespace CPractice.BlockQueue

open Lib

inductive Op (α : Type) where
  | put (x : α)
  | take
  | empty
  | full
  | size
  | capacity
  deriving DecidableEq

inductive Result (α : Type) where
  | done
  | elem (x : α)
  | flag (value : Bool)
  | num (value : ℕ)
  deriving DecidableEq

/-- The condition variables. -/
inductive Cond where
  | notEmpty
  | notFull
  deriving DecidableEq

namespace Bounded

variable {ι α : Type}

/-- The loop condition of an operation. -/
def blocks (b : CircularBuffer α) : Op α → Bool
  | .put _ => b.full
  | .take => b.empty
  | _ => false

def waitsOn : Op α → Option Cond
  | .put _ => some .notFull
  | .take => some .notEmpty
  | _ => none

def notifies : Op α → Option Cond
  | .put _ => some .notEmpty
  | .take => some .notFull
  | _ => none

/-- What an operation does behind its loop, the assertion first. -/
def body [Inhabited α] (b : CircularBuffer α) : Op α → Option (Result α × CircularBuffer α)
  | .put x =>
      if !b.full then (b.pushBack x).map fun out ↦ (.done, out.2)
      else none
  | .take =>
      if !b.empty then b.front.map fun front ↦ (.elem front, b.popFront)
      else none
  | .empty => some (.flag b.empty, b)
  | .full => some (.flag b.full, b)
  | .size => some (.num b.size, b)
  | .capacity => some (.num b.capacity, b)

def monitor (α : Type) [Inhabited α] : Monitor (CircularBuffer α) (Op α) (Result α) Cond where
  blocks := blocks
  waitsOn := waitsOn
  body := body
  notifies := notifies

/-- The constructor: `maxSize` is converted to `size_t`. -/
def boundedBlockingQueue (α : Type) (maxSize : ℤ) : Option (CircularBuffer α) :=
  circularBuffer α (maxSize % 18446744073709551616).toNat

/-- The queue as its constructor leaves it. -/
def Start (maxSize : ℤ) (b : CircularBuffer α) : Prop :=
  -2147483648 ≤ maxSize ∧ maxSize < 2147483648 ∧ boundedBlockingQueue α maxSize = some b

def machine (ι α : Type) [DecidableEq ι] [Inhabited α] (maxSize : ℤ) :
    Machine (Monitor.State ι (CircularBuffer α) (Op α)) (Monitor.Call ι (Op α))
      (Monitor.Event (Op α) (Result α)) :=
  (monitor α).machine ι (Start maxSize)

instance [DecidableEq ι] [Fintype ι] [DecidableEq α] [Inhabited α] (maxSize : ℤ)
    (s : Monitor.State ι (CircularBuffer α) (Op α)) (call : Monitor.Call ι (Op α)) :
    Decidable ((machine ι α maxSize).ok s call) :=
  inferInstanceAs (Decidable ((monitor α).Ok s call))

/-! ## A FIFO queue of some places -/

def listExec (places : ℕ) (list : List α) : Op α → Option (Result α × List α)
  | .put x => some (.done, list ++ [x])
  | .take => match list with
      | [] => none
      | x :: rest => some (.elem x, rest)
  | .empty => some (.flag list.isEmpty, list)
  | .full => some (.flag (list.length == places), list)
  | .size => some (.num list.length, list)
  | .capacity => some (.num (places + 1), list)

/-- The queue that the threads are promised: a `put` has a place, and a `take` an element. -/
def fifo (α : Type) (places : ℕ) : Machine (List α) (Op α) (Result α) where
  init list := list = []
  ok list
    | .put _ => list.length < places
    | .take => list ≠ []
    | _ => True
  exec := listExec places

/-! ## One operation -/

section
variable [Inhabited α] {b : CircularBuffer α} {list : List α} {places : ℕ}

theorem body_spec (h : b.Repr list) (hcapacity : b.capacity = places + 1) {op : Op α}
    (hready : blocks b op = false) :
    ∃ result b' list', body b op = some (result, b') ∧ b'.Repr list' ∧ b'.capacity = places + 1 ∧
      (fifo α places).ok list op ∧ listExec places list op = some (result, list') := by
  cases op with
  | put x =>
      obtain ⟨b', hpush, hcap, hrepr⟩ := h.pushBack hready x
      refine ⟨.done, b', list ++ [x], ?_, hrepr, hcap.trans hcapacity, ?_, rfl⟩
      · rw [blocks] at hready
        rw [body, hready, hpush]
        rfl
      · have hroom := h.room
        have hne : list.length + 1 ≠ b.capacity := by
          intro heq
          rw [blocks, h.full_iff.mpr heq] at hready
          cases hready
        change list.length < places
        omega
  | take =>
      cases list with
      | nil =>
          rw [blocks, h.empty_iff.mpr rfl] at hready
          cases hready
      | cons x rest =>
          rw [blocks] at hready
          refine ⟨.elem x, b.popFront, rest, ?_, h.popFront, ?_, by simp [fifo], rfl⟩
          · rw [body, hready, h.front]
            rfl
          · rw [CircularBuffer.popFront_capacity, hcapacity]
  | empty =>
      refine ⟨.flag b.empty, b, list, rfl, h, hcapacity, trivial, ?_⟩
      have heq : b.empty = list.isEmpty := by
        rw [Bool.eq_iff_iff, h.empty_iff, List.isEmpty_iff]
      rw [heq, listExec]
  | full =>
      refine ⟨.flag b.full, b, list, rfl, h, hcapacity, trivial, ?_⟩
      have heq : b.full = (list.length == places) := by
        rw [Bool.eq_iff_iff, h.full_iff, hcapacity, beq_iff_eq]
        omega
      rw [heq, listExec]
  | size => exact ⟨.num b.size, b, list, rfl, h, hcapacity, trivial, by rw [h.size_eq, listExec]⟩
  | capacity =>
      exact ⟨.num b.capacity, b, list, rfl, h, hcapacity, trivial, by rw [hcapacity, listExec]⟩

omit [Inhabited α] in
/-- A queue that was constructed is empty, and `maxSize` was positive. -/
theorem start_spec {maxSize : ℤ} (hstart : Start maxSize b) :
    b.Repr [] ∧ b.capacity = (maxSize - 1).toNat + 1 ∧ 1 ≤ maxSize := by
  obtain ⟨hlow, hhigh, hnew⟩ := hstart
  obtain ⟨hrepr, hcapacity⟩ := CircularBuffer.repr_circularBuffer hnew
  have hpos := hrepr.capacity_pos
  have hfits := hrepr.fits
  rw [hcapacity] at hpos hfits ⊢
  exact ⟨hrepr, by omega, by omega⟩

/-- The operations without threads are those of a FIFO queue. -/
theorem sequential_spec {maxSize : ℤ} {log : List (Op α × Result α)}
    (htrace : ((monitor α).sequential (Start maxSize)).Trace b log) :
    ∃ list, b.Repr list ∧ b.capacity = (maxSize - 1).toNat + 1 ∧
      (fifo α (maxSize - 1).toNat).Trace list log := by
  induction htrace with
  | init hinit =>
      obtain ⟨hrepr, hcapacity, -⟩ := start_spec hinit
      exact ⟨[], hrepr, hcapacity, .init rfl⟩
  | call _ hok hexec ih =>
      obtain ⟨list, hrepr, hcapacity, hlist⟩ := ih
      obtain ⟨result, b', list', hbody, hrepr', hcapacity', hfits, hstep⟩ :=
        body_spec hrepr hcapacity hok
      cases (hbody.symm.trans hexec : some (result, b') = some _)
      exact ⟨list', hrepr', hcapacity', hlist.call hfits hstep⟩

/-- The number of operations on a condition variable that could go on. -/
def room (c : Cond) (b : CircularBuffer α) : ℕ :=
  match c with
  | .notEmpty => b.size
  | .notFull => b.capacity - 1 - b.size

theorem blocks_iff {maxSize : ℤ} {log : List (Op α × Result α)} {c : Cond} {op : Op α}
    (htrace : ((monitor α).sequential (Start maxSize)).Trace b log) (hc : waitsOn op = some c) :
    blocks b op = true ↔ room c b = 0 := by
  obtain ⟨list, hrepr, hcapacity, -⟩ := sequential_spec htrace
  have hroom := hrepr.room
  cases op with
  | put x =>
      cases hc
      rw [blocks, hrepr.full_iff, room, hrepr.size_eq]
      omega
  | take =>
      cases hc
      rw [blocks, hrepr.empty_iff, room, hrepr.size_eq, List.length_eq_zero_iff]
  | _ => cases hc

theorem body_room {maxSize : ℤ} {b' : CircularBuffer α} {log : List (Op α × Result α)} (c : Cond)
    {op : Op α} {result : Result α}
    (htrace : ((monitor α).sequential (Start maxSize)).Trace b log) (hready : blocks b op = false)
    (hbody : body b op = some (result, b')) :
    room c b' + (if waitsOn op = some c then 1 else 0) ≤
      room c b + if notifies op = some c then 1 else 0 := by
  obtain ⟨list, hrepr, hcapacity, -⟩ := sequential_spec htrace
  obtain ⟨result', b₁, list', hbody', hrepr', hcapacity', hfits, hstep⟩ :=
    body_spec hrepr hcapacity hready
  cases hbody.symm.trans hbody'
  have hlen := hrepr.size_eq
  have hlen' := hrepr'.size_eq
  have hroom := hrepr.room
  cases op with
  | put x =>
      cases hstep
      rw [List.length_append, List.length_singleton] at hlen'
      have hroom' := hrepr'.room
      rw [List.length_append, List.length_singleton] at hroom'
      cases c <;>
        simp only [room, waitsOn, notifies, Option.some.injEq, reduceCtorEq, if_true, if_false] <;>
        omega
  | take =>
      cases list with
      | nil => cases hstep
      | cons x rest =>
          cases hstep
          rw [List.length_cons] at hlen hroom
          cases c <;>
            simp only [room, waitsOn, notifies, Option.some.injEq, reduceCtorEq, if_true, if_false] <;>
            omega
  | _ =>
      cases hbody'
      exact le_refl _

theorem metered (maxSize : ℤ) (c : Cond) :
    (monitor α).Metered (Start maxSize) c (room c) where
  blocks_iff := blocks_iff
  body_room := body_room c

omit [Inhabited α] in
theorem waitsOn_of_blocks (op : Op α) (hblocks : blocks b op = true) : (waitsOn op).isSome := by
  cases op with
  | put x => rfl
  | take => rfl
  | _ => cases hblocks

end

/-! ## The threads -/

section Threads

variable [DecidableEq ι] [Inhabited α] {maxSize : ℤ} {s : Monitor.State ι (CircularBuffer α) (Op α)}
  {log : List (Monitor.Call ι (Op α) × Monitor.Event (Op α) (Result α))}

theorem body_isSome {b : CircularBuffer α} {log : List (Op α × Result α)}
    (htrace : ((monitor α).sequential (Start maxSize)).Trace b log) (op : Op α)
    (hready : (monitor α).blocks b op = false) : ((monitor α).body b op).isSome := by
  obtain ⟨list, hrepr, hcapacity, -⟩ := sequential_spec htrace
  obtain ⟨result, b', -, hbody, -⟩ := body_spec hrepr hcapacity hready
  exact Option.isSome_of_eq_some hbody

/-! ## Two threads on one place -/

/-- The queue of `maxSize` two, with nobody in it. -/
def pairStart : Monitor.State Bool (CircularBuffer ℕ) (Op ℕ) :=
  ⟨⟨fun _ ↦ none, 2, 0, 0⟩, none, fun _ ↦ .idle⟩

theorem pairStart_init : (machine Bool ℕ 2).init pairStart :=
  ⟨⟨by decide, by decide, by with_unfolding_all rfl⟩, rfl, fun _ ↦ rfl⟩

/-- A thread puts two elements, the second after another thread took the first, and waits to put a third. -/
def pairCalls : List (Monitor.Call Bool (Op ℕ)) :=
  [.invoke false (.put 7), .acquire false, .run false [],
    .invoke false (.put 8), .acquire false, .run false [],
    .invoke true .take, .acquire true, .run true [false],
    .acquire false, .run false [],
    .invoke false (.put 9), .acquire false, .run false []]

theorem pairCalls_run : ((machine Bool ℕ 2).execAll pairStart pairCalls).isSome := by
  with_unfolding_all decide

theorem pairCalls_ok : (machine Bool ℕ 2).AllOk pairStart pairCalls := by
  with_unfolding_all decide

def pairState : Monitor.State Bool (CircularBuffer ℕ) (Op ℕ) :=
  (((machine Bool ℕ 2).execAll pairStart pairCalls).get pairCalls_run).2

theorem pair_trace : (machine Bool ℕ 2).Trace pairState
    (((machine Bool ℕ 2).execAll pairStart pairCalls).get pairCalls_run).1 :=
  Machine.trace_execAll pairStart_init pairCalls_ok (Option.some_get _).symm

/-- In every reachable state the operations that have returned, in the order in which they held the
mutex, are those of a FIFO queue of `maxSize - 1` places, which the buffer holds; one thread at most is
inside; no assertion fails and no access leaves the array. -/
theorem linearizable (htrace : (machine ι α maxSize).Trace s log) :
    (∃ list, s.shared.Repr list ∧ (fifo α (maxSize - 1).toNat).Trace list (Monitor.history log)) ∧
      (∀ t u op op', s.threads t = .inside op → s.threads u = .inside op' → t = u) ∧
      ∀ call, (machine ι α maxSize).ok s call → ((machine ι α maxSize).exec s call).isSome := by
  obtain ⟨list, hrepr, -, hlist⟩ := sequential_spec (Monitor.Trace.sequential htrace)
  refine ⟨⟨list, hrepr, hlist⟩, ?_, ?_⟩
  · intro t u op op' ht hu
    have howner := (Monitor.Trace.inside_iff htrace t).mp ⟨op, ht⟩
    rw [(Monitor.Trace.inside_iff htrace u).mp ⟨op', hu⟩] at howner
    exact (Option.some.inj howner).symm
  · intro call hok
    exact Monitor.Trace.exec_isSome htrace (fun _ _ h op hready ↦ body_isSome h op hready) hok

theorem linearizable_pair :
    (∃ list, pairState.shared.Repr list ∧ (fifo ℕ 1).Trace list (Monitor.history
        (((machine Bool ℕ 2).execAll pairStart pairCalls).get pairCalls_run).1)) ∧
      (∀ t u op op', pairState.threads t = .inside op → pairState.threads u = .inside op' → t = u) ∧
      ∀ call, (machine Bool ℕ 2).ok pairState call → ((machine Bool ℕ 2).exec pairState call).isSome :=
  linearizable pair_trace

/-- Left alone, the threads stop; then each is outside, or in a `put` with the buffer full, or in a `take`
with it empty, and not two of them in one each where the queue has a place. -/
theorem progress [Fintype ι] (htrace : (machine ι α maxSize).Trace s log) :
    (∀ calls out, (∀ call ∈ calls, Monitor.Call.Own call) → (machine ι α maxSize).AllOk s calls →
        (machine ι α maxSize).execAll s calls = some out →
        calls.length ≤ Fintype.card ι * (2 * Fintype.card ι + 3)) ∧
      ((monitor α).Stuck s →
        (∀ t, s.threads t = .idle ∨
          (∃ x, s.threads t = .waiting (.put x) ∧ s.shared.full = true) ∨
          (s.threads t = .waiting .take ∧ s.shared.empty = true)) ∧
        (2 ≤ maxSize → ∀ t u x, s.threads t = .waiting (.put x) → s.threads u ≠ .waiting .take)) := by
  constructor
  · intro calls out hown hok hexec
    have hsettles := Monitor.settles hown hok hexec
    have hwork := Monitor.work_le s
    omega
  · intro hstuck
    have heach : ∀ t, s.threads t = .idle ∨
        ∃ op, s.threads t = .waiting op ∧ blocks s.shared op = true :=
      Monitor.Trace.stuck (fun _ op h ↦ waitsOn_of_blocks op h) (fun c ↦ ⟨room c, metered maxSize c⟩)
        htrace hstuck
    constructor
    · intro t
      rcases heach t with hidle | ⟨op, hop, hblocks⟩
      · exact .inl hidle
      · cases op with
        | put x => exact .inr (.inl ⟨x, hop, hblocks⟩)
        | take => exact .inr (.inr ⟨hop, hblocks⟩)
        | _ => cases hblocks
    · intro hsize t u x ht hu
      obtain ⟨list, hrepr, hcapacity, -⟩ := sequential_spec (Monitor.Trace.sequential htrace)
      have hfull : s.shared.full = true := by
        rcases heach t with hidle | ⟨op, hop, hblocks⟩
        · rw [ht] at hidle
          cases hidle
        · rw [ht] at hop
          cases hop
          exact hblocks
      have hempty : s.shared.empty = true := by
        rcases heach u with hidle | ⟨op, hop, hblocks⟩
        · rw [hu] at hidle
          cases hidle
        · rw [hu] at hop
          cases hop
          exact hblocks
      rw [hrepr.empty_iff] at hempty
      rw [hrepr.full_iff, hempty, List.length_nil] at hfull
      omega

theorem pairState_threads : pairState.threads = fun t ↦ if t then .idle else .waiting (.put 9) := by
  funext t
  cases t with
  | false => with_unfolding_all rfl
  | true => with_unfolding_all rfl

theorem pairState_stuck : (monitor ℕ).Stuck pairState := by
  constructor
  · rintro t ⟨-, hwants⟩
    rw [pairState_threads] at hwants
    cases t <;> exact hwants
  · intro t wakes hrun
    rw [Monitor.Ok, pairState_threads] at hrun
    cases t <;> exact hrun

/-- Both threads stopped, one of them in a `put` with the buffer full. -/
theorem progress_pair :
    (∀ t, pairState.threads t = .idle ∨
        (∃ x, pairState.threads t = .waiting (.put x) ∧ pairState.shared.full = true) ∨
        (pairState.threads t = .waiting .take ∧ pairState.shared.empty = true)) ∧
      pairState.threads false = .waiting (.put 9) ∧
      ∀ t u x, pairState.threads t = .waiting (.put x) → pairState.threads u ≠ .waiting .take :=
  ⟨((progress pair_trace).2 pairState_stuck).1, congrFun pairState_threads false,
    ((progress pair_trace).2 pairState_stuck).2 le_rfl⟩

/-- An operation that moves an element. -/
def Op.Moves : Op α → Prop
  | .put _ | .take => True
  | _ => False

omit [DecidableEq ι] [Inhabited α] in
theorem fifo_zero {list : List α} {log : List (Op α × Result α)} (htrace : (fifo α 0).Trace list log) :
    list = [] ∧ ∀ entry ∈ log, ¬ Op.Moves entry.1 := by
  induction htrace with
  | init h => exact ⟨h, fun entry hentry ↦ absurd hentry (by simp)⟩
  | @call list list' log op result _ hok hexec ih =>
      obtain ⟨rfl, hlog⟩ := ih
      cases op with
      | put x => exact absurd (show ([] : List α).length < 0 from hok) (by simp)
      | take => exact absurd rfl hok
      | _ =>
          cases hexec
          refine ⟨rfl, fun entry hentry ↦ ?_⟩
          rcases List.mem_append.mp hentry with hold | hnew
          · exact hlog entry hold
          · rw [List.mem_singleton.mp hnew]
            exact id

/-- A queue of `maxSize` one, which is constructed without an error, has no place: no `put` and no `take`
ever returns. -/
theorem one_place (htrace : (machine ι α 1).Trace s log) :
    ∀ entry ∈ Monitor.history log, ¬ Op.Moves entry.1 := by
  obtain ⟨list, -, -, hlist⟩ := sequential_spec (Monitor.Trace.sequential htrace)
  exact (fifo_zero hlist).2

/-- The queue of `maxSize` one. -/
def oneStart : Monitor.State Bool (CircularBuffer ℕ) (Op ℕ) :=
  ⟨⟨fun _ ↦ none, 1, 0, 0⟩, none, fun _ ↦ .idle⟩

theorem oneStart_init : (machine Bool ℕ 1).init oneStart :=
  ⟨⟨by decide, by decide, by with_unfolding_all rfl⟩, rfl, fun _ ↦ rfl⟩

/-- A `put` and a `take` both wait, and the size is asked for. -/
def oneCalls : List (Monitor.Call Bool (Op ℕ)) :=
  [.invoke false (.put 7), .acquire false, .run false [], .invoke true .size, .acquire true,
    .run true [], .invoke true .take, .acquire true, .run true [false]]

theorem oneCalls_run : ((machine Bool ℕ 1).execAll oneStart oneCalls).isSome := by
  with_unfolding_all decide

theorem one_place_pair :
    (Monitor.history (((machine Bool ℕ 1).execAll oneStart oneCalls).get oneCalls_run).1).length = 1 ∧
      ∀ entry ∈ Monitor.history (((machine Bool ℕ 1).execAll oneStart oneCalls).get oneCalls_run).1,
        ¬ Op.Moves entry.1 :=
  ⟨by with_unfolding_all rfl, one_place (Machine.trace_execAll oneStart_init
    (by with_unfolding_all decide) (Option.some_get oneCalls_run).symm)⟩

end Threads

end Bounded

end CPractice.BlockQueue
