import CPractice.Lib.Monitor

/-!
# `BlockingQueue` of `BlockingQueue.h`

A `std::deque` under one mutex.  `put` never waits; `take` waits on `notEmpty_` while the queue is empty.
-/

namespace CPractice.BlockQueue.Unbounded

open Lib

inductive Op (α : Type) where
  | put (x : α)
  | take
  | size
  deriving DecidableEq

inductive Result (α : Type) where
  | done
  | elem (x : α)
  | num (value : ℕ)

variable {ι α : Type}

/-- The loop condition of an operation. -/
def blocks (queue : List α) : Op α → Bool
  | .take => queue.isEmpty
  | _ => false

/-- What an operation does behind its loop; `front` of an empty deque is undefined. -/
def body (queue : List α) : Op α → Option (Result α × List α)
  | .put x => some (.done, queue ++ [x])
  | .take => match queue with
      | [] => none
      | front :: rest => some (.elem front, rest)
  | .size => some (.num queue.length, queue)

/-- The queue and its one condition variable. -/
def monitor (α : Type) : Monitor (List α) (Op α) (Result α) Unit where
  blocks := blocks
  waitsOn
    | .take => some ()
    | _ => none
  body := body
  notifies
    | .put _ => some ()
    | _ => none

def machine (ι α : Type) [DecidableEq ι] :
    Machine (Monitor.State ι (List α) (Op α)) (Monitor.Call ι (Op α))
      (Monitor.Event (Op α) (Result α)) :=
  (monitor α).machine ι fun queue ↦ queue = []

instance [DecidableEq ι] [Fintype ι] [DecidableEq α] (s : Monitor.State ι (List α) (Op α))
    (call : Monitor.Call ι (Op α)) : Decidable ((machine ι α).ok s call) :=
  inferInstanceAs (Decidable ((monitor α).Ok s call))

/-! ## One operation -/

/-- The element that an operation put into the queue. -/
def putOf : Op α × Result α → Option α
  | (.put x, _) => some x
  | _ => none

/-- The element that an operation took out of the queue. -/
def takenOf : Op α × Result α → Option α
  | (_, .elem x) => some x
  | _ => none

theorem body_isSome {queue : List α} {op : Op α} (hready : blocks queue op = false) :
    (body queue op).isSome := by
  cases op with
  | take =>
      cases queue with
      | nil => cases hready
      | cons front rest => rfl
  | _ => rfl

theorem body_fifo {queue queue' : List α} {op : Op α} {result : Result α}
    (hbody : body queue op = some (result, queue')) :
    queue ++ (putOf (op, result)).toList = (takenOf (op, result)).toList ++ queue' := by
  cases op with
  | put x =>
      cases hbody
      rfl
  | take =>
      cases queue with
      | nil => cases hbody
      | cons front rest =>
          cases hbody
          exact List.append_nil _
  | size =>
      cases hbody
      exact List.append_nil _

/-- What was taken and what is left is what was put, in order. -/
theorem sequential_fifo {queue : List α} {log : List (Op α × Result α)}
    (htrace : ((monitor α).sequential fun queue ↦ queue = []).Trace queue log) :
    log.filterMap takenOf ++ queue = log.filterMap putOf := by
  induction htrace with
  | init hinit => exact hinit
  | @call queue queue' log op result _ _ hexec ih =>
      rw [List.filterMap_append, List.filterMap_append, ← ih, List.append_assoc, List.append_assoc]
      have hstep := body_fifo hexec
      congr 1
      rw [List.filterMap_cons, List.filterMap_cons, List.filterMap_nil, List.filterMap_nil]
      cases hput : putOf (op, result) <;> cases htaken : takenOf (op, result) <;>
        rw [hput, htaken] at hstep <;> exact hstep.symm

theorem metered (c : Unit) : (monitor α).Metered (fun queue ↦ queue = []) c List.length where
  blocks_iff {queue _ op} _ hc := by
    cases op with
    | take => exact List.isEmpty_iff.trans List.length_eq_zero_iff.symm
    | _ => cases hc
  body_room {queue queue' _ op result} _ _ hbody := by
    cases op with
    | put x =>
        cases hbody
        exact le_of_eq List.length_append
    | take =>
        cases queue with
        | nil => cases hbody
        | cons front rest =>
            cases hbody
            exact le_refl _
    | size =>
        cases hbody
        exact le_refl _

/-! ## The threads -/

section Threads

variable [DecidableEq ι] {s : Monitor.State ι (List α) (Op α)}
  {log : List (Monitor.Call ι (Op α) × Monitor.Event (Op α) (Result α))}

/-- In every reachable state what the threads have taken and what is left is what they have put, in the
order in which they held the mutex; no call faults, so no `take` reads an empty queue; the threads left
alone stop; and where none can go on, each is outside, or in a `take` with the queue empty. -/
theorem waits_for_elements [Fintype ι] (htrace : (machine ι α).Trace s log) :
    (Monitor.history log).filterMap takenOf ++ s.shared = (Monitor.history log).filterMap putOf ∧
      (∀ call, (machine ι α).ok s call → ((machine ι α).exec s call).isSome) ∧
      (∀ calls out, (∀ call ∈ calls, Monitor.Call.Own call) → (machine ι α).AllOk s calls →
        (machine ι α).execAll s calls = some out →
        calls.length ≤ Fintype.card ι * (2 * Fintype.card ι + 3)) ∧
      ((monitor α).Stuck s →
        ∀ t, s.threads t = .idle ∨ (s.threads t = .waiting .take ∧ s.shared = [])) := by
  refine ⟨sequential_fifo (Monitor.Trace.sequential htrace), ?_, ?_, ?_⟩
  · intro call hok
    exact Monitor.Trace.exec_isSome htrace (fun _ _ _ _ hready ↦ body_isSome hready) hok
  · intro calls out hown hok hexec
    have hsettles := Monitor.settles hown hok hexec
    have hwork := Monitor.work_le s
    omega
  · intro hstuck t
    have hwait : ∀ queue (op : Op α), (monitor α).blocks queue op = true →
        ((monitor α).waitsOn op).isSome := by
      intro queue op hblocks
      cases op with
      | take => rfl
      | _ => cases hblocks
    rcases Monitor.Trace.stuck hwait (fun c ↦ ⟨List.length, metered c⟩) htrace hstuck t with
      hidle | ⟨op, hop, hblocks⟩
    · exact .inl hidle
    · cases op with
      | take => exact .inr ⟨hop, List.isEmpty_iff.mp hblocks⟩
      | _ => cases hblocks

/-- A thread waits to take, is woken by a `put`, and loses the element to the thread that put it. -/
def pairCalls : List (Monitor.Call Bool (Op ℕ)) :=
  [.invoke false .take, .acquire false, .run false [], .invoke true (.put 7), .acquire true,
    .run true [false], .invoke true .take, .acquire true, .run true [], .acquire false, .run false []]

def pairStart : Monitor.State Bool (List ℕ) (Op ℕ) := ⟨[], none, fun _ ↦ .idle⟩

theorem pairStart_init : (machine Bool ℕ).init pairStart := ⟨rfl, rfl, fun _ ↦ rfl⟩

theorem pairCalls_run : ((machine Bool ℕ).execAll pairStart pairCalls).isSome := by
  with_unfolding_all decide

theorem pairCalls_ok : (machine Bool ℕ).AllOk pairStart pairCalls := by
  with_unfolding_all decide

def pairState : Monitor.State Bool (List ℕ) (Op ℕ) :=
  (((machine Bool ℕ).execAll pairStart pairCalls).get pairCalls_run).2

theorem pair_trace : (machine Bool ℕ).Trace pairState
    (((machine Bool ℕ).execAll pairStart pairCalls).get pairCalls_run).1 :=
  Machine.trace_execAll pairStart_init pairCalls_ok (Option.some_get _).symm

theorem pairState_threads : pairState.threads = fun t ↦ if t then .idle else .waiting .take := by
  funext t
  cases t with
  | false => with_unfolding_all rfl
  | true => with_unfolding_all rfl

theorem pairState_stuck : (monitor ℕ).Stuck pairState := by
  constructor
  · rintro t ⟨-, hwants⟩
    rw [pairState_threads] at hwants
    cases t <;> exact hwants
  · intro t wakes hrun
    rw [Monitor.Ok, pairState_threads] at hrun
    cases t <;> exact hrun

theorem waits_for_elements_pair :
    pairState.threads false = .waiting .take ∧
      ∀ t, pairState.threads t = .idle ∨
        (pairState.threads t = .waiting .take ∧ pairState.shared = []) :=
  ⟨congrFun pairState_threads false, (waits_for_elements pair_trace).2.2.2 pairState_stuck⟩

end Threads

end CPractice.BlockQueue.Unbounded
