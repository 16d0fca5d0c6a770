import CPractice.Base
import CPractice.Lib.Refinement

/-!
# The coroutine scheduler of `coroutine.c`

The coroutines of a schedule run on one stack, the array `stack` of the schedule.  When one yields, the
part of it that is in use, from a local variable to the top, is copied into a buffer of the coroutine, and
copied back when the coroutine is resumed.

The stack and the buffers are bytes by offset.  `swapcontext` and the return from `mainfunc` change who
runs: `here` is the coroutine whose frames are on the stack, `none` while the main function runs.  While a
coroutine runs it may write what it likes to the stack.  A failed assertion, an access outside the array of
coroutines or a buffer, and an overflow of an `int` are faults.
-/

namespace CPractice.Scheduler

open Lib

/-- `STACK_SIZE`. -/
def stackSize : ℕ := 1024 * 1024

/-- `DEFAULT_COROUTINE`. -/
def defaultCoroutine : ℕ := 16

inductive Status where
  | dead
  | ready
  | running
  | suspend
  deriving DecidableEq

/-- `struct coroutine`: `func` is the function with its argument, `stack` the buffer of `crCap` bytes. -/
structure Coroutine (φ : Type) where
  func : φ
  crCap : ℕ
  size : ℕ
  status : Status
  stack : ℕ → UInt8

/-- `struct schedule`. -/
structure Schedule (φ : Type) where
  stack : ℕ → UInt8
  running : ℤ
  crNum : ℤ
  crCap : ℕ
  co : List (Option (Coroutine φ))

variable {φ : Type}

/-! ## The array of coroutines -/

/-- A read of `S->co[id]`. -/
def slot (S : Schedule φ) (id : ℤ) : Option (Option (Coroutine φ)) :=
  if 0 ≤ id then S.co[id.toNat]? else none

/-- A store to `S->co[id]`. -/
def setSlot (S : Schedule φ) (id : ℤ) (C : Option (Coroutine φ)) : Option (Schedule φ) :=
  if 0 ≤ id ∧ id.toNat < S.co.length then some { S with co := S.co.set id.toNat C } else none

/-! ## The functions -/

/-- `_co_new`. -/
def coNew (func : φ) : Coroutine φ := ⟨func, 0, 0, .ready, fun _ ↦ 0⟩

/-- `coroutine_open`; `stack` is what the memory of the stack holds. -/
def coroutineOpen (stack : ℕ → UInt8) : Schedule φ :=
  { stack := stack
    running := -1
    crNum := 0
    crCap := defaultCoroutine
    co := List.replicate defaultCoroutine none }

/-- The loop of `coroutine_new` from turn `i` on; behind it stands `assert(0)`. -/
def freeSlot (S : Schedule φ) (i : ℕ) : ℕ → Option ℤ
  | 0 => none
  | turns + 1 =>
      let id := Int.tmod (i + S.crNum) S.crCap
      match slot S id with
      | none => none
      | some none => some id
      | some (some _) => freeSlot S (i + 1) turns

/-- `coroutine_new`; `realloc` and `memset` put as many nil slots behind the array as it has. -/
def coroutineNew (S : Schedule φ) (func : φ) : Option (ℤ × Schedule φ) :=
  if S.crNum ≥ S.crCap then
    if 2147483648 ≤ S.crCap * 2 then none
    else do
      let S' ← setSlot { S with co := S.co ++ List.replicate S.crCap none } S.crCap
        (some (coNew func))
      some (S.crCap, { S' with crCap := S.crCap * 2, crNum := S.crNum + 1 })
  else do
    let id ← freeSlot S 0 S.crCap
    let S ← setSlot S id (some (coNew func))
    some (id, { S with crNum := S.crNum + 1 })

/-- The end of `mainfunc`, behind the call of the function. -/
def mainfuncReturn (S : Schedule φ) (id : ℤ) : Option (Schedule φ) :=
  match slot S id with
  | some (some _) => (setSlot S id none).map fun S ↦ { S with crNum := S.crNum - 1, running := -1 }
  | _ => none

/-- The copy of a suspended coroutine's buffer to the top of the stack. -/
def restoreStack (S : Schedule φ) (C : Coroutine φ) : Option (Schedule φ) :=
  if C.size ≤ C.crCap ∧ C.size ≤ stackSize then
    some { S with stack := fun k ↦
      if stackSize - C.size ≤ k ∧ k < stackSize then C.stack (k - (stackSize - C.size))
      else S.stack k }
  else none

/-- `coroutine_resume` up to `swapcontext`: whether it switches to the coroutine. -/
def coroutineResume (S : Schedule φ) (id : ℤ) : Option (Bool × Schedule φ) :=
  if S.running = -1 ∧ 0 ≤ id ∧ id < S.crCap then
    match slot S id with
    | none => none
    | some none => some (false, S)
    | some (some C) =>
        match C.status with
        | .ready => (setSlot S id (some { C with status := .running })).map fun S ↦
            (true, { S with running := id })
        | .suspend => do
            let S ← restoreStack S C
            let S ← setSlot S id (some { C with status := .running })
            some (true, { S with running := id })
        | _ => none
  else none

/-- `_save_stack` of a stack of which the last `depth` bytes are in use. -/
def saveStack (S : Schedule φ) (C : Coroutine φ) (depth : ℕ) : Coroutine φ :=
  { C with
    crCap := if C.crCap < depth then depth else C.crCap
    size := depth
    stack := fun k ↦ if k < depth then S.stack (stackSize - depth + k) else C.stack k }

/-- `coroutine_yield` up to `swapcontext`: the coroutine that it leaves.  Its frame begins `frame` bytes
below the top of the stack, that of `_save_stack` `depth` bytes. -/
def coroutineYield (S : Schedule φ) (frame depth : ℕ) : Option (ℤ × Schedule φ) :=
  if 0 ≤ S.running then
    match slot S S.running with
    | some (some C) =>
        if frame < stackSize ∧ depth ≤ stackSize then
          (setSlot S S.running (some { saveStack S C depth with status := .suspend })).map fun S' ↦
            (S.running, { S' with running := -1 })
        else none
    | _ => none
  else none

/-- `coroutine_status`. -/
def coroutineStatus (S : Schedule φ) (id : ℤ) : Option Status :=
  if 0 ≤ id ∧ id < S.crCap then
    match slot S id with
    | none => none
    | some none => some .dead
    | some (some C) => some C.status
  else none

/-- `coroutine_running`. -/
def coroutineRunning (S : Schedule φ) : ℤ := S.running

/-- `coroutine_close`: the functions of the coroutines that it deletes. -/
def coroutineClose (S : Schedule φ) : List φ := S.co.filterMap fun C ↦ C.map Coroutine.func

/-! ## The scheduler as a machine -/

/-- A schedule and who runs. -/
structure State (φ : Type) where
  sched : Schedule φ
  here : Option ℤ

/-- The calls, by whoever runs; `write` is what a coroutine does to the stack between them, and `finish` the
return of its function. -/
inductive Call (φ : Type) where
  | new (func : φ)
  | resume (id : ℤ)
  | yield (frame depth : ℕ)
  | finish
  | write (stack : ℕ → UInt8)
  | status (id : ℤ)
  | running

inductive Result where
  | created (id : ℤ)
  | entered (id : ℤ)
  | absent (id : ℤ)
  | left (id : ℤ)
  | ended (id : ℤ)
  | status (status : Status)
  | running (id : ℤ)
  | done
  deriving DecidableEq

def exec (s : State φ) : Call φ → Option (Result × State φ)
  | .new func => (coroutineNew s.sched func).map fun out ↦ (.created out.1, { s with sched := out.2 })
  | .resume id => (coroutineResume s.sched id).map fun out ↦
      if out.1 then (.entered id, ⟨out.2, some id⟩) else (.absent id, { s with sched := out.2 })
  | .yield frame depth => (coroutineYield s.sched frame depth).map fun out ↦
      (.left out.1, ⟨out.2, none⟩)
  | .finish => s.here.bind fun id ↦ (mainfuncReturn s.sched id).map fun S ↦ (.ended id, ⟨S, none⟩)
  | .write stack => some (.done, { s with sched := { s.sched with stack := stack } })
  | .status id => (coroutineStatus s.sched id).map fun status ↦ (.status status, s)
  | .running => some (.running (coroutineRunning s.sched), s)

/-- Only a coroutine returns from its function, or writes to the stack of the schedule. -/
def machine (φ : Type) : Machine (State φ) (Call φ) Result where
  init s := ∃ stack, s = ⟨coroutineOpen stack, none⟩
  ok s
    | .finish | .write _ => s.here.isSome
    | _ => True
  exec := exec

instance (s : State φ) : (call : Call φ) → Decidable ((machine φ).ok s call)
  | .finish | .write _ => inferInstanceAs (Decidable (s.here.isSome = true))
  | .new _ | .resume _ | .yield _ _ | .status _ | .running => isTrue trivial

end CPractice.Scheduler
