import CPractice.Base
import CPractice.Lib.Refinement

/-!
# The bounded queue of `mpmc-bounded-queue.hpp`

Any number of threads run `enqueue` and `dequeue` on one queue.  A thread is a program counter with its
locals; each load and store of a sequence number, each compare-and-swap, each copy of the data and each
change of `_queue_size` is one atomic step, and the steps of the threads interleave in any order.  A
weak compare-and-swap may fail without a reason; that is a choice of the step.

The sequence numbers are `size_t` and wrap.  The data of a node is not constructed before the first
store, and a copy of such data faults, as does an index past the buffer.

A sequence number drawn by a compare-and-swap is the ticket of its operation.  The events of a run say
which tickets were drawn, published and released, and `History` collects them.
-/

namespace CPractice.MpmcQueue

open Lib

/-! ## The queue -/

/-- `node_t`. -/
structure NodeT (α : Type) where
  data : Option α
  seq : ℕ

/-- `mpmc_bounded_queue_t`. -/
structure Queue (α : Type) where
  size : ℕ
  mask : ℕ
  buffer : ℕ → NodeT α
  headSeq : ℕ
  queueSize : ℤ
  tailSeq : ℕ

variable {ι α : Type}

/-- The constructor; `none` is the failed assertion.  `~_size + 1` is the negation on `size_t`. -/
def mpmcInit (size : ℕ) : Option (Queue α) :=
  if size ≠ 0 ∧ size &&& u8Sub 0 size = size then
    some ⟨size, u8Sub size 1, fun i ↦ ⟨none, i⟩, 0, 0, 0⟩
  else none

/-- `intptr_t`: reduction to a signed word of 64 bits. -/
def intptr (n : ℤ) : ℤ := Int.bmod n 18446744073709551616

/-- `(intptr_t) node_seq - (intptr_t) seq`. -/
def dif (nodeSeq seq : ℕ) : ℤ := intptr (intptr nodeSeq - intptr seq)

/-- `&_buffer[seq & _mask]`, which must lie in the buffer. -/
def nodeAt (q : Queue α) (seq : ℕ) : Option (ℕ × NodeT α) :=
  if seq &&& q.mask < q.size then some (seq &&& q.mask, q.buffer (seq &&& q.mask)) else none

/-- A store to a node. -/
def setNode (q : Queue α) (index : ℕ) (node : NodeT α) : Queue α :=
  { q with buffer := Function.update q.buffer index node }

/-- `_queue_size` changed by `delta`, on `int`. -/
def count (q : Queue α) (delta : ℤ) : Queue α :=
  { q with queueSize := Int.bmod (q.queueSize + delta) 4294967296 }

/-! ## Threads -/

/-- Where a thread is: the next atomic step, and the locals it needs. -/
inductive Pc (α : Type) where
  | idle
  | enqLoad (data : α)
  | enqLoop (data : α) (headSeq : ℕ)
  | enqTest (data : α) (headSeq nodeSeq : ℕ)
  | enqStore (data : α) (headSeq : ℕ)
  | enqPublish (data : α) (headSeq : ℕ)
  | enqCount (data : α)
  | deqLoad
  | deqLoop (tailSeq : ℕ)
  | deqTest (tailSeq nodeSeq : ℕ)
  | deqCopy (tailSeq : ℕ)
  | deqRelease (tailSeq : ℕ) (data : α)
  | deqCount (data : α)
  deriving DecidableEq

/-- What a step shows: a ticket drawn, published or released, or a return. -/
inductive Event (α : Type) where
  | silent
  | claimed (data : α)
  | published (headSeq : ℕ)
  | taken
  | released (tailSeq : ℕ) (data : α)
  | enqReturn (data : α) (done : Bool)
  | deqReturn (data : Option α)
  | size (count : ℤ)
  deriving DecidableEq

/-- The next step of `enqueue`. -/
def stepEnqueue (q : Queue α) (weak : Bool) : Pc α → Option (Event α × Queue α × Pc α)
  | .enqLoad data => some (.silent, q, .enqLoop data q.headSeq)
  | .enqLoop data headSeq => do
      let node ← nodeAt q headSeq
      some (.silent, q, .enqTest data headSeq node.2.seq)
  | .enqTest data headSeq nodeSeq =>
      if dif nodeSeq headSeq = 0 then
        if q.headSeq = headSeq ∧ weak = false then
          some (.claimed data, { q with headSeq := u8 (headSeq + 1) }, .enqStore data headSeq)
        else some (.silent, q, .enqLoop data q.headSeq)
      else if dif nodeSeq headSeq < 0 then some (.enqReturn data false, q, .idle)
      else some (.silent, q, .enqLoop data q.headSeq)
  | .enqStore data headSeq => do
      let node ← nodeAt q headSeq
      some (.silent, setNode q node.1 { node.2 with data := some data }, .enqPublish data headSeq)
  | .enqPublish data headSeq => do
      let node ← nodeAt q headSeq
      some (.published headSeq, setNode q node.1 { node.2 with seq := u8 (headSeq + 1) },
        .enqCount data)
  | .enqCount data => some (.enqReturn data true, count q 1, .idle)
  | _ => none

/-- The next step of `dequeue`. -/
def stepDequeue (q : Queue α) (weak : Bool) : Pc α → Option (Event α × Queue α × Pc α)
  | .deqLoad => some (.silent, q, .deqLoop q.tailSeq)
  | .deqLoop tailSeq => do
      let node ← nodeAt q tailSeq
      some (.silent, q, .deqTest tailSeq node.2.seq)
  | .deqTest tailSeq nodeSeq =>
      if dif nodeSeq (u8 (tailSeq + 1)) = 0 then
        if q.tailSeq = tailSeq ∧ weak = false then
          some (.taken, { q with tailSeq := u8 (tailSeq + 1) }, .deqCopy tailSeq)
        else some (.silent, q, .deqLoop q.tailSeq)
      else if dif nodeSeq (u8 (tailSeq + 1)) < 0 then some (.deqReturn none, q, .idle)
      else some (.silent, q, .deqLoop q.tailSeq)
  | .deqCopy tailSeq => do
      let node ← nodeAt q tailSeq
      let data ← node.2.data
      some (.silent, q, .deqRelease tailSeq data)
  | .deqRelease tailSeq data => do
      let node ← nodeAt q tailSeq
      some (.released tailSeq data,
        setNode q node.1 { node.2 with seq := u8 (u8 (tailSeq + q.mask) + 1) }, .deqCount data)
  | .deqCount data => some (.deqReturn (some data), count q (-1), .idle)
  | _ => none

def step (q : Queue α) (weak : Bool) (pc : Pc α) : Option (Event α × Queue α × Pc α) :=
  stepEnqueue q weak pc <|> stepDequeue q weak pc

/-! ## Runs -/

structure State (ι α : Type) where
  queue : Queue α
  threads : ι → Pc α

/-- A thread enters an operation, or takes its next step; `size` is one load. -/
inductive Call (ι α : Type) where
  | enqueue (thread : ι) (data : α)
  | dequeue (thread : ι)
  | size (thread : ι)
  | step (thread : ι) (weak : Bool)

def Call.thread : Call ι α → ι
  | .enqueue thread _ => thread
  | .dequeue thread => thread
  | .size thread => thread
  | .step thread _ => thread

variable [DecidableEq ι]

def exec (s : State ι α) : Call ι α → Option (Event α × State ι α)
  | .enqueue thread data =>
      some (.silent, ⟨s.queue, Function.update s.threads thread (.enqLoad data)⟩)
  | .dequeue thread => some (.silent, ⟨s.queue, Function.update s.threads thread .deqLoad⟩)
  | .size _ => some (.size s.queue.queueSize, s)
  | .step thread weak =>
      (step s.queue weak (s.threads thread)).map fun out ↦
        (out.1, ⟨out.2.1, Function.update s.threads thread out.2.2⟩)

/-- A thread is in one operation at a time. -/
def Enabled (s : State ι α) : Call ι α → Prop
  | .step thread _ => s.threads thread ≠ .idle
  | call => s.threads call.thread = .idle

instance [DecidableEq α] (s : State ι α) (call : Call ι α) : Decidable (Enabled s call) :=
  match call with
  | .step thread _ => inferInstanceAs (Decidable (s.threads thread ≠ .idle))
  | .enqueue thread _ => inferInstanceAs (Decidable (s.threads thread = .idle))
  | .dequeue thread => inferInstanceAs (Decidable (s.threads thread = .idle))
  | .size thread => inferInstanceAs (Decidable (s.threads thread = .idle))

/-- The queue in a run that draws fewer than `2 ^ 63` tickets: with this many, and one lap ahead, the
signed difference of two sequence numbers is their difference. -/
def machine (ι α : Type) [DecidableEq ι] (size : ℕ) : Machine (State ι α) (Call ι α) (Event α) where
  init s := mpmcInit size = some s.queue ∧ ∀ thread, s.threads thread = .idle
  ok s call := Enabled s call ∧ s.queue.headSeq + s.queue.size < 9223372036854775808
  exec := exec

instance [DecidableEq α] (size : ℕ) (s : State ι α) (call : Call ι α) :
    Decidable ((machine ι α size).ok s call) :=
  inferInstanceAs (Decidable (_ ∧ _))

/-! ## Histories -/

/-- The elements in the order of their tickets, the tickets published, the number of tickets drawn by
`dequeue`, and the tickets released, with the element that was copied out. -/
structure History (α : Type) where
  enqueued : List α
  published : List ℕ
  taken : ℕ
  released : List (ℕ × α)

def History.empty : History α := ⟨[], [], 0, []⟩

def History.step (h : History α) (_ : Call ι α) : Event α → History α
  | .claimed data => { h with enqueued := h.enqueued ++ [data] }
  | .published headSeq => { h with published := h.published ++ [headSeq] }
  | .taken => { h with taken := h.taken + 1 }
  | .released tailSeq data => { h with released := h.released ++ [(tailSeq, data)] }
  | _ => h

/-- The history of a run. -/
def history (log : List (Call ι α × Event α)) : History α := Machine.replay History.step .empty log

end CPractice.MpmcQueue
