import CPractice.Lib.Refinement
import CPractice.Ring.Counted

/-!
# The linked queue of `ring-buffer/ring1`

The queue is a list of nodes behind a dummy head.  Popped heads are kept in a ring of node pointers,
from which a push takes its node; `queue_fill` tops the ring up after every push, and only when the
ring is empty does a push allocate a node itself.

One thread runs each call to its end.  A node is in `nodes` from its allocation to its release and
its data is `none` until something is copied into it; every access to another address faults, and so
does an access past the end of a node.  Pointers are numbers with `0` for `nil`, and the outcomes of
the allocations are arguments of the calls.
-/

namespace CPractice.Queue

open Lib CPractice.Ring

/-- `sizeof(queue_node_t)`. -/
def nodeSize : ℕ := 8

/-- `queue_node_t` with its data. -/
structure NodeT (α : Type) where
  next : ℕ
  data : Option α

/-- `queue_t` with the heap of nodes. -/
structure QueueT (α : Type) where
  size : ℕ
  num : ℕ
  ring : CountedRing ℕ
  head : ℕ
  tail : ℕ
  nodes : ℕ → Option (NodeT α)

variable {α : Type}

/-! ## Nodes -/

/-- The bytes a node is allocated with, computed on `u4`. -/
def nodeLen (size : ℕ) : ℕ := u4 (nodeSize + size)

/-- `queue_node_init`; `some none` is a failed allocation.  The data is copied under the test
`IS_NNL(data) && IS_ZR(size)`. -/
def queueNodeInit (size : ℕ) (nodes : ℕ → Option (NodeT α)) (data : Option α) :
    Option ℕ → Option (Option (ℕ × (ℕ → Option (NodeT α))))
  | none => some none
  | some node =>
      if nodeLen size < nodeSize then none
      else some (some (node,
        Function.update nodes node (some ⟨0, if size = 0 then data else none⟩)))

/-- `CPY(node->data, data, queue->size)`. -/
def copyData (q : QueueT α) (node : ℕ) (elem : α) : Option (QueueT α) := do
  let n ← q.nodes node
  if nodeSize + q.size ≤ nodeLen q.size then
    some { q with nodes := Function.update q.nodes node (some ⟨n.next, some elem⟩) }
  else none

/-- A store of `node->next`. -/
def setNext (q : QueueT α) (node target : ℕ) : Option (QueueT α) := do
  let n ← q.nodes node
  some { q with nodes := Function.update q.nodes node (some ⟨target, n.data⟩) }

/-! ## `queue_fill` -/

/-- The loop of `queue_fill`, for `left` more nodes; no outcome left is a failure. -/
def fillLoop (turns : ℕ) : ℕ → QueueT α → List (Option ℕ) → Option (QueueT α)
  | 0, q, _ => some q
  | _ + 1, q, [] => some q
  | left + 1, q, alloc :: allocs => do
      let node ← queueNodeInit q.size q.nodes none alloc
      match node with
      | none => some q
      | some (node, nodes) => do
          let (ret, ring) ← batchPush turns q.ring [node]
          if ret = 0 then fillLoop turns left { q with ring := ring, nodes := nodes } allocs
          else some q

def queueFill (turns : ℕ) (q : QueueT α) (allocs : List (Option ℕ)) : Option (QueueT α) :=
  if q.ring.unitNum / 2 ≤ q.ring.size then some q
  else fillLoop turns (q.ring.unitNum / 2 - q.ring.size) q allocs

/-- `SIZE_K(16)`, the number of units of the ring. -/
def ringUnits : ℕ := 16384

/-- `queue_init` with its own allocations granted: the first node and, in `queue_fill`, those of
`allocs`. -/
def queueInit (turns size node : ℕ) (allocs : List (Option ℕ)) : Option (QueueT α) := do
  let ring ← countedInit ringUnits 8
  let first ← queueNodeInit size (fun _ ↦ none) none (some node)
  match first with
  | none => none
  | some (node, nodes) => queueFill turns ⟨size, 0, ring, node, node, nodes⟩ allocs

/-! ## `queue_push` -/

/-- The loop that links `node` behind the tail, and the store of `tail` after it. -/
def linkTail : ℕ → QueueT α → ℕ → Option (QueueT α)
  | 0, _, _ => none
  | turns + 1, q, node => do
      let n ← q.nodes q.tail
      if n.next ≠ 0 then linkTail turns { q with tail := n.next } node
      else do
        let q' ← setNext q q.tail node
        some { q' with tail := node }

/-- The end of `queue_push`, once it has a node. -/
def finishPush (turns : ℕ) (q : QueueT α) (node : ℕ) (allocs : List (Option ℕ)) :
    Option (ℤ × QueueT α) := do
  let q ← linkTail turns q node
  let q ← queueFill turns q allocs
  some (0, { q with num := u4 (q.num + 1) })

def queuePush (turns : ℕ) (q : QueueT α) (elem : α) (allocs : List (Option ℕ)) :
    Option (ℤ × QueueT α) := do
  let (ret, units, ring) ← batchPop turns q.ring 1
  if ret = 0 then
    match units with
    | some node :: _ => do
        let q ← copyData { q with ring := ring } node elem
        let q ← setNext q node 0
        finishPush turns q node allocs
    | _ => none
  else do
    let fresh ← queueNodeInit q.size q.nodes (some elem) allocs.head?.join
    match fresh with
    | none => some (-2, q)
    | some (node, nodes) => finishPush turns { q with nodes := nodes } node allocs.tail

/-! ## `queue_pop` -/

/-- The loop of `queue_pop`: the old head and the node behind it, if there is one. -/
def takeHead : ℕ → QueueT α → Option (Option (ℕ × ℕ × QueueT α))
  | 0, _ => none
  | turns + 1, q => do
      let n ← q.nodes q.head
      if n.next = 0 then some none
      else if q.head = q.tail then takeHead turns { q with tail := n.next }
      else some (some (q.head, n.next, { q with head := n.next }))

def queuePop (turns : ℕ) (q : QueueT α) : Option (ℤ × Option α × QueueT α) := do
  let taken ← takeHead turns q
  match taken with
  | none => some (-2, none, q)
  | some (head, next, q) => do
      let n ← q.nodes next
      let (ret, ring) ← batchPush turns q.ring [head]
      if ret = 0 then some (0, n.data, { q with ring := ring, num := u4Sub q.num 1 })
      else some (0, n.data,
        { q with nodes := Function.update q.nodes head none, num := u4Sub q.num 1 })

/-! ## Calls -/

inductive Call (α : Type) where
  | push (elem : α) (allocs : List (Option ℕ))
  | pop
  | size

inductive Ret (α : Type) where
  | pushed (ret : ℤ)
  | popped (ret : ℤ) (elem : Option α)
  | size (number : ℕ)
  deriving DecidableEq

def callExec (turns : ℕ) (q : QueueT α) : Call α → Option (Ret α × QueueT α)
  | .push elem allocs => (queuePush turns q elem allocs).map fun out ↦ (.pushed out.1, out.2)
  | .pop => (queuePop turns q).map fun out ↦ (.popped out.1 out.2.1, out.2.2)
  | .size => some (.size q.num, q)

/-- The addresses an allocator grants are not `nil`, distinct and not in use. -/
def freshAllocs (nodes : ℕ → Option (NodeT α)) (allocs : List (Option ℕ)) : Prop :=
  allocs.reduceOption.Nodup ∧ ∀ node ∈ allocs.reduceOption, node ≠ 0 ∧ (nodes node).isNone

/-- `q` comes from `queue_init` with an element size below `bound`. -/
def fromInit (bound turns : ℕ) (q : QueueT α) : Prop :=
  ∃ size node allocs, 0 < size ∧ size < bound ∧
    freshAllocs (α := α) (fun _ ↦ none) (some node :: allocs) ∧
    queueInit turns size node allocs = some q

def callOk (q : QueueT α) : Call α → Prop
  | .push _ allocs => freshAllocs q.nodes allocs
  | _ => True

/-- The queue with every element size and every outcome of the allocations. -/
def machine (turns : ℕ) : Machine (QueueT α) (Call α) (Ret α) where
  init := fromInit 4294967296 turns
  ok := callOk
  exec := callExec turns

end CPractice.Queue
