import CPractice.Base
import CPractice.Lib.Refinement

/-!
# The circular list of `lisk_list.c`

A list is a head node and, behind it, the nodes of its elements.  An element is handed out as a
pointer to the bytes behind the two links of its node; the model names a node by that pointer, so
`list_node` and `list_elem` are the identity and `0` is `nil`.  Reading or writing a node that is not
allocated, or a store past the end of an allocation, faults.

The state also has the pointers that `list_init` handed out and the number of nodes allocated so
far, which no function reads: it bounds the turns of the loops that walk a list.
-/

namespace CPractice.CircularList

open Lib

/-- `list_node_t` with the element behind it. -/
structure NodeT where
  prev : ℕ
  next : ℕ
  data : Bytes
  deriving DecidableEq

abbrev Nodes := ℕ → Option NodeT

structure Lists where
  nodes : Nodes
  heads : List ℕ
  allocs : ℕ

def prevMagic : ℕ := 0x20131203205112AB
def nextMagic : ℕ := 0xBA21150230213102

/-- `sizeof(list_node_t)`. -/
def nodeSize : ℤ := 16

/-- `n4`: reduction to a signed word of 32 bits. -/
def n4 (value : ℤ) : ℤ := Int.bmod value 4294967296

/-! ## Stores -/

def storeNext (nodes : Nodes) (node target : ℕ) : Nodes := fun a ↦
  if a = node then (nodes a).map fun n ↦ { n with next := target } else nodes a

def storePrev (nodes : Nodes) (node target : ℕ) : Nodes := fun a ↦
  if a = node then (nodes a).map fun n ↦ { n with prev := target } else nodes a

/-- `node->next = target`. -/
def setNext (nodes : Nodes) (node target : ℕ) : Option Nodes :=
  if (nodes node).isSome then some (storeNext nodes node target) else none

/-- `node->prev = target`. -/
def setPrev (nodes : Nodes) (node target : ℕ) : Option Nodes :=
  if (nodes node).isSome then some (storePrev nodes node target) else none

/-! ## Elements -/

/-- The element a caller passes to an insertion: that of a node, or a buffer of its own with the two
words that stand before it. -/
inductive Elem where
  | node (addr : ℕ)
  | buffer (prev next : ℕ) (data : Bytes)

/-- `IS_NL(elem)`. -/
def Elem.isNil : Elem → Bool
  | .node addr => addr = 0
  | .buffer _ _ _ => false

/-- `list_check_magic`. -/
def listCheckMagic (nodes : Nodes) : Elem → Option ℤ
  | .node addr => (nodes addr).map fun n ↦
      if n.prev = prevMagic ∧ n.next = nextMagic then 0 else -1
  | .buffer prev next _ => some (if prev = prevMagic ∧ next = nextMagic then 0 else -1)

/-- The first `len` bytes of an element. -/
def readElem (nodes : Nodes) (len : ℕ) : Elem → Option Bytes
  | .node addr => do
      let n ← nodes addr
      if len ≤ n.data.length then some (n.data.take len) else none
  | .buffer _ _ data => if len ≤ data.length then some (data.take len) else none

/-- `list_node_alloc` with an element; `alloc` is what `ALLOC` returns, which fails for a length that
is negative as an `n4`.  A granted length below the size of the two links is too short for them. -/
def listNodeAlloc (nodes : Nodes) (elem : Elem) (elemLen : ℤ) (alloc : Option ℕ) :
    Option (Option (ℕ × Nodes)) :=
  let len := n4 (nodeSize + elemLen)
  match alloc with
  | none => some none
  | some node =>
      if len < 0 then some none
      else if len < nodeSize then none
      else do
        let data ← readElem nodes elemLen.toNat elem
        some (some (node, Function.update nodes node (some ⟨node, node, data⟩)))

/-! ## `list_init` and the insertions -/

/-- `list_init`; `word` is what the element word of the head contains. -/
def listInit (s : Lists) (alloc : Option ℕ) (word : Bytes) : ℤ × Lists :=
  match alloc with
  | none => (-2, s)
  | some head =>
      (0, ⟨Function.update s.nodes head (some ⟨head, head, word⟩), s.heads ++ [head], s.allocs + 1⟩)

/-- The stores of `list_insert_front`. -/
def linkFront (nodes : Nodes) (cur node : ℕ) : Option Nodes := do
  let curNode ← nodes cur
  let nodes ← setNext nodes node cur
  let nodes ← setPrev nodes node curNode.prev
  let nodes ← setNext nodes curNode.prev node
  setPrev nodes cur node

/-- The stores of `list_insert_back`. -/
def linkBack (nodes : Nodes) (cur node : ℕ) : Option Nodes := do
  let curNode ← nodes cur
  let nodes ← setNext nodes node curNode.next
  let nodes ← setPrev nodes node cur
  let nodes ← setPrev nodes curNode.next node
  setNext nodes cur node

/-- The body the two insertions share: `rejected` is the test on the length, `link` the stores.  The
result is the pointer to the element of the list. -/
def listInsert (rejected : ℤ → Bool) (link : Nodes → ℕ → ℕ → Option Nodes) (s : Lists) (cur : ℕ)
    (elem : Elem) (elemLen : ℤ) (alloc : Option ℕ) : Option (ℕ × Lists) :=
  if cur = 0 ∨ elem.isNil ∨ rejected elemLen then some (0, s)
  else do
    let magic ← listCheckMagic s.nodes elem
    if magic = 0 then
      match elem with
      | .node node => do
          let nodes ← link s.nodes cur node
          some (node, { s with nodes := nodes })
      | .buffer _ _ _ => none
    else do
      let fresh ← listNodeAlloc s.nodes elem elemLen alloc
      match fresh with
      | none => some (0, s)
      | some (node, nodes) => do
          let nodes ← link nodes cur node
          some (node, { s with nodes := nodes, allocs := s.allocs + 1 })

/-- `list_insert_front`, which rejects a length that is not positive. -/
def listInsertFront : Lists → ℕ → Elem → ℤ → Option ℕ → Option (ℕ × Lists) :=
  listInsert (fun elemLen ↦ elemLen ≤ 0) linkFront

/-- `list_insert_back`, which rejects the length zero only. -/
def listInsertBack : Lists → ℕ → Elem → ℤ → Option ℕ → Option (ℕ × Lists) :=
  listInsert (fun elemLen ↦ elemLen = 0) linkBack

/-! ## Moves -/

/-- A move takes the source out of its list, with `nil` in its links. -/
def takeOut (nodes : Nodes) (src : ℕ) : Option Nodes := do
  let srcNode ← nodes src
  let nodes ← setNext nodes srcNode.prev srcNode.next
  let srcNode ← nodes src
  let nodes ← setPrev nodes srcNode.next srcNode.prev
  let nodes ← setPrev nodes src 0
  setNext nodes src 0

/-- A move puts the source before the destination. -/
def putFront (nodes : Nodes) (dst src : ℕ) : Option Nodes := do
  let nodes ← setNext nodes src dst
  let dstNode ← nodes dst
  let nodes ← setPrev nodes src dstNode.prev
  let dstNode ← nodes dst
  let nodes ← setNext nodes dstNode.prev src
  setPrev nodes dst src

/-- A move puts the source after the destination. -/
def putBack (nodes : Nodes) (dst src : ℕ) : Option Nodes := do
  let dstNode ← nodes dst
  let nodes ← setNext nodes src dstNode.next
  let nodes ← setPrev nodes src dst
  let dstNode ← nodes dst
  let nodes ← setPrev nodes dstNode.next src
  setNext nodes dst src

def listMove (put : Nodes → ℕ → ℕ → Option Nodes) (s : Lists) (dst src : ℕ) :
    Option (ℤ × Lists) :=
  if src = 0 ∨ dst = 0 then some (-1, s)
  else do
    let nodes ← takeOut s.nodes src
    let nodes ← put nodes dst src
    some (0, { s with nodes := nodes })

/-- `list_move_front`. -/
def listMoveFront : Lists → ℕ → ℕ → Option (ℤ × Lists) := listMove putFront

/-- `list_move_back`. -/
def listMoveBack : Lists → ℕ → ℕ → Option (ℤ × Lists) := listMove putBack

/-! ## `list_erase`, `list_clear` and `list_size` -/

def eraseFull : ℤ := 2

/-- `list_erase` takes an element out of its list and marks it, unless it is marked already.  The
result is the element before it, `0` if there is none to return. -/
def unlinkMarked (nodes : Nodes) (elem : ℕ) : Option (ℕ × Nodes) := do
  let magic ← listCheckMagic nodes (.node elem)
  if magic = 0 then some (0, nodes)
  else do
    let node ← nodes elem
    let nodes ← if node.prev ≠ 0 then setNext nodes node.prev node.next else some nodes
    let nodes ← if node.next ≠ 0 then setPrev nodes node.next node.prev else some nodes
    let nodes ← setNext nodes elem nextMagic
    let nodes ← setPrev nodes elem prevMagic
    some (node.prev, nodes)

/-- `DEALLOC` of a node. -/
def dealloc (nodes : Nodes) (elem : ℕ) : Option Nodes :=
  if (nodes elem).isSome then some (Function.update nodes elem none) else none

/-- `list_erase`. -/
def listErase (nodes : Nodes) (list elem : ℕ) (flag : ℤ) : Option (ℕ × Nodes) :=
  if elem = 0 then some (0, nodes)
  else if list = elem then do
    let nodes ← dealloc nodes elem
    some (0, nodes)
  else do
    let (ret, nodes) ← unlinkMarked nodes elem
    if flag = eraseFull then do
      let nodes ← dealloc nodes elem
      some (ret, nodes)
    else some (ret, nodes)

/-- The loop of `list_clear`, at `node`. -/
def clearLoop (head : ℕ) : ℕ → Nodes → ℕ → Option Nodes
  | 0, _, _ => none
  | turns + 1, nodes, node =>
      if node ≠ 0 ∧ head ≠ node then do
        let (prev, nodes) ← listErase nodes head node eraseFull
        let prevNode ← nodes prev
        clearLoop head turns nodes prevNode.next
      else some nodes

def listClear (s : Lists) (list : ℕ) : Option Lists :=
  if list = 0 then some s
  else do
    let head ← s.nodes list
    let nodes ← clearLoop list (s.allocs + 1) s.nodes head.next
    some { s with nodes := nodes }

/-- The loop of `list_size`, at `node`, with its counter. -/
def sizeLoop (nodes : Nodes) (list : ℕ) : ℕ → ℕ → ℤ → Option ℤ
  | 0, _, _ => none
  | turns + 1, node, size =>
      if node ≠ 0 ∧ node ≠ list then do
        let n ← nodes node
        sizeLoop nodes list turns n.next (n4 (size + 1))
      else some size

def listSize (s : Lists) (list : ℕ) : Option ℤ :=
  if list = 0 then some 0
  else do
    let head ← s.nodes list
    sizeLoop s.nodes list (s.allocs + 1) head.next 0

/-! ## Calls -/

inductive Call where
  | init (alloc : Option ℕ) (word : Bytes)
  | insertFront (cur : ℕ) (elem : Elem) (elemLen : ℤ) (alloc : Option ℕ)
  | insertBack (cur : ℕ) (elem : Elem) (elemLen : ℤ) (alloc : Option ℕ)
  | moveFront (dst src : ℕ)
  | moveBack (dst src : ℕ)
  | erase (list elem : ℕ) (flag : ℤ)
  | clear (list : ℕ)
  | size (list : ℕ)

inductive Ret where
  | code (ret : ℤ)
  | elem (ptr : ℕ)
  | void
  deriving DecidableEq

def callExec (s : Lists) : Call → Option (Ret × Lists)
  | .init alloc word => some (.code (listInit s alloc word).1, (listInit s alloc word).2)
  | .insertFront cur elem elemLen alloc =>
      (listInsertFront s cur elem elemLen alloc).map fun out ↦ (.elem out.1, out.2)
  | .insertBack cur elem elemLen alloc =>
      (listInsertBack s cur elem elemLen alloc).map fun out ↦ (.elem out.1, out.2)
  | .moveFront dst src => (listMoveFront s dst src).map fun out ↦ (.code out.1, out.2)
  | .moveBack dst src => (listMoveBack s dst src).map fun out ↦ (.code out.1, out.2)
  | .erase list elem flag =>
      (listErase s.nodes list elem flag).map fun out ↦ (.elem out.1, { s with nodes := out.2 })
  | .clear list => (listClear s list).map fun s ↦ (.void, s)
  | .size list => (listSize s list).map fun size ↦ (.code size, s)

/-- What `malloc` returns is not `nil`, not in use, and aligned. -/
def freshAlloc (nodes : Nodes) (alloc : Option ℕ) : Prop :=
  ∀ node ∈ alloc, node ≠ 0 ∧ 8 ∣ node ∧ (nodes node).isNone

/-- The node carries the two magic words of an erased one. -/
def marked (n : NodeT) : Prop := n.prev = prevMagic ∧ n.next = nextMagic

instance (n : NodeT) : Decidable (marked n) := inferInstanceAs (Decidable (_ ∧ _))

/-- A node of some list, its head included. -/
def inList (nodes : Nodes) (a : ℕ) : Prop := ∃ n ∈ nodes a, ¬ marked n

/-- An element that can be inserted with a length: `nil`, that of an allocated node with enough
bytes (an erased one is linked as it is), or a caller's buffer of at least that length. -/
def insertable (nodes : Nodes) (elemLen : ℤ) : Elem → Prop
  | .node addr => addr = 0 ∨ ∃ n ∈ nodes addr, marked n ∨ elemLen ≤ n.data.length
  | .buffer _ _ data => elemLen ≤ data.length

/-- The callers' side: positions are nodes of lists, moved nodes are distinct and not heads, and an
element to erase is that of a node, erased before or not. -/
def callOk (s : Lists) : Call → Prop
  | .init alloc word => freshAlloc s.nodes alloc ∧ word.length = 8
  | .insertFront cur elem elemLen alloc | .insertBack cur elem elemLen alloc =>
      (cur = 0 ∨ inList s.nodes cur) ∧ insertable s.nodes elemLen elem ∧
        -2147483648 ≤ elemLen ∧ elemLen < 2147483648 ∧ freshAlloc s.nodes alloc
  | .moveFront dst src | .moveBack dst src =>
      src = 0 ∨ dst = 0 ∨
        inList s.nodes dst ∧ inList s.nodes src ∧ src ∉ s.heads ∧ dst ≠ src
  | .erase list elem _ => list ∈ s.heads ∧ elem ∉ s.heads ∧ (elem = 0 ∨ (s.nodes elem).isSome)
  | .clear list | .size list => list = 0 ∨ list ∈ s.heads

/-- Any number of lists, all made by `list_init`. -/
def machine : Machine Lists Call Ret where
  init s := s = ⟨fun _ ↦ none, [], 0⟩
  ok := callOk
  exec := callExec

end CPractice.CircularList
