import CPractice.Base
import CPractice.Lib.Refinement

/-!
# The red-black map of `lisk_map.c`

The memory of nodes is explicit: a node is in `mem` from its allocation to its release, and a read or
a store at any other address faults (`none`).  A node keeps its parent and its colour in one word, the
colour in the lowest bit; addresses are multiples of four.  Each branch of the source that comes twice,
once for the left and once for the right, is one definition with the side as a parameter, and keeps its
name as that definition at one side.  A loop that does not end within as many turns as there are nodes,
and two, faults.

The value of a node is a buffer and the number of its bytes in use; keys are never written again.  The
outcome of the allocations is an argument of the call.
-/

namespace CPractice.RbMap

open Lib

/-- A pointer to a node; `0` is `nil`. -/
abbrev Ptr := BitVec 64

/-- `value_t`: `size` bytes are in use of the buffer `data`. -/
structure ValueT where
  size : ℕ
  data : Bytes
  deriving DecidableEq

/-- The bytes in use. -/
def ValueT.content (value : ValueT) : Bytes := value.data.take value.size

/-- `rb_node_t`. -/
structure RbNode (κ : Type) where
  parent : BitVec 64
  left : Ptr
  right : Ptr
  key : κ
  value : ValueT

/-- `rb_root_t` with the memory of nodes. -/
structure RbRoot (κ : Type) where
  node : Ptr
  min : Ptr
  max : Ptr
  size : ℕ
  mem : Ptr → Option (RbNode κ)

/-- The two sides of a node. -/
inductive Side where
  | left | right
  deriving DecidableEq

/-- The opposite side. -/
def Side.other : Side → Side
  | .left => .right
  | .right => .left

variable {κ : Type}

/-- `node->left` or `node->right`. -/
def RbNode.child (node : RbNode κ) : Side → Ptr
  | .left => node.left
  | .right => node.right

/-- The node with a child stored. -/
def RbNode.withChild (node : RbNode κ) (side : Side) (child : Ptr) : RbNode κ :=
  match side with
  | .left => { node with left := child }
  | .right => { node with right := child }

/-! ## Parents and colours -/

/-- `BLACK`. -/
def BLACK : BitVec 64 := 1

/-- `rb_parent`. -/
def rbParent (node : RbNode κ) : Ptr := node.parent &&& ~~~BLACK

/-- `rb_color`. -/
def rbColor (node : RbNode κ) : BitVec 64 := node.parent &&& BLACK

/-- `color_is_black`. -/
def colorIsBlack (node : RbNode κ) : Bool := rbColor node = BLACK

/-- `color_is_red`. -/
def colorIsRed (node : RbNode κ) : Bool := rbColor node = 0

/-- A store to the node at an address. -/
def store (root : RbRoot κ) (node : Ptr) (change : RbNode κ → RbNode κ) : Option (RbRoot κ) := do
  let n ← root.mem node
  some { root with mem := Function.update root.mem node (some (change n)) }

/-- `rb_set_parent`. -/
def rbSetParent (root : RbRoot κ) (node parent : Ptr) : Option (RbRoot κ) :=
  store root node fun n ↦ { n with parent := n.parent &&& 3 ||| parent }

/-- `rb_set_color`. -/
def rbSetColor (root : RbRoot κ) (node : Ptr) (color : BitVec 64) : Option (RbRoot κ) :=
  store root node fun n ↦ { n with parent := n.parent &&& ~~~BLACK ||| color }

/-- `color_set_black`. -/
def colorSetBlack (root : RbRoot κ) (node : Ptr) : Option (RbRoot κ) :=
  store root node fun n ↦ { n with parent := n.parent ||| BLACK }

/-- `color_set_red`. -/
def colorSetRed (root : RbRoot κ) (node : Ptr) : Option (RbRoot κ) :=
  store root node fun n ↦ { n with parent := n.parent &&& ~~~BLACK }

/-- A store to a child pointer. -/
def setChild (root : RbRoot κ) (node : Ptr) (side : Side) (child : Ptr) : Option (RbRoot κ) :=
  store root node fun n ↦ n.withChild side child

/-- `IS_NNL(node) && color_is_red(node)`. -/
def isRed (root : RbRoot κ) (node : Ptr) : Option Bool :=
  if node = 0 then some false else (root.mem node).map colorIsRed

/-- `IS_NL(node) || color_is_black(node)`. -/
def isNilOrBlack (root : RbRoot κ) (node : Ptr) : Option Bool :=
  if node = 0 then some true else (root.mem node).map colorIsBlack

/-- `rb_set_parent` guarded by `IS_NNL(node)`. -/
def setParentIf (root : RbRoot κ) (node parent : Ptr) : Option (RbRoot κ) :=
  if node ≠ 0 then rbSetParent root node parent else some root

/-- `color_set_black` guarded by `IS_NNL(node)`. -/
def colorSetBlackIf (root : RbRoot κ) (node : Ptr) : Option (RbRoot κ) :=
  if node ≠ 0 then colorSetBlack root node else some root

/-- The link from a parent, or from the root, to `old` is turned to `new`. -/
def replaceChild (root : RbRoot κ) (parent old new : Ptr) : Option (RbRoot κ) :=
  if parent ≠ 0 then do
    let p ← root.mem parent
    if p.left = old then setChild root parent .left new else setChild root parent .right new
  else some { root with node := new }

/-! ## Walks -/

/-- The number of turns a loop is given. -/
def turns (root : RbRoot κ) : ℕ := root.size + 2

/-- `while (IS_NNL(node->left)) node = node->left`, or the same to the right. -/
def extreme (root : RbRoot κ) (side : Side) : ℕ → Ptr → Option Ptr
  | 0, _ => none
  | fuel + 1, node => do
      let n ← root.mem node
      if n.child side ≠ 0 then extreme root side fuel (n.child side) else some node

/-- `rb_update_min`. -/
def rbUpdateMin (root : RbRoot κ) : Option (RbRoot κ) :=
  if root.node = 0 then some { root with min := 0 }
  else do
    let node ← extreme root .left (turns root) root.node
    some { root with min := node }

/-- `rb_update_max`. -/
def rbUpdateMax (root : RbRoot κ) : Option (RbRoot κ) :=
  if root.node = 0 then some { root with max := 0 }
  else do
    let node ← extreme root .right (turns root) root.node
    some { root with max := node }

/-- The loop of `rb_search`: the node found, or `nil`, and the last node before it. -/
def searchLoop (cmp : κ → κ → ℤ) (root : RbRoot κ) (key : κ) :
    ℕ → Ptr → Ptr → Option (Ptr × Ptr)
  | 0, _, _ => none
  | fuel + 1, node, pre =>
      if node = 0 then some (0, pre)
      else do
        let n ← root.mem node
        if cmp key n.key = 0 then some (node, pre)
        else if cmp key n.key < 0 then searchLoop cmp root key fuel n.left node
        else searchLoop cmp root key fuel n.right node

/-- `rb_search`. -/
def rbSearch (cmp : κ → κ → ℤ) (root : RbRoot κ) (key : κ) : Option (Ptr × Ptr) :=
  searchLoop cmp root key (turns root) root.node 0

/-! ## Rotations -/

/-- `rb_rotate_left` for the left side, `rb_rotate_right` for the right side. -/
def rotate (side : Side) (root : RbRoot κ) (node : Ptr) : Option (RbRoot κ) := do
  let n ← root.mem node
  let top := n.child side.other
  if top = 0 then some root
  else do
    let t ← root.mem top
    let root ← setChild root node side.other (t.child side)
    let root ← setParentIf root (t.child side) node
    let root ← setChild root top side node
    let n ← root.mem node
    let root ← rbSetParent root top (rbParent n)
    let root ← rbSetParent root node top
    let t ← root.mem top
    replaceChild root (rbParent t) node top

def rbRotateLeft (root : RbRoot κ) (node : Ptr) : Option (RbRoot κ) := rotate .left root node

def rbRotateRight (root : RbRoot κ) (node : Ptr) : Option (RbRoot κ) := rotate .right root node

/-! ## `rb_insert` -/

/-- The branch of `rb_insert_rebalance` for a parent on the given side of the grandparent: the new
root and the node the loop goes on with. -/
def insertBranch (side : Side) (root : RbRoot κ) (gparent parent node : Ptr) :
    Option (RbRoot κ × Ptr) := do
  let g ← root.mem gparent
  let uncle := g.child side.other
  let red ← isRed root uncle
  if red then do
    let root ← colorSetBlack root uncle
    let root ← colorSetBlack root parent
    let root ← colorSetRed root gparent
    some (root, gparent)
  else do
    let p ← root.mem parent
    let (root, parent, node) ←
      if node = p.child side.other then do
        let root ← rotate side root parent
        some (root, node, parent)
      else some (root, parent, node)
    let root ← colorSetBlack root parent
    let root ← colorSetRed root gparent
    let root ← rotate side.other root gparent
    some (root, node)

/-- The loop of `rb_insert_rebalance`. -/
def insertRebalanceLoop : ℕ → RbRoot κ → Ptr → Option (RbRoot κ)
  | 0, _, _ => none
  | fuel + 1, root, node => do
      let n ← root.mem node
      let parent := rbParent n
      let red ← isRed root parent
      if red then do
        let p ← root.mem parent
        let gparent := rbParent p
        let g ← root.mem gparent
        let (root, node) ←
          if parent = g.left then insertBranch .left root gparent parent node
          else insertBranch .right root gparent parent node
        insertRebalanceLoop fuel root node
      else some root

/-- `rb_insert_rebalance`. -/
def rbInsertRebalance (root : RbRoot κ) (node : Ptr) : Option (RbRoot κ) := do
  let root ← insertRebalanceLoop (turns root) root node
  colorSetBlack root root.node

/-- The outcomes of the allocations of an insert: the address of the node (`0` when it was refused)
and whether the buffers of key and value were granted. -/
structure Alloc where
  node : Ptr
  key : Bool
  value : Bool
  deriving DecidableEq

/-- All three allocations were granted. -/
def Alloc.granted (alloc : Alloc) : Prop := alloc.node ≠ 0 ∧ alloc.key = true ∧ alloc.value = true

instance (alloc : Alloc) : Decidable alloc.granted := inferInstanceAs (Decidable (_ ∧ _))

/-- `rb_create_node`: a red node without links. -/
def rbCreateNode (root : RbRoot κ) (node : Ptr) (key : κ) (value : Bytes) : RbRoot κ :=
  { root with mem := Function.update root.mem node (some ⟨0, 0, 0, key, ⟨value.length, value⟩⟩) }

/-- The new node is linked below `parent`, or made the root. -/
def attachNode (cmp : κ → κ → ℤ) (root : RbRoot κ) (parent node : Ptr) (key : κ) :
    Option (RbRoot κ) :=
  if parent ≠ 0 then do
    let p ← root.mem parent
    let root ← if cmp key p.key < 0 then setChild root parent .left node
      else setChild root parent .right node
    rbSetParent root node parent
  else some { root with node := node }

/-- The minimum after an insert. -/
def insertMin (cmp : κ → κ → ℤ) (root : RbRoot κ) (node : Ptr) (key : κ) : Option (RbRoot κ) :=
  if root.min = 0 then some { root with min := node }
  else do
    let n ← root.mem root.min
    if cmp key n.key < 0 then some { root with min := node } else some root

/-- The maximum after an insert. -/
def insertMax (cmp : κ → κ → ℤ) (root : RbRoot κ) (node : Ptr) (key : κ) : Option (RbRoot κ) :=
  if root.max = 0 then some { root with max := node }
  else do
    let n ← root.mem root.max
    if 0 < cmp key n.key then some { root with max := node } else some root

/-- `rb_insert` and the code `map_insert` makes of what it returns. -/
def mapInsert (cmp : κ → κ → ℤ) (root : RbRoot κ) (key : κ) (value : Bytes) (alloc : Alloc) :
    Option (ℤ × RbRoot κ) :=
  if u8 (root.size + 1) < root.size then some (-1, root)
  else do
    let (node, parent) ← rbSearch cmp root key
    if node ≠ 0 then some (0, root)
    else if alloc.granted then do
      let root := rbCreateNode root alloc.node key value
      let root ← attachNode cmp root parent alloc.node key
      let root := { root with size := u8 (root.size + 1) }
      let root ← rbInsertRebalance root alloc.node
      let root ← insertMin cmp root alloc.node key
      let root ← insertMax cmp root alloc.node key
      some (0, root)
    else some (-1, root)

/-! ## `rb_update` -/

/-- `CPY` into a buffer that holds at least as many bytes. -/
def copyInto (data source : Bytes) : Option Bytes :=
  if source.length ≤ data.length then some (source ++ data.drop source.length) else none

/-- `rb_update` and the code `map_update` makes of what it returns; `grown` is whether a larger
buffer was granted, whose bytes are not initialised. -/
def mapUpdate (cmp : κ → κ → ℤ) (root : RbRoot κ) (key : κ) (value : Bytes) (grown : Bool) :
    Option (ℤ × RbRoot κ) := do
  let (node, _) ← rbSearch cmp root key
  if node = 0 then some (-1, root)
  else do
    let n ← root.mem node
    let larger := n.value.size < value.length
    if larger ∧ grown = false then some (-1, root)
    else do
      let buffer := if larger then List.replicate value.length 0 else n.value.data
      let data ← copyInto buffer value
      let root ← store root node fun n ↦ { n with value := ⟨value.length, data⟩ }
      some (0, root)

/-! ## `rb_erase` -/

/-- A red sibling is rotated above the parent; the result has the black sibling. -/
def blackSibling (side : Side) (root : RbRoot κ) (parent : Ptr) : Option (RbRoot κ × Ptr) := do
  let p ← root.mem parent
  let sibling := p.child side.other
  let s ← root.mem sibling
  if colorIsRed s then do
    let root ← colorSetBlack root sibling
    let root ← colorSetRed root parent
    let root ← rotate side root parent
    let p ← root.mem parent
    some (root, p.child side.other)
  else some (root, sibling)

/-- When the far child of the sibling is black, its near child is rotated above it. -/
def redFarChild (side : Side) (root : RbRoot κ) (parent sibling : Ptr) (far : Bool) :
    Option (RbRoot κ × Ptr) :=
  if far then do
    let s ← root.mem sibling
    let root ← colorSetBlackIf root (s.child side)
    let root ← colorSetRed root sibling
    let root ← rotate side.other root sibling
    let p ← root.mem parent
    some (root, p.child side.other)
  else some (root, sibling)

/-- The branch of `rb_erase_rebalance` for a node on the given side of its parent: the new root, the
parent and the node the loop goes on with, and whether it breaks. -/
def eraseBranch (side : Side) (root : RbRoot κ) (parent : Ptr) :
    Option (RbRoot κ × Ptr × Ptr × Bool) := do
  let (root, sibling) ← blackSibling side root parent
  let s ← root.mem sibling
  let near ← isNilOrBlack root (s.child side)
  let far ← isNilOrBlack root (s.child side.other)
  if near ∧ far then do
    let root ← colorSetRed root sibling
    let p ← root.mem parent
    some (root, rbParent p, parent, false)
  else do
    let (root, sibling) ← redFarChild side root parent sibling far
    let p ← root.mem parent
    let root ← rbSetColor root sibling (rbColor p)
    let root ← colorSetBlack root parent
    let s ← root.mem sibling
    let root ← colorSetBlackIf root (s.child side.other)
    let root ← rotate side root parent
    some (root, parent, root.node, true)

/-- The loop of `rb_erase_rebalance`, with the node it ends at. -/
def eraseRebalanceLoop : ℕ → RbRoot κ → Ptr → Ptr → Option (RbRoot κ × Ptr)
  | 0, _, _, _ => none
  | fuel + 1, root, parent, node => do
      let black ← isNilOrBlack root node
      if black ∧ root.node ≠ node then do
        let p ← root.mem parent
        let (root, parent, node, stop) ←
          if node = p.left then eraseBranch .left root parent else eraseBranch .right root parent
        if stop then some (root, node) else eraseRebalanceLoop fuel root parent node
      else some (root, node)

/-- `rb_erase_rebalance`. -/
def rbEraseRebalance (root : RbRoot κ) (parent node : Ptr) : Option (RbRoot κ) := do
  let (root, node) ← eraseRebalanceLoop (turns root) root parent node
  colorSetBlackIf root node

/-- The unlinking of a node with two children: the successor takes its place.  The result has the
parent and the node for the rebalancing, and whether a black node is missing. -/
def unlinkTwo (root : RbRoot κ) (node : Ptr) (n : RbNode κ) :
    Option (RbRoot κ × Ptr × Ptr × Bool) := do
  let scapedog ← extreme root .left (turns root) n.right
  let root ← replaceChild root (rbParent n) node scapedog
  let s ← root.mem scapedog
  let child := s.right
  let (root, parent) ←
    if rbParent s = node then some (root, scapedog)
    else do
      let parent := rbParent s
      let root ← setParentIf root child parent
      let root ← setChild root parent .left child
      let n ← root.mem node
      let root ← setChild root scapedog .right n.right
      let root ← rbSetParent root n.right scapedog
      some (root, parent)
  let n ← root.mem node
  let root ← store root scapedog fun s ↦ { s with parent := n.parent }
  let root ← setChild root scapedog .left n.left
  let root ← rbSetParent root n.left scapedog
  some (root, parent, child, colorIsBlack s)

/-- The unlinking of a node with one child at most. -/
def unlinkOne (root : RbRoot κ) (node : Ptr) (n : RbNode κ) :
    Option (RbRoot κ × Ptr × Ptr × Bool) := do
  let child := if n.left ≠ 0 then n.left else if n.right ≠ 0 then n.right else 0
  let parent := rbParent n
  let root ← setParentIf root child parent
  let root ← replaceChild root parent node child
  some (root, parent, child, colorIsBlack n)

/-- The first part of `rb_erase_ex`. -/
def unlink (root : RbRoot κ) (node : Ptr) (n : RbNode κ) : Option (RbRoot κ × Ptr × Ptr × Bool) :=
  if n.left ≠ 0 ∧ n.right ≠ 0 then unlinkTwo root node n else unlinkOne root node n

/-- `rb_free_node`. -/
def rbFreeNode (root : RbRoot κ) (node : Ptr) : Option (RbRoot κ) := do
  let _ ← root.mem node
  some { root with mem := Function.update root.mem node none }

/-- `rb_erase_rebalance` guarded by `black_flag`. -/
def rbEraseRebalanceIf (black : Bool) (root : RbRoot κ) (parent node : Ptr) : Option (RbRoot κ) :=
  if black then rbEraseRebalance root parent node else some root

/-- `rb_update_min` guarded by `min_update_flag`. -/
def rbUpdateMinIf (flag : Bool) (root : RbRoot κ) : Option (RbRoot κ) :=
  if flag then rbUpdateMin root else some root

/-- `rb_update_max` guarded by `max_update_flag`. -/
def rbUpdateMaxIf (flag : Bool) (root : RbRoot κ) : Option (RbRoot κ) :=
  if flag then rbUpdateMax root else some root

/-- `rb_erase_ex` past its checks, for the node of the value. -/
def eraseNode (root : RbRoot κ) (node : Ptr) : Option (RbRoot κ) := do
  let n ← root.mem node
  let (root, parent, child, black) ← unlink root node n
  let minUpdate := decide (root.min = node)
  let maxUpdate := decide (root.max = node)
  let root ← rbFreeNode root node
  let root := { root with size := u8Sub root.size 1 }
  let root ← rbEraseRebalanceIf black root parent child
  let root ← rbUpdateMinIf minUpdate root
  rbUpdateMaxIf maxUpdate root

/-- `rb_erase_ex` and the code `map_erase_ex` makes of what it returns; a value is given by its
node. -/
def mapEraseEx (root : RbRoot κ) (node : Ptr) : Option (ℤ × RbRoot κ) :=
  if root.node = 0 ∨ node = 0 then some (0, root)
  else if root.size = 0 then some (-1, root)
  else (eraseNode root node).map fun root ↦ (0, root)

/-- `rb_erase` and the code `map_erase` makes of what it returns. -/
def mapErase (cmp : κ → κ → ℤ) (root : RbRoot κ) (key : κ) : Option (ℤ × RbRoot κ) :=
  if root.node = 0 ∨ root.size = 0 then some (-1, root)
  else do
    let (node, _) ← rbSearch cmp root key
    if node = 0 then some (0, root) else mapEraseEx root node

/-! ## `rb_find` -/

/-- `rb_find`, whose pointer `map_find` hands on: a value is given by its node. -/
def rbFind (cmp : κ → κ → ℤ) (root : RbRoot κ) (key : κ) : Option Ptr :=
  (rbSearch cmp root key).map Prod.fst

/-- `map_find`: the code returned and the bytes behind `*value`. -/
def mapFind (cmp : κ → κ → ℤ) (root : RbRoot κ) (key : κ) : Option (ℤ × Option Bytes) := do
  let (node, _) ← rbSearch cmp root key
  if node = 0 then some (-2, none)
  else do
    let n ← root.mem node
    some (0, some n.value.content)

/-! ## Iterators -/

/-- `while (IS_NNL(parent) && IS_EQ(node, parent->right))`, or the same on the left. -/
def climb (root : RbRoot κ) (side : Side) : ℕ → Ptr → Ptr → Option Ptr
  | 0, _, _ => none
  | fuel + 1, node, parent =>
      if parent = 0 then some 0
      else do
        let p ← root.mem parent
        if node = p.child side then climb root side fuel parent (rbParent p) else some parent

/-- `rb_node_next` for the right side and the last node `root.max`, `rb_node_rnext` for the left side
and `root.min`; `none` inside is a returned `nil`. -/
def nodeStep (side : Side) (last : Ptr) (root : RbRoot κ) (node : Ptr) : Option (Option Ptr) := do
  let n ← root.mem node
  if root.node = 0 then some none
  else if node = last then some (some 0)
  else if n.child side ≠ 0 then do
    let next ← extreme root side.other (turns root) (n.child side)
    some (some next)
  else do
    let p ← root.mem (rbParent n)
    if p.child side.other = node then some (some (rbParent n))
    else do
      let parent ← climb root side (turns root) node (rbParent n)
      if parent = 0 then some none else some (some parent)

def rbNodeNext (root : RbRoot κ) (node : Ptr) : Option (Option Ptr) :=
  nodeStep .right root.max root node

def rbNodeRnext (root : RbRoot κ) (node : Ptr) : Option (Option Ptr) :=
  nodeStep .left root.min root node

/-- `map_begin`: the code and the node the iterator points into. -/
def mapBegin (root : RbRoot κ) : ℤ × Ptr :=
  if root.node = 0 then (-2, 0) else (0, root.min)

/-- `map_rbegin`. -/
def mapRbegin (root : RbRoot κ) : ℤ × Ptr :=
  if root.node = 0 then (-2, 0) else (0, root.max)

/-- `map_next` and `map_rnext` around their step; an iterator at the end is `0`. -/
def iterate (step : RbRoot κ → Ptr → Option (Option Ptr)) (root : RbRoot κ) (it : Ptr) :
    Option (ℤ × Ptr) :=
  if root.node = 0 ∨ it = 0 then some (-2, it)
  else do
    match ← step root it with
    | none => some (-2, it)
    | some next => some (0, next)

/-- `map_next`. -/
def mapNext (root : RbRoot κ) (it : Ptr) : Option (ℤ × Ptr) := iterate rbNodeNext root it

/-- `map_rnext`. -/
def mapRnext (root : RbRoot κ) (it : Ptr) : Option (ℤ × Ptr) := iterate rbNodeRnext root it

/-! ## Runs -/

inductive Call (κ : Type) where
  | insert (key : κ) (value : Bytes) (alloc : Alloc)
  | update (key : κ) (value : Bytes) (grown : Bool)
  | erase (key : κ)
  | eraseEx (node : Ptr)
  | find (key : κ)

/-- What a call returns; the log keeps the key of the value that `map_erase_ex` is given. -/
inductive Ret (κ : Type) where
  | code (n : ℤ)
  | erased (n : ℤ) (key : Option κ)
  | found (n : ℤ) (value : Option Bytes)
  deriving DecidableEq

/-- An allocator hands out fresh addresses, multiples of four; a value passed back is a node's. -/
def callOk (root : RbRoot κ) : Call κ → Prop
  | .insert _ _ alloc =>
      alloc.node ≠ 0 → root.mem alloc.node = none ∧ alloc.node &&& 3 = 0
  | .eraseEx node => node ≠ 0 → (root.mem node).isSome
  | _ => True

def callExec (cmp : κ → κ → ℤ) (root : RbRoot κ) : Call κ → Option (Ret κ × RbRoot κ)
  | .insert key value alloc => do
      let (n, root) ← mapInsert cmp root key value alloc
      some (.code n, root)
  | .update key value grown => do
      let (n, root) ← mapUpdate cmp root key value grown
      some (.code n, root)
  | .erase key => do
      let (n, root) ← mapErase cmp root key
      some (.code n, root)
  | .eraseEx node => do
      let (n, root') ← mapEraseEx root node
      some (.erased n ((root.mem node).map RbNode.key), root')
  | .find key => do
      let (n, value) ← mapFind cmp root key
      some (.found n value, root)

/-- `rb_init`. -/
def rbInit : RbRoot κ where
  node := 0
  min := 0
  max := 0
  size := 0
  mem _ := none

/-- The runs from `map_init`. -/
def machine (cmp : κ → κ → ℤ) : Machine (RbRoot κ) (Call κ) (Ret κ) where
  init root := root = rbInit
  ok := callOk
  exec := callExec cmp

end CPractice.RbMap
