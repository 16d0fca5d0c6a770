import CPractice.Base
import CPractice.Lib.Refinement

/-!
# The skip list of `lisk_skiplist.c`

A node holds a key, a value and the pointers `next[0..level]`; `header` and `tail` carry no key.
The list is sorted so that a search moves on while the key looked for compares below the node's, so
the keys descend from `header` to `tail`.

Memory is explicit: a node is in `nodes` from its allocation to its release, its pointers are `none`
until they are stored, and a read of such a pointer, of a released node or of a key of `header` or
`tail` faults.  The level `get_node_level` draws and the outcome of the three allocations of an
insert are arguments of the call.  The ghost field `allocs` counts the nodes allocated so far and
bounds every walk.
-/

namespace CPractice.SkipList

open Lib

/-- `SKIP_LIST_MAX_LEVEL`. -/
def skipListMaxLevel : ℕ := 32

/-- `node_t`, allocated with room for `next[0..level]`. -/
structure NodeT (κ ν : Type) where
  entry : Option (κ × ν)
  level : ℕ
  next : ℕ → Option ℕ

/-- `skip_list_t` with the heap of nodes. -/
structure SkipListT (κ ν : Type) where
  level : ℕ
  tail : ℕ
  header : ℕ
  nodes : ℕ → Option (NodeT κ ν)
  allocs : ℕ

variable {κ ν : Type}

/-! ## Memory accesses -/

/-- A read of `node->next[level]`. -/
def nextAt (s : SkipListT κ ν) (level node : ℕ) : Option ℕ := do
  let n ← s.nodes node
  if level ≤ n.level then n.next level else none

/-- A read of `node->key` and `node->value`. -/
def entryAt (s : SkipListT κ ν) (node : ℕ) : Option (κ × ν) := do
  let n ← s.nodes node
  n.entry

/-- The node with `next[level]` stored. -/
def NodeT.withNext (n : NodeT κ ν) (level target : ℕ) : NodeT κ ν :=
  { n with next := Function.update n.next level (some target) }

/-- A store to `node->next[level]`. -/
def setNext (s : SkipListT κ ν) (level node target : ℕ) : Option (SkipListT κ ν) := do
  let n ← s.nodes node
  if level ≤ n.level then
    some { s with nodes := Function.update s.nodes node (some (n.withNext level target)) }
  else none

/-! ## `skip_list_init` -/

/-- `skip_list_init` with its allocations granted. -/
def skipListInit (tail header : ℕ) : SkipListT κ ν where
  level := 0
  tail := tail
  header := header
  nodes := Function.update (Function.update (fun _ ↦ none) tail (some ⟨none, 0, fun _ ↦ none⟩))
    header (some ⟨none, skipListMaxLevel, fun level ↦
      if level < skipListMaxLevel then some tail else none⟩)
  allocs := 0

/-! ## The search -/

/-- The inner loop of the search: the last node of the level whose key is above `key`, and the node
after it. -/
def walkLevel (cmp : κ → κ → ℤ) (s : SkipListT κ ν) (key : κ) (level : ℕ) :
    ℕ → ℕ → Option (ℕ × ℕ)
  | 0, _ => none
  | fuel + 1, pre => do
      let cur ← nextAt s level pre
      if cur = s.tail then some (pre, cur)
      else do
        let entry ← entryAt s cur
        if cmp key entry.1 < 0 then walkLevel cmp s key level fuel cur else some (pre, cur)

/-- The outer loop, from `level` down to `0`, filling `update`. -/
def descend (cmp : κ → κ → ℤ) (s : SkipListT κ ν) (key : κ) :
    ℕ → ℕ → (ℕ → Option ℕ) → Option ((ℕ → Option ℕ) × ℕ)
  | 0, pre, update => do
      let (pre, cur) ← walkLevel cmp s key 0 (s.allocs + 1) pre
      some (Function.update update 0 (some pre), cur)
  | level + 1, pre, update => do
      let (pre, _) ← walkLevel cmp s key (level + 1) (s.allocs + 1) pre
      descend cmp s key level pre (Function.update update (level + 1) (some pre))

/-- The search of all operations, with `update` uninitialised. -/
def search (cmp : κ → κ → ℤ) (s : SkipListT κ ν) (key : κ) : Option ((ℕ → Option ℕ) × ℕ) :=
  descend cmp s key s.level s.header fun _ ↦ none

/-- `IS_NEQ(cur, list->tail) && IS_ZR(list->cmp(cur->key, key))`. -/
def matchesKey (cmp : κ → κ → ℤ) (s : SkipListT κ ν) (cur : ℕ) (key : κ) : Option Bool :=
  if cur = s.tail then some false
  else do
    let entry ← entryAt s cur
    some (cmp entry.1 key = 0)

/-! ## `skip_list_insert` -/

/-- The outcomes of the allocations of an insert: the address of the node (`0` when it was refused)
and whether the buffers of key and value were granted. -/
structure Alloc where
  node : ℕ
  key : Bool
  value : Bool
  deriving DecidableEq

/-- All three allocations were granted. -/
def Alloc.granted (alloc : Alloc) : Prop := alloc.node ≠ 0 ∧ alloc.key = true ∧ alloc.value = true

instance (alloc : Alloc) : Decidable alloc.granted := inferInstanceAs (Decidable (_ ∧ _))

/-- The splice loop, from `level` down to `0`. -/
def splice (update : ℕ → Option ℕ) (cur : ℕ) : ℕ → SkipListT κ ν → Option (SkipListT κ ν)
  | 0, s => do
      let pre ← update 0
      let succ ← nextAt s 0 pre
      let s ← setNext s 0 cur succ
      setNext s 0 pre cur
  | level + 1, s => do
      let pre ← update (level + 1)
      let succ ← nextAt s (level + 1) pre
      let s ← setNext s (level + 1) cur succ
      let s ← setNext s (level + 1) pre cur
      splice update cur level s

/-- A level above the list's raises the list by one. -/
def raised (s : SkipListT κ ν) (level : ℕ) : SkipListT κ ν :=
  if s.level < level then { s with level := s.level + 1 } else s

/-- The level the new node gets. -/
def insertLevel (s : SkipListT κ ν) (level : ℕ) : ℕ :=
  if s.level < level then s.level + 1 else level

/-- The predecessor on a level that was just raised is the header. -/
def raisedUpdate (s : SkipListT κ ν) (level : ℕ) (update : ℕ → Option ℕ) : ℕ → Option ℕ :=
  if s.level < level then Function.update update (s.level + 1) (some s.header) else update

/-- The new node, its pointers not stored yet. -/
def addNode (s : SkipListT κ ν) (node level : ℕ) (key : κ) (value : ν) : SkipListT κ ν :=
  { s with
    nodes := Function.update s.nodes node (some ⟨some (key, value), level, fun _ ↦ none⟩)
    allocs := s.allocs + 1 }

/-- `skip_list_insert`; `level` is what `get_node_level` returned. -/
def skipListInsert (cmp : κ → κ → ℤ) (s : SkipListT κ ν) (key : κ) (value : ν) (level : ℕ)
    (alloc : Alloc) : Option (ℤ × SkipListT κ ν) := do
  let (update, cur) ← search cmp s key
  let found ← matchesKey cmp s cur key
  if found then some (-3, s)
  else if alloc.granted then do
    let s' := addNode (raised s level) alloc.node (insertLevel s level) key value
    let s' ← splice (raisedUpdate s level update) alloc.node (insertLevel s level) s'
    some (0, s')
  else some (-2, raised s level)

/-! ## `skip_list_erase` -/

/-- The unlinking loop from `level` upwards; `remaining` is `top + 1 - level`.  The source reads
`update[level]` before it tests `level` against `top`, and does not use what it read past it. -/
def unlinkLevels (update : ℕ → Option ℕ) (cur : ℕ) :
    ℕ → ℕ → SkipListT κ ν → Option (SkipListT κ ν)
  | 0, _, s => some s
  | remaining + 1, level, s => do
      let pre ← update level
      let target ← nextAt s level pre
      if target = cur then do
        let succ ← nextAt s level cur
        let s ← setNext s level pre succ
        unlinkLevels update cur remaining (level + 1) s
      else some s

/-- `DEALLOC(cur)`. -/
def freeNode (s : SkipListT κ ν) (node : ℕ) : Option (SkipListT κ ν) :=
  if (s.nodes node).isSome then some { s with nodes := Function.update s.nodes node none }
  else none

/-- The loop that lowers `top` past empty levels. -/
def lowerTop (s : SkipListT κ ν) : ℕ → Option ℕ
  | 0 => some 0
  | top + 1 => do
      let first ← nextAt s (top + 1) s.header
      if first = s.tail then lowerTop s top else some (top + 1)

/-- `list->cmp(key, cur->key)` in `skip_list_erase` has its arguments the other way round. -/
def matchesNode (cmp : κ → κ → ℤ) (s : SkipListT κ ν) (cur : ℕ) (key : κ) : Option Bool :=
  if cur = s.tail then some false
  else do
    let entry ← entryAt s cur
    some (cmp key entry.1 = 0)

/-- The removal of the node `cur` found by the search. -/
def removeNode (s : SkipListT κ ν) (update : ℕ → Option ℕ) (cur : ℕ) : Option (SkipListT κ ν) := do
  let s' ← unlinkLevels update cur (s.level + 1) 0 s
  let s' ← freeNode s' cur
  let top ← lowerTop s' s.level
  some { s' with level := top }

def skipListErase (cmp : κ → κ → ℤ) (s : SkipListT κ ν) (key : κ) : Option (SkipListT κ ν) := do
  let (update, cur) ← search cmp s key
  let found ← matchesNode cmp s cur key
  if found then removeNode s update cur else some s

/-! ## `skip_list_find` -/

/-- The code returned and the value behind `*value`. -/
def skipListFind (cmp : κ → κ → ℤ) (s : SkipListT κ ν) (key : κ) : Option (ℤ × Option ν) := do
  let (_, cur) ← search cmp s key
  let found ← matchesKey cmp s cur key
  if found then do
    let entry ← entryAt s cur
    some (0, some entry.2)
  else some (-2, none)

/-! ## Chains and runs -/

/-- The nodes of a level from `node` on, up to `tail`. -/
def chainFrom (s : SkipListT κ ν) (level : ℕ) : ℕ → ℕ → Option (List ℕ)
  | 0, _ => none
  | fuel + 1, node => do
      let cur ← nextAt s level node
      if cur = s.tail then some []
      else do
        let rest ← chainFrom s level fuel cur
        some (cur :: rest)

/-- The chain of a level from `header` to `tail`. -/
def chainAt (s : SkipListT κ ν) (level : ℕ) : Option (List ℕ) :=
  chainFrom s level (s.allocs + 1) s.header

inductive Call (κ ν : Type) where
  | insert (key : κ) (value : ν) (level : ℕ) (alloc : Alloc)
  | erase (key : κ)
  | find (key : κ)

inductive Ret (ν : Type) where
  | code (n : ℤ)
  | done
  | found (n : ℤ) (value : Option ν)
  deriving DecidableEq

/-- Levels drawn are below the maximum, and an allocator hands out fresh addresses. -/
def callOk (s : SkipListT κ ν) : Call κ ν → Prop
  | .insert _ _ level alloc =>
      level < skipListMaxLevel ∧ (alloc.node ≠ 0 → s.nodes alloc.node = none)
  | _ => True

def callExec (cmp : κ → κ → ℤ) (s : SkipListT κ ν) : Call κ ν → Option (Ret ν × SkipListT κ ν)
  | .insert key value level alloc => do
      let (ret, s) ← skipListInsert cmp s key value level alloc
      some (.code ret, s)
  | .erase key => do
      let s ← skipListErase cmp s key
      some (.done, s)
  | .find key => do
      let (ret, value) ← skipListFind cmp s key
      some (.found ret value, s)

/-- The runs from `skip_list_init`. -/
def machine (cmp : κ → κ → ℤ) : Machine (SkipListT κ ν) (Call κ ν) (Ret ν) where
  init s := ∃ tail header, tail ≠ 0 ∧ header ≠ 0 ∧ tail ≠ header ∧ s = skipListInit tail header
  ok := callOk
  exec := callExec cmp

end CPractice.SkipList
