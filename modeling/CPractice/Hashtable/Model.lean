import CPractice.Base
import CPractice.Lib.Refinement
import CPractice.Math.Prime

/-!
# The hash table of `lisk_hashtable.c`

The table is a chain of bucket arrays.  An insert into a crowded table puts a larger array in front,
and the older ones are emptied by the searches: a search that finds its key in an older array moves
the whole bucket to the front array and frees the old one when nothing is left in it.

A bucket is the list of its elements, and the chain the list of its arrays.  An element is one
allocation: the header, then the key, then the value; a copy past its end faults, and so does an
access to a bucket past the end of its array.  Elements are told apart by address, as in the source.
The hash function, the comparison and the outcome of every allocation are parameters.
-/

namespace CPractice.Hashtable

open Lib Math

/-- `MAX_BUCKET_SIZE`. -/
def maxBucketSize : ℕ := 5

/-- `sizeof(ht_elem_t)`: two packed size and pointer pairs and a pointer. -/
def elemSize : ℕ := 32

/-- `sizeof(table_t)`. -/
def tableSize : ℕ := 24

/-- `sizeof(ht_bucket_t)`. -/
def bucketSize : ℕ := 8

/-- `ht_elem_t`, at `addr` in an allocation of `cap` bytes. -/
structure HtElem where
  addr : ℕ
  cap : ℕ
  key : Bytes
  value : Bytes
  deriving DecidableEq

/-- `table_t`, with the number of buckets its allocation has room for. -/
structure TableT where
  size : ℕ
  number : ℕ
  slots : ℕ
  bucket : ℕ → List HtElem

/-- `hashtable_t`: the front table and the chain behind it. -/
structure HashtableT where
  table : TableT
  older : List TableT

/-! ## Tables -/

/-- The bucket of a hash value, which must lie in the allocation. -/
def TableT.slot (t : TableT) (pos : ℕ) : Option ℕ :=
  if t.size = 0 then none
  else if pos % t.size < t.slots then some (pos % t.size) else none

/-- The table with a bucket and its `number` stored. -/
def TableT.store (t : TableT) (b : ℕ) (elems : List HtElem) (number : ℕ) : TableT :=
  { t with bucket := Function.update t.bucket b elems, number := number }

/-- Allocation of a table.  Its byte length is computed on `u8`; the header must fit. -/
def newTable (size : ℕ) : Option TableT :=
  if u8 (tableSize + size * bucketSize) < tableSize then none
  else some
    { size := size
      number := 0
      slots := (u8 (tableSize + size * bucketSize) - tableSize) / bucketSize
      bucket := fun _ ↦ [] }

/-- Conversion of a `u8` to `n8`. -/
def toN8 (n : ℕ) : ℤ :=
  if n < 9223372036854775808 then n else n - 18446744073709551616

/-- `hashtable_init` with a size that is not zero and its allocations granted. -/
def hashtableInit (size : ℕ) : Option HashtableT := do
  let prime ← nextPrime (toN8 size)
  let table ← newTable prime.toNat
  some ⟨table, []⟩

/-- The size `hashtable_expand` asks for on its own. -/
def grownSize (size : ℕ) : Option ℕ :=
  if size ≤ u8 (size * 4) then some (u8 (size * 4))
  else if size ≤ u8 (size * 2) then some (u8 (size * 2))
  else if size ≤ u8 (size + size / 2) then some (u8 (size + size / 2))
  else none

/-- `hashtable_expand`. -/
def hashtableExpand (s : HashtableT) (size : ℕ) (granted : Bool) : Option (ℤ × HashtableT) :=
  match if size = 0 then grownSize s.table.size else some size with
  | none => some (0, s)
  | some size => do
      let prime ← nextPrime (toN8 size)
      if prime.toNat < s.table.size then some (0, s)
      else if granted then do
        let table ← newTable prime.toNat
        some (0, ⟨table, s.table :: s.older⟩)
      else some (-2, s)

/-- `hashtable_release_table`, which reads every bucket of the table. -/
def hashtableReleaseTable (t : TableT) : Option Unit :=
  if t.size ≤ t.slots then some () else none

/-! ## The search -/

section
variable (cmp : Bytes → Bytes → ℤ) (hash : Bytes → ℕ)

/-- Where a search found its key: `target` behind the tables `pre`, and the bucket in it. -/
structure Hit where
  pre : List TableT
  target : TableT
  post : List TableT
  bucket : ℕ
  elem : HtElem

/-- The loop of `hashtable_search` over the chain. -/
def searchTables (key : Bytes) : List TableT → Option (Option Hit)
  | [] => some none
  | t :: ts => do
      let b ← t.slot (hash key)
      match (t.bucket b).find? (fun e ↦ cmp e.key key = 0) with
      | some e => some (some ⟨[], t, ts, b, e⟩)
      | none => do
          let hit ← searchTables key ts
          some (hit.map fun hit ↦ { hit with pre := t :: hit.pre })

/-- The loop that moves the elements of bucket `b` of `target` to the front table. -/
def migrate (b : ℕ) (front target : TableT) : List HtElem → Option (TableT × TableT)
  | [] => some (front, target)
  | e :: rest => do
      let pos ← front.slot (hash e.key)
      migrate b (front.store pos (e :: front.bucket pos) (u8 (front.number + 1)))
        (target.store b rest (u8Sub target.number 1)) rest

/-- The chain after the migration: a table with nothing left in it is released. -/
def relink (front : TableT) (mid : List TableT) (target : TableT) (post : List TableT) :
    Option HashtableT :=
  if target.number = 0 then do
    hashtableReleaseTable target
    some ⟨front, mid ++ post⟩
  else some ⟨front, mid ++ target :: post⟩

/-- `hashtable_search`. -/
def hashtableSearch (s : HashtableT) (key : Bytes) : Option (ℤ × Option HtElem × HashtableT) :=
  if key = [] then some (-1, none, s)
  else do
    let hit ← searchTables cmp hash key (s.table :: s.older)
    match hit with
    | none => some (-2, none, s)
    | some ⟨[], _, _, _, elem⟩ => some (0, some elem, s)
    | some ⟨front :: mid, target, post, b, elem⟩ => do
        let (front, target) ← migrate hash b front target (target.bucket b)
        let s ← relink front mid target post
        some (0, some elem, s)

/-! ## The operations -/

/-- `hashtable_find`, with the value read through the pointer it returns. -/
def hashtableFind (s : HashtableT) (key : Bytes) : Option (ℤ × Option Bytes × HashtableT) := do
  let (ret, elem, s) ← hashtableSearch cmp hash s key
  if ret = 0 then do
    let elem ← elem
    some (ret, some elem.value, s)
  else some (-2, none, s)

/-- The copy of a value behind the key of an element. -/
def HtElem.setValue (e : HtElem) (value : Bytes) : Option HtElem :=
  if elemSize + e.key.length + value.length ≤ e.cap then some { e with value := value } else none

/-- The expansion at the start of `hashtable_insert`. -/
def expandIfCrowded (s : HashtableT) (granted : Bool) : Option HashtableT :=
  if maxBucketSize < s.table.number / s.table.size then
    (hashtableExpand s 0 granted).map Prod.snd
  else some s

/-- `hashtable_insert`; `alloc` is the address `ALLOC` returns for the element. -/
def hashtableInsert (s : HashtableT) (key value : Bytes) (granted : Bool) (alloc : Option ℕ) :
    Option (ℤ × HashtableT) :=
  if key = [] ∨ s.table.size = 0 ∨ value = [] then some (-1, s)
  else do
    let s ← expandIfCrowded s granted
    let (ret, _, s) ← hashtableSearch cmp hash s key
    if ret = 0 then some (-3, s)
    else
      match alloc with
      | none => some (-2, s)
      | some addr => do
          let elem ← HtElem.setValue ⟨addr, elemSize + key.length + value.length, key, []⟩ value
          let pos ← s.table.slot (hash key)
          some (0, ⟨s.table.store pos (elem :: s.table.bucket pos) (u8 (s.table.number + 1)), s.older⟩)

/-- `hashtable_erase`. -/
def hashtableErase (s : HashtableT) (key : Bytes) : Option (ℤ × HashtableT) :=
  if key = [] then some (-1, s)
  else do
    let (ret, elem, s) ← hashtableSearch cmp hash s key
    if ret = 0 then do
      let elem ← elem
      let pos ← s.table.slot (hash key)
      if (s.table.bucket pos).any (fun e ↦ e.addr = elem.addr) then
        some (0, ⟨s.table.store pos ((s.table.bucket pos).eraseP fun e ↦ e.addr = elem.addr)
          (u8Sub s.table.number 1), s.older⟩)
      else some (0, s)
    else some (-2, s)

/-- The walk of `hashtable_update` to the element before `addr`, when that is not the head. -/
def hasPredecessor (addr : ℕ) : List HtElem → Bool
  | _ :: e' :: rest => e'.addr = addr ∨ hasPredecessor addr (e' :: rest)
  | _ => false

/-- The store of the new pointer in the bucket or in the element before. -/
def replaceElem (addr : ℕ) (elem : HtElem) : List HtElem → List HtElem
  | [] => []
  | e :: rest => if e.addr = addr then elem :: rest else e :: replaceElem addr elem rest

/-- The element with the new value, in its old buffer if the value got shorter.  Otherwise the
buffer is reallocated with a byte count that is held in a `u4`; `moved` is the address `REALLOC`
returns.  When it fails and `ALLOC` does not, the source reads the old element through `nil`. -/
def updateElem (elem : HtElem) (key value : Bytes) (moved alloc : Option ℕ) :
    Option (Option HtElem) :=
  if value.length < elem.value.length then (elem.setValue value).map some
  else
    match moved, alloc with
    | some addr, _ =>
        (HtElem.setValue ⟨addr, u4 (elemSize + key.length + value.length), elem.key, elem.value⟩
          value).map some
    | none, none => some none
    | none, some _ => none

/-- `hashtable_update`. -/
def hashtableUpdate (s : HashtableT) (key value : Bytes) (moved alloc : Option ℕ) :
    Option (ℤ × HashtableT) :=
  if key = [] ∨ value = [] then some (-1, s)
  else do
    let (ret, elem, s) ← hashtableSearch cmp hash s key
    if ret = 0 then do
      let elem ← elem
      let pos ← s.table.slot (hash key)
      if (s.table.bucket pos).head?.map HtElem.addr = some elem.addr ∨
          hasPredecessor elem.addr (s.table.bucket pos) then do
        let updated ← updateElem elem key value moved alloc
        match updated with
        | none => some (-2, s)
        | some elem' =>
            some (0, ⟨s.table.store pos (replaceElem elem.addr elem' (s.table.bucket pos))
              s.table.number, s.older⟩)
      else some (-2, s)
    else some (-2, s)

/-- `hashtable_size`: the sum is held in a `u4`. -/
def hashtableSize (s : HashtableT) : ℕ :=
  (s.table :: s.older).foldl (fun htSize t ↦ u4 (htSize + t.number)) 0

/-! ## Calls -/

/-- A call with the outcomes of its allocations. -/
inductive Call where
  | insert (key value : Bytes) (granted : Bool) (alloc : Option ℕ)
  | find (key : Bytes)
  | erase (key : Bytes)
  | update (key value : Bytes) (moved alloc : Option ℕ)
  | size

/-- The result of a call: the returned code and what is stored through the out pointer. -/
inductive Ret where
  | code (ret : ℤ)
  | found (ret : ℤ) (value : Option Bytes)
  | size (number : ℕ)

def callExec (s : HashtableT) : Call → Option (Ret × HashtableT)
  | .insert key value granted alloc =>
      (hashtableInsert cmp hash s key value granted alloc).map fun out ↦ (.code out.1, out.2)
  | .find key =>
      (hashtableFind cmp hash s key).map fun out ↦ (.found out.1 out.2.1, out.2.2)
  | .erase key => (hashtableErase cmp hash s key).map fun out ↦ (.code out.1, out.2)
  | .update key value moved alloc =>
      (hashtableUpdate cmp hash s key value moved alloc).map fun out ↦ (.code out.1, out.2)
  | .size => some (.size (hashtableSize s), s)

end

/-- The elements of a table. -/
def TableT.elems (t : TableT) : List HtElem := (List.range t.size).flatMap t.bucket

/-- The elements of all tables of the chain. -/
def HashtableT.elems (s : HashtableT) : List HtElem := (s.table :: s.older).flatMap TableT.elems

/-- The address an allocation returns is not `nil` and differs from those in use, except, for a
reallocation, from that of the element itself. -/
def freshFor (s : HashtableT) (own : Bytes → Prop) (addr : ℕ) : Prop :=
  0 < addr ∧ addr < 18446744073709551616 ∧ ∀ e ∈ s.elems, ¬ own e.key → e.addr ≠ addr

/-- What the environment promises: sizes are `u4` and allocations succeed. -/
def callOk (s : HashtableT) : Call → Prop
  | .insert key value granted alloc =>
      key.length < 4294967296 ∧ value.length < 4294967296 ∧ granted = true ∧
        ∃ addr ∈ alloc, freshFor s (fun _ ↦ False) addr
  | .find key => key.length < 4294967296
  | .erase key => key.length < 4294967296
  | .update key value moved _ =>
      key.length < 4294967296 ∧ value.length < 4294967296 ∧
        ∃ addr ∈ moved, freshFor s (fun k ↦ k = key) addr
  | .size => True

/-- The hash table with every size and every call, as long as allocations succeed. -/
def machine (cmp : Bytes → Bytes → ℤ) (hash : Bytes → ℕ) : Machine HashtableT Call Ret where
  init s := ∃ size, 0 < size ∧ size < 18446744073709551616 ∧ hashtableInit size = some s
  ok := callOk
  exec := callExec cmp hash

end CPractice.Hashtable
