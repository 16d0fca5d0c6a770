import CPractice.Base
import CPractice.Lib.Refinement

/-!
# The dictionary of `dict.c`

A dictionary is a hash table with chains, which grows by incremental rehashing: while `rehashidx` is not
`-1` there are two tables, and each call moves a bucket of the first to the second.

A table is the list of its buckets, empty for the null pointer, and a bucket the list of its entries.  The
hash function is a parameter, with values in `unsigned int`; keys are compared by equality.  An access
outside a table, the loop of a size that does not end and an allocation whose size overflows are faults.
The value that a call releases or forgets is not kept.
-/

namespace CPractice.Dict

open Lib

/-- `dictht`. -/
structure Dictht (κ ν : Type) where
  table : List (List (κ × ν))
  size : ℕ
  sizemask : ℕ
  used : ℕ

/-- `dict`. -/
structure DictT (κ ν : Type) where
  ht0 : Dictht κ ν
  ht1 : Dictht κ ν
  rehashidx : ℤ
  iterators : ℤ

/-- `DICT_HT_INITIAL_SIZE`. -/
def initialSize : ℕ := 4

/-- `dict_force_resize_ratio`. -/
def forceResizeRatio : ℕ := 5

/-- `LONG_MAX`. -/
def longMax : ℕ := 9223372036854775807

/-- `DICT_OK`. -/
def dictOk : ℤ := 0

/-- `DICT_ERR`. -/
def dictErr : ℤ := 1

variable {κ ν : Type}

/-- `dictIsRehashing`. -/
def isRehashing (d : DictT κ ν) : Prop := d.rehashidx ≠ -1

instance (d : DictT κ ν) : Decidable (isRehashing d) := inferInstanceAs (Decidable (_ ≠ _))

/-- `dictSize`. -/
def dictSize (d : DictT κ ν) : ℕ := d.ht0.used + d.ht1.used

/-- `_dictReset`. -/
def dictReset : Dictht κ ν := ⟨[], 0, 0, 0⟩

/-- `dictCreate`. -/
def dictCreate : DictT κ ν := ⟨dictReset, dictReset, -1, 0⟩

/-! ## The size of a table -/

/-- The loop of `_dictNextPower`, for at most 64 turns. -/
def nextPowerLoop (size : ℕ) (i : ℕ) : ℕ → Option ℕ
  | 0 => none
  | turns + 1 => if i ≥ size then some i else nextPowerLoop size (u8 (i * 2)) turns

/-- `_dictNextPower`. -/
def dictNextPower (size : ℕ) : Option ℕ :=
  if size ≥ longMax then some longMax else nextPowerLoop size initialSize 64

/-- `dictExpand`; the table is an array of pointers of eight bytes. -/
def dictExpand (d : DictT κ ν) (size : ℕ) : Option (ℤ × DictT κ ν) := do
  let realsize ← dictNextPower size
  if isRehashing d ∨ d.ht0.used > size then some (dictErr, d)
  else if realsize = d.ht0.size then some (dictErr, d)
  else if 18446744073709551616 ≤ realsize * 8 then none
  else
    let n : Dictht κ ν := ⟨List.replicate realsize [], realsize, realsize - 1, 0⟩
    if d.ht0.table.isEmpty then some (dictOk, { d with ht0 := n })
    else some (dictOk, { d with ht1 := n, rehashidx := 0 })

/-- `dictResize`, with `dict_can_resize`; `minimal` is an `int`. -/
def dictResize (canResize : Bool) (d : DictT κ ν) : Option (ℤ × DictT κ ν) :=
  if !canResize ∨ isRehashing d then some (dictErr, d)
  else
    let minimal := Int.bmod d.ht0.used 4294967296
    let minimal := if minimal < initialSize then (initialSize : ℤ) else minimal
    dictExpand d (minimal % 18446744073709551616).toNat

/-- `_dictExpandIfNeeded`. -/
def dictExpandIfNeeded (canResize : Bool) (d : DictT κ ν) : Option (ℤ × DictT κ ν) :=
  if isRehashing d then some (dictOk, d)
  else if d.ht0.size = 0 then dictExpand d initialSize
  else if d.ht0.used ≥ d.ht0.size ∧ (canResize ∨ d.ht0.used / d.ht0.size > forceResizeRatio) then
    dictExpand d (u8 (d.ht0.used * 2))
  else some (dictOk, d)

/-! ## Rehashing -/

/-- The loop over empty buckets: the index reached and the visits left, none when it gives up. -/
def skipEmpty (table : List (List (κ × ν))) (idx : ℕ) : ℕ → Option (ℕ × ℕ)
  | 0 => some (idx, 0)
  | visits + 1 => match table[idx]? with
      | none => none
      | some [] => skipEmpty table (idx + 1) visits
      | some (_ :: _) => some (idx, visits + 1)

section
variable (hash : κ → ℕ)

/-- The index of a key in a table. -/
def indexOf (ht : Dictht κ ν) (key : κ) : ℕ := hash key &&& ht.sizemask

/-- An entry is put in front of a bucket. -/
def pushEntry (ht : Dictht κ ν) (index : ℕ) (entry : κ × ν) : Option (Dictht κ ν) := do
  let bucket ← ht.table[index]?
  some { ht with table := ht.table.set index (entry :: bucket), used := u8 (ht.used + 1) }

/-- The entries of a bucket are moved to the second table. -/
def moveBucket (ht0 ht1 : Dictht κ ν) : List (κ × ν) → Option (Dictht κ ν × Dictht κ ν)
  | [] => some (ht0, ht1)
  | de :: nextde => do
      let ht1 ← pushEntry ht1 (indexOf hash ht1 de.1) de
      moveBucket { ht0 with used := u8Sub ht0.used 1 } ht1 nextde

/-- The loop of `dictRehash`: whether it returned from within. -/
def rehashLoop (d : DictT κ ν) (visits : ℕ) : ℕ → Option (Bool × DictT κ ν)
  | 0 => some (false, d)
  | n + 1 =>
      if d.ht0.used = 0 then some (false, d)
      else do
        let (idx, visits) ← skipEmpty d.ht0.table d.rehashidx.toNat visits
        if visits = 0 then some (true, { d with rehashidx := idx })
        else do
          let bucket ← d.ht0.table[idx]?
          let (ht0, ht1) ← moveBucket hash d.ht0 d.ht1 bucket
          rehashLoop { d with
            ht0 := { ht0 with table := ht0.table.set idx [] }
            ht1 := ht1
            rehashidx := idx + 1 } visits n

/-- `dictRehash`. -/
def dictRehash (d : DictT κ ν) (n : ℕ) : Option (ℤ × DictT κ ν) :=
  if isRehashing d then do
    let (returned, d) ← rehashLoop hash d (n * 10) n
    if returned then some (1, d)
    else if d.ht0.used = 0 then
      some (0, { d with ht0 := d.ht1, ht1 := dictReset, rehashidx := -1 })
    else some (1, d)
  else some (0, d)

/-- `_dictRehashStep`, made if the dictionary is rehashing. -/
def dictRehashStep (d : DictT κ ν) : Option (DictT κ ν) :=
  if isRehashing d then
    if d.iterators = 0 then (dictRehash hash d 1).map Prod.snd else some d
  else some d

/-! ## Lookup and changes -/

variable [DecidableEq κ]

/-- The entry of a key in a table. -/
def findIn (ht : Dictht κ ν) (key : κ) : Option (Option (κ × ν)) :=
  (ht.table[indexOf hash ht key]?).map fun bucket ↦ bucket.find? fun he ↦ key = he.1

/-- `dictFind`; the outer `none` is a fault, the inner one the null pointer. -/
def dictFind (d : DictT κ ν) (key : κ) : Option (Option (κ × ν) × DictT κ ν) :=
  if d.ht0.size = 0 then some (none, d)
  else do
    let d ← dictRehashStep hash d
    match ← findIn hash d.ht0 key with
    | some he => some (some he, d)
    | none =>
        if isRehashing d then do
          let he ← findIn hash d.ht1 key
          some (he, d)
        else some (none, d)

/-- `_dictKeyIndex`: the index is cut to an `int`, and `-1` if there is an entry of the key. -/
def dictKeyIndex (canResize : Bool) (d : DictT κ ν) (key : κ) : Option (ℤ × DictT κ ν) := do
  let (ret, d) ← dictExpandIfNeeded canResize d
  if ret = dictErr then some (-1, d)
  else
    match ← findIn hash d.ht0 key with
    | some _ => some (-1, d)
    | none =>
        if isRehashing d then
          match ← findIn hash d.ht1 key with
          | some _ => some (-1, d)
          | none => some (Int.bmod (indexOf hash d.ht1 key) 4294967296, d)
        else some (Int.bmod (indexOf hash d.ht0 key) 4294967296, d)

/-- `dictAdd`, with `dictAddRaw`. -/
def dictAdd (canResize : Bool) (d : DictT κ ν) (key : κ) (val : ν) : Option (ℤ × DictT κ ν) := do
  let d ← dictRehashStep hash d
  let (index, d) ← dictKeyIndex hash canResize d key
  if index = -1 then some (dictErr, d)
  else if index < 0 then none
  else if isRehashing d then do
    let ht1 ← pushEntry d.ht1 index.toNat (key, val)
    some (dictOk, { d with ht1 := ht1 })
  else do
    let ht0 ← pushEntry d.ht0 index.toNat (key, val)
    some (dictOk, { d with ht0 := ht0 })

/-- A bucket with the value of its first entry of a key set. -/
def setVal (key : κ) (val : ν) : List (κ × ν) → List (κ × ν)
  | [] => []
  | he :: next => if key = he.1 then (he.1, val) :: next else he :: setVal key val next

/-- A table with the value of the entry of a key set. -/
def setIn (ht : Dictht κ ν) (key : κ) (val : ν) : Option (Dictht κ ν) := do
  let bucket ← ht.table[indexOf hash ht key]?
  some { ht with table := ht.table.set (indexOf hash ht key) (setVal key val bucket) }

/-- The store to the entry that `dictFind` has found. -/
def setEntry (d : DictT κ ν) (key : κ) (val : ν) : Option (DictT κ ν) := do
  match ← findIn hash d.ht0 key with
  | some _ =>
      let ht0 ← setIn hash d.ht0 key val
      some { d with ht0 := ht0 }
  | none =>
      let ht1 ← setIn hash d.ht1 key val
      some { d with ht1 := ht1 }

/-- `dictReplace`. -/
def dictReplace (canResize : Bool) (d : DictT κ ν) (key : κ) (val : ν) : Option (ℤ × DictT κ ν) := do
  let (ret, d) ← dictAdd hash canResize d key val
  if ret = dictOk then some (1, d)
  else
    match ← dictFind hash d key with
    | (none, _) => none
    | (some _, d) => do
        let d ← setEntry hash d key val
        some (0, d)

/-- The search and the unlinking in one table. -/
def deleteIn (ht : Dictht κ ν) (key : κ) : Option (Bool × Dictht κ ν) := do
  let bucket ← ht.table[indexOf hash ht key]?
  if bucket.any fun he ↦ key = he.1 then
    some (true, { ht with
      table := ht.table.set (indexOf hash ht key) (bucket.eraseP fun he ↦ key = he.1)
      used := u8Sub ht.used 1 })
  else some (false, ht)

/-- `dictGenericDelete`. -/
def dictDelete (d : DictT κ ν) (key : κ) : Option (ℤ × DictT κ ν) :=
  if d.ht0.size = 0 then some (dictErr, d)
  else do
    let d ← dictRehashStep hash d
    let (found, ht0) ← deleteIn hash d.ht0 key
    if found then some (dictOk, { d with ht0 := ht0 })
    else if isRehashing d then do
      let (found, ht1) ← deleteIn hash d.ht1 key
      if found then some (dictOk, { d with ht1 := ht1 }) else some (dictErr, d)
    else some (dictErr, d)

end

/-- `dictFetchValue`. -/
def dictFetchValue [DecidableEq κ] (hash : κ → ℕ) (d : DictT κ ν) (key : κ) :
    Option (Option ν × DictT κ ν) := do
  let (he, d) ← dictFind hash d key
  some (he.map Prod.snd, d)

/-- `dictEmpty`. -/
def dictEmpty : DictT κ ν := ⟨dictReset, dictReset, -1, 0⟩

/-! ## Iterators -/

/-- `dictIterator` without its fingerprint, which nothing compares; an entry is named by its key. -/
structure DictIterator (κ : Type) where
  table : ℕ
  index : ℤ
  safe : Bool
  entry : Option κ
  nextEntry : Option κ
  deriving DecidableEq

/-- `dictGetIterator`, and `dictGetSafeIterator` where `safe` is set. -/
def dictGetIterator (κ : Type) (safe : Bool) : DictIterator κ := ⟨0, -1, safe, none, none⟩

/-- `entry->next` of the entry of a key, if it is in the bucket. -/
def nextIn [DecidableEq κ] (bucket : List (κ × ν)) (key : κ) : Option (Option κ) :=
  match bucket.dropWhile fun he ↦ he.1 ≠ key with
  | [] => none
  | _ :: next => some (next.head?.map Prod.fst)

/-- `entry->next`, a fault if there is no such entry. -/
def entryNext [DecidableEq κ] (d : DictT κ ν) (key : κ) : Option (Option κ) :=
  (d.ht0.table ++ d.ht1.table).findSome? fun bucket ↦ nextIn bucket key

/-- The first half of the loop of `dictNext`, which sets `entry`, and false at its `break`. -/
def advance (d : DictT κ ν) (iter : DictIterator κ) : Option (Bool × DictT κ ν × DictIterator κ) :=
  match iter.entry with
  | some _ => some (true, d, { iter with entry := iter.nextEntry })
  | none =>
      let d := if iter.index = -1 ∧ iter.table = 0 ∧ iter.safe then
          { d with iterators := d.iterators + 1 }
        else d
      let index := iter.index + 1
      let ht := if iter.table = 0 then d.ht0 else d.ht1
      if index ≥ ht.size then
        if isRehashing d ∧ iter.table = 0 then do
          let bucket ← d.ht1.table[0]?
          some (true, d, { iter with table := 1, index := 0, entry := bucket.head?.map Prod.fst })
        else some (false, d, { iter with index := index })
      else do
        let bucket ← ht.table[index.toNat]?
        some (true, d, { iter with index := index, entry := bucket.head?.map Prod.fst })

/-- The loop of `dictNext`, for a number of turns. -/
def nextLoop [DecidableEq κ] (d : DictT κ ν) (iter : DictIterator κ) :
    ℕ → Option (Option κ × DictT κ ν × DictIterator κ)
  | 0 => none
  | turns + 1 => do
      let (more, d, iter) ← advance d iter
      if !more then some (none, d, iter)
      else match iter.entry with
        | some key => do
            let nextEntry ← entryNext d key
            some (some key, d, { iter with nextEntry := nextEntry })
        | none => nextLoop d iter turns

/-- `dictNext`; each turn but two goes to another bucket. -/
def dictNext [DecidableEq κ] (d : DictT κ ν) (iter : DictIterator κ) :
    Option (Option κ × DictT κ ν × DictIterator κ) :=
  nextLoop d iter (d.ht0.size + d.ht1.size + 3)

/-- `dictReleaseIterator`. -/
def dictReleaseIterator (d : DictT κ ν) (iter : DictIterator κ) : DictT κ ν :=
  if ¬ (iter.index = -1 ∧ iter.table = 0) ∧ iter.safe then { d with iterators := d.iterators - 1 }
  else d

end CPractice.Dict
