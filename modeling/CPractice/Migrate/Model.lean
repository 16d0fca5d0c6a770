import CPractice.Migrate.Server

/-!
# The migration tool

`migrate_db`, `migrate_db2` and, per type, the functions of `tool.c` that copy one key.  An assertion
that fails is `none`, and so is a loop that uses up its turns; every reply arrives, so the assertions
that a reply is not null hold.  A copy reads the source, which does not change, and keeps in the
`Session` how far the destination is and how many scan calls each key has had.
-/

namespace CPractice.Migrate

variable {Score : Type}

/-- `SCAN_INC`. -/
def SCAN_INC : ℕ := 10

/-- `KV_TYPE`. -/
inductive KvType where
  | string | list | set | hash | sset | none | unknown
  deriving DecidableEq

/-- `type_name`, with the enumerator of each index. -/
def typeName : List (String × KvType) :=
  [("string", .string), ("list", .list), ("set", .set), ("hash", .hash), ("zset", .sset),
    ("none", .none)]

/-- The scan calls each key has had, and the destination. -/
structure Session (Score : Type) where
  calls : Bytes → ℕ
  dst : Db Score

/-- `get_key_num`. -/
def getKeyNum (src : Server Score) : ℤ := src.keys.length

/-- `get_key_type`. -/
def getKeyType (src : Server Score) (key : Bytes) : Option KvType :=
  if key.length = 0 then none
  else match typeName.find? (fun entry ↦ entry.1 = src.db.type key) with
    | some entry => some entry.2
    | none => some .unknown

/-! ## Lists -/

/-- The loop over one reply of `lrange`. -/
def pushElements (key : Bytes) : List Bytes → Db Score → Option (Db Score)
  | [], dst => some dst
  | element :: elements, dst =>
      if element.length = 0 then none
      else pushElements key elements (dst.rpush key element)

/-- The loop of `migrate_list`; the index never moves. -/
def migrateListLoop (src : Server Score) (key : Bytes) (index : ℤ) :
    ℕ → Db Score → Option (Db Score)
  | 0, _ => none
  | turns + 1, dst => do
      let elements ← src.db.lrange key index (index + SCAN_INC - 1)
      if elements.length = 0 then some dst
      else
        let dst ← pushElements key elements dst
        if elements.length < SCAN_INC then some dst
        else migrateListLoop src key index turns dst

/-- `migrate_list`. -/
def migrateList (src : Server Score) (turns : ℕ) (st : Session Score) (key : Bytes) :
    Option (Session Score) := do
  let dst ← migrateListLoop src key 0 turns st.dst
  some { st with dst := dst }

/-! ## Sets, sorted sets and hashes -/

/-- The loop of `migrate_set`, `migrate_sset` and `migrate_hashtable` over the calls of a scan. -/
def scanLoop (scan : ℕ → ℤ → ScanReply) (copy : List Bytes → Db Score → Option (Db Score)) :
    ℕ → ℕ → ℤ → Db Score → Option (ℕ × Db Score)
  | 0, _, _, _ => none
  | turns + 1, call, cursor, dst =>
      match scan call cursor with
      | .error _ => none
      | .ok (next, elements) => do
          let dst ← copy elements dst
          if next ≠ 0 then scanLoop scan copy turns (call + 1) next dst
          else some (call + 1, dst)

/-- A scan of a key's value from cursor zero. -/
def scanKey (scan : ℕ → ℤ → ScanReply) (copy : List Bytes → Db Score → Option (Db Score))
    (turns : ℕ) (st : Session Score) (key : Bytes) : Option (Session Score) := do
  let (call, dst) ← scanLoop scan copy turns (st.calls key) 0 st.dst
  some { calls := Function.update st.calls key call, dst := dst }

/-- The loop over the members of a reply. -/
def addMembers (key : Bytes) (members : List Bytes) (dst : Db Score) : Option (Db Score) :=
  some (members.foldl (fun dst member ↦ dst.sadd key member) dst)

/-- The loop over a reply that takes two elements a turn; an odd one would be read past the end. -/
def addPairs (command : Db Score → Bytes → Bytes → Db Score) :
    List Bytes → Db Score → Option (Db Score)
  | [], dst => some dst
  | [_], _ => none
  | first :: second :: elements, dst => addPairs command elements (command dst first second)

/-- `zadd` with the member first, as the replies have it. -/
def addScored (src : Server Score) (key : Bytes) (dst : Db Score) (member score : Bytes) :
    Db Score :=
  dst.zadd src.toScoreText key score member

/-- `hset`. -/
def addField (key : Bytes) (dst : Db Score) (field text : Bytes) : Db Score :=
  dst.hset key field text

/-- `migrate_set`. -/
def migrateSet (src : Server Score) (turns : ℕ) (st : Session Score) (key : Bytes) :
    Option (Session Score) :=
  scanKey (src.sscan key) (addMembers key) turns st key

/-- `migrate_sset`. -/
def migrateSset (src : Server Score) (turns : ℕ) (st : Session Score) (key : Bytes) :
    Option (Session Score) :=
  scanKey (src.zscan key) (addPairs (addScored src key)) turns st key

/-- `migrate_hashtable`. -/
def migrateHashtable (src : Server Score) (turns : ℕ) (st : Session Score) (key : Bytes) :
    Option (Session Score) :=
  scanKey (src.hscan key) (addPairs (addField key)) turns st key

/-- `migrate_set2`. -/
def migrateSet2 (src : Server Score) (st : Session Score) (key : Bytes) :
    Option (Session Score) := do
  let dst ← addMembers key (src.smembers key) st.dst
  some { st with dst := dst }

/-- A whole reply of pairs, asserted not to be empty. -/
def wholeReply (command : Db Score → Bytes → Bytes → Db Score) (elements : List Bytes)
    (st : Session Score) : Option (Session Score) :=
  if elements.length = 0 then none
  else do
    let dst ← addPairs command elements st.dst
    some { st with dst := dst }

/-- `migrate_sset2`. -/
def migrateSset2 (src : Server Score) (st : Session Score) (key : Bytes) :
    Option (Session Score) :=
  wholeReply (addScored src key) (interleave (src.zrange key)) st

/-- `migrate_hashtable2`. -/
def migrateHashtable2 (src : Server Score) (st : Session Score) (key : Bytes) :
    Option (Session Score) :=
  wholeReply (addField key) (interleave (src.hgetall key)) st

/-! ## Keys -/

/-- The string case of `migrate_key` and `migrate_key2`. -/
def migrateString (src : Server Score) (st : Session Score) (key : Bytes) :
    Option (Session Score) := do
  let text ← src.db.get key
  if text.length = 0 then none
  else some { st with dst := st.dst.set key text }

/-- `migrate_key`. -/
def migrateKey (src : Server Score) (turns : ℕ) (st : Session Score) (key : Bytes) :
    Option (Session Score) := do
  match ← getKeyType src key with
  | .string => migrateString src st key
  | .hash => migrateHashtable src turns st key
  | .list => migrateList src turns st key
  | .set => migrateSet src turns st key
  | .sset => migrateSset src turns st key
  | .none => some st
  | .unknown => some st

/-- `migrate_key2`. -/
def migrateKey2 (src : Server Score) (turns : ℕ) (st : Session Score) (key : Bytes) :
    Option (Session Score) := do
  match ← getKeyType src key with
  | .string => migrateString src st key
  | .hash => migrateHashtable2 src st key
  | .list => migrateList src turns st key
  | .set => migrateSet2 src st key
  | .sset => migrateSset2 src st key
  | .none => some st
  | .unknown => some st

/-! ## Databases -/

/-- `migrate_db2` in the middle of a session. -/
def migrateDb2From (src : Server Score) (turns : ℕ) (st : Session Score) :
    Option (Session Score) :=
  if getKeyNum src ≤ 0 then some st
  else src.keys.foldlM (migrateKey2 src turns) st

/-- `!strncmp(text, other, len)` for a text of that length without a zero byte. -/
def strncmpWhole (text other : String) : Bool := text.toList.isPrefixOf other.toList

/-- The loop of `migrate_db`; `inner` bounds the loops of the functions it calls. -/
def migrateDbLoop (src : Server Score) (inner : ℕ) :
    ℕ → ℕ → ℤ → Session Score → Option (Session Score)
  | 0, _, _, _ => none
  | turns + 1, call, cursor, st =>
      match src.scan call cursor with
      | .error text =>
          -- the server is too old to have `scan`
          if strncmpWhole text unknownScan then migrateDb2From src inner st else none
      | .ok (next, keys) => do
          let st ← keys.foldlM (migrateKey src inner) st
          if next ≠ 0 then migrateDbLoop src inner turns (call + 1) next st else some st

/-- `migrate_db` with an empty destination. -/
def migrateDb (src : Server Score) (turns : ℕ) : Option (Db Score) :=
  let st : Session Score := { calls := fun _ ↦ 0, dst := fun _ ↦ none }
  if getKeyNum src ≤ 0 then some st.dst
  else (migrateDbLoop src turns turns 0 0 st).map Session.dst

/-- `migrate_db2` with an empty destination. -/
def migrateDb2 (src : Server Score) (turns : ℕ) : Option (Db Score) :=
  (migrateDb2From src turns { calls := fun _ ↦ 0, dst := fun _ ↦ none }).map Session.dst

end CPractice.Migrate
