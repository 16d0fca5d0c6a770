import CPractice.Base
import Mathlib.Data.Finset.Insert
import Mathlib.Logic.Function.Basic

/-!
# Redis databases and the server that holds the source

The commands that `redis-migrate` sends.  A command to the destination changes a database
(`rpush`, `sadd`, ..); on a key of another type it is an error reply and leaves the database as it
is.  A `Server` is the unchanging source together with everything in its replies that the commands
do not fix: the order of `keys`, `smembers`, `hgetall` and `zrange`, and the pages of the four scans,
which may differ from one call to the next and may repeat elements.

Scores travel as text; `ScoreText` is the pair of conversions the servers use.
-/

namespace CPractice.Migrate

/-- A key's value; hashes and sorted sets map fields to strings and members to scores. -/
inductive Value (Score : Type) where
  | string (text : Bytes)
  | list (elements : List Bytes)
  | set (members : Finset Bytes)
  | hash (fields : Bytes → Option Bytes)
  | zset (scores : Bytes → Option Score)

/-- A database: the value bound to each key. -/
abbrev Db (Score : Type) := Bytes → Option (Value Score)

/-- How a server prints a score and reads one. -/
structure ScoreText (Score : Type) where
  print : Score → Bytes
  read : Bytes → Option Score
  read_print : ∀ score, read (print score) = some score

namespace Db

variable {Score : Type}

/-! ## Commands to the destination -/

/-- `set key text`. -/
def set (db : Db Score) (key text : Bytes) : Db Score :=
  Function.update db key (some (.string text))

/-- `rpush key element`. -/
def rpush (db : Db Score) (key element : Bytes) : Db Score :=
  match db key with
  | none => Function.update db key (some (.list [element]))
  | some (.list elements) => Function.update db key (some (.list (elements ++ [element])))
  | some _ => db

/-- `sadd key member`. -/
def sadd (db : Db Score) (key member : Bytes) : Db Score :=
  match db key with
  | none => Function.update db key (some (.set {member}))
  | some (.set members) => Function.update db key (some (.set (insert member members)))
  | some _ => db

/-- `hset key field text`. -/
def hset (db : Db Score) (key field text : Bytes) : Db Score :=
  match db key with
  | none =>
      Function.update db key (some (.hash (Function.update (fun _ ↦ none) field (some text))))
  | some (.hash fields) =>
      Function.update db key (some (.hash (Function.update fields field (some text))))
  | some _ => db

/-- `zadd key score member`; a score that does not read as a number is an error reply. -/
def zadd (scores : ScoreText Score) (db : Db Score) (key score member : Bytes) : Db Score :=
  match scores.read score, db key with
  | some value, none =>
      Function.update db key (some (.zset (Function.update (fun _ ↦ none) member (some value))))
  | some value, some (.zset members) =>
      Function.update db key (some (.zset (Function.update members member (some value))))
  | _, _ => db

/-! ## Commands to the source -/

/-- The status that `type key` replies. -/
def type (db : Db Score) (key : Bytes) : String :=
  match db key with
  | none => "none"
  | some (.string _) => "string"
  | some (.list _) => "list"
  | some (.set _) => "set"
  | some (.hash _) => "hash"
  | some (.zset _) => "zset"

/-- `get key`: `none` is a reply that is not a string. -/
def get (db : Db Score) (key : Bytes) : Option Bytes :=
  match db key with
  | some (.string text) => some text
  | _ => none

/-- `lrange key start stop`: indexes below zero count from the end, the range is clipped to the
list, and `none` is a reply that is not an array. -/
def lrange (db : Db Score) (key : Bytes) (start stop : ℤ) : Option (List Bytes) :=
  match db key with
  | none => some []
  | some (.list elements) =>
      let first := max 0 (if start < 0 then start + elements.length else start)
      let last := if stop < 0 then stop + elements.length else stop
      some ((elements.drop first.toNat).take (last - first + 1).toNat)
  | some _ => none

end Db

/-! ## Scans -/

/-- The reply to one call of a scan: the next cursor and the elements, or an error. -/
abbrev ScanReply := Except String (ℤ × List Bytes)

/-- The scan continued from a call and a cursor ends, after exactly these pages, with cursor zero.
The replies may depend on the number of the call as well as on the cursor. -/
inductive Iterates (scan : ℕ → ℤ → ScanReply) : ℕ → ℤ → List (List Bytes) → Prop where
  | last {call : ℕ} {cursor : ℤ} {page : List Bytes} :
      scan call cursor = .ok (0, page) → Iterates scan call cursor [page]
  | more {call : ℕ} {cursor next : ℤ} {page : List Bytes} {pages : List (List Bytes)} :
      scan call cursor = .ok (next, page) → next ≠ 0 →
      Iterates scan (call + 1) next pages → Iterates scan call cursor (page :: pages)

/-- Pairs as a flat reply: each first component followed by its second. -/
def interleave (pairs : List (Bytes × Bytes)) : List Bytes :=
  pairs.flatMap fun pair ↦ [pair.1, pair.2]

@[simp]
theorem interleave_nil : interleave [] = [] := rfl

@[simp]
theorem interleave_cons (pair : Bytes × Bytes) (pairs : List (Bytes × Bytes)) :
    interleave (pair :: pairs) = pair.1 :: pair.2 :: interleave pairs := rfl

/-- The error text of a server that has no `scan`. -/
def unknownScan : String := "ERR unknown command 'scan'"

/-- The unchanging source.  No key holds an empty list, set, hash or sorted set; every scan of a
value, from any of its calls on, ends and returns exactly the elements, each at least once; so does
`scan` for the keys, unless the server is too old to have it. -/
structure Server (Score : Type) extends ScoreText Score where
  db : Db Score
  keys : List Bytes
  scan : ℕ → ℤ → ScanReply
  smembers : Bytes → List Bytes
  sscan : Bytes → ℕ → ℤ → ScanReply
  hgetall : Bytes → List (Bytes × Bytes)
  hscan : Bytes → ℕ → ℤ → ScanReply
  zrange : Bytes → List (Bytes × Bytes)
  zscan : Bytes → ℕ → ℤ → ScanReply
  keys_nodup : keys.Nodup
  mem_keys : ∀ key, key ∈ keys ↔ (db key).isSome
  scan_keys : (∃ pages, Iterates scan 0 0 pages ∧ ∀ key, key ∈ pages.flatten ↔ (db key).isSome) ∨
    scan 0 0 = .error unknownScan
  list_ne_nil : ∀ key elements, db key = some (.list elements) → elements ≠ []
  set_ne_empty : ∀ key members, db key = some (.set members) → members ≠ ∅
  mem_smembers : ∀ key members, db key = some (.set members) →
    ∀ member, member ∈ smembers key ↔ member ∈ members
  sscan_set : ∀ key members, db key = some (.set members) → ∀ call,
    ∃ pages, Iterates (sscan key) call 0 pages ∧ ∀ member, member ∈ pages.flatten ↔ member ∈ members
  hash_ne_empty : ∀ key fields, db key = some (.hash fields) → ∃ field, (fields field).isSome
  mem_hgetall : ∀ key fields, db key = some (.hash fields) →
    ∀ field text, (field, text) ∈ hgetall key ↔ fields field = some text
  hscan_hash : ∀ key fields, db key = some (.hash fields) → ∀ call,
    ∃ pages : List (List (Bytes × Bytes)), Iterates (hscan key) call 0 (pages.map interleave) ∧
      ∀ field text, (field, text) ∈ pages.flatten ↔ fields field = some text
  zset_ne_empty : ∀ key members, db key = some (.zset members) → ∃ member, (members member).isSome
  mem_zrange : ∀ key members, db key = some (.zset members) →
    ∀ member text, (member, text) ∈ zrange key ↔ (members member).map print = some text
  zscan_zset : ∀ key members, db key = some (.zset members) → ∀ call,
    ∃ pages : List (List (Bytes × Bytes)), Iterates (zscan key) call 0 (pages.map interleave) ∧
      ∀ member text, (member, text) ∈ pages.flatten ↔ (members member).map print = some text

end CPractice.Migrate
