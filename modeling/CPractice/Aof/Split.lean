import CPractice.Aof.Rewriting
import CPractice.Lib.KeyValue

/-!
# Splitting a command with several keys

`process_aof` does not send MSET and MSETNX as they are: for every key it sends a command of three
arguments, whose name is the old one without its first character.  Several SET do what one MSET does.
But MSETNX sets all keys or none, and the last value of a key that is repeated; several SETNX set the
keys that are new, and the first value.
-/

namespace CPractice.Aof

open Lib

/-! ## `process_aof` -/

def ascii (text : String) : Bytes := text.toList.map fun c ↦ c.toNat.toUInt8

/-- `CMD_SUPPORTED`. -/
def cmdSupported : List Bytes :=
  ["MSET", "MSETNX", "DEL", "SET", "HMSET", "EXPIRE", "EXPIREAT", "PERSIST", "PEXPIRE", "PEXPIREAT",
    "DUMP", "EXISTS", "PTTL", "RESTORE", "TTL", "TYPE", "APPEND", "BITCOUNT", "DECR", "DECRBY",
    "GET", "GETBIT", "GETRANGE", "GETSET", "INCR", "INCRBY", "INCRBYFLOAT", "MGET", "PSETEX",
    "SETBIT", "SETEX", "SETNX", "SETRANGE", "STRLEN", "HDEL", "HEXISTS", "HGET", "HGETALL",
    "HINCRBY", "HINCRBYFLOAT", "HKEYS", "HLEN", "HMGET", "HSET", "HSETNX", "HVALS", "LINDEX",
    "LINSERT", "LLEN", "LPOP", "LPUSH", "LPUSHX", "LRANGE", "LREM", "LSET", "LTRIM", "RPOP",
    "RPUSH", "RPUSHX", "SADD", "SCARD", "SISMEMBER", "SMEMBERS", "SPOP", "SRANDMEMBER", "SREM",
    "ZADD", "ZCARD", "ZCOUNT", "ZINCRBY", "ZRANGE", "ZRANGEBYSCORE", "ZRANK", "ZREM",
    "ZREMRANGEBYRANK", "ZREMRANGEBYSCORE", "ZREVRANGE", "ZREVRANGEBYSCORE", "ZREVRANK",
    "ZSCORE"].map ascii

def supported (cmd : Bytes) : Bool := cmdSupported.any (strcasecmpZero cmd)

/-- `strncasecmp(text, word, n) == 0`, for strings that end with a `NUL`. -/
def strncasecmpZero : ℕ → Bytes → Bytes → Bool
  | 0, _, _ => true
  | n + 1, text, word =>
      if toLower (text.headD 0) ≠ toLower (word.headD 0) then false
      else if text.headD 0 = 0 then true
      else strncasecmpZero n text.tail word.tail

/-- The first key does not start with `filter`. -/
def skipped (filter : Option Sds) (argc : ℤ) (argv : List Sds) : Bool :=
  match filter, argv[1]? with
  | some filter, some key =>
      1 < argc ∧ strncasecmpZero filter.bytes.length filter.bytes key.bytes = false
  | _, _ => false

/-- The loop over the keys and values from `j` on; the turns are more than a loop inside of `argv`
takes. -/
def splitLoop (argc : ℤ) (argv : List Sds) (name : Bytes) : ℕ → ℕ → Option (List (List Bytes))
  | 0, _ => none
  | turns + 1, j =>
      if argc ≤ j then some []
      else do
        let key ← argv[j]?
        let value ← argv[j + 1]?
        let subargvs ← splitLoop argc argv name turns (j + 2)
        some ([name, key.bytes, value.bytes] :: subargvs)

/-- The commands that `process_aof` appends for the command that it has read; for a negative count that
is allocated it stops. -/
def processCommand (filter : Option Sds) (argc : ℤ) (argv : List Sds) :
    Option (List (List Bytes)) := do
  let name ← argv.head?
  if skipped filter argc argv then some []
  else if supported name.bytes = false then some []
  else if strcasecmpZero name.bytes msetName ∨ strcasecmpZero name.bytes msetnxName then
    splitLoop argc argv name.bytes.tail (argc.toNat + 1) 1
  else if argc < 0 then none
  else some [(argv.take argc.toNat).map Sds.bytes]

/-! ## The server -/

namespace Redis

/-- What a key holds: a string that does not expire, or something else. -/
inductive Entry (τ : Type*) where
  | string (value : Bytes)
  | other (content : τ)
  deriving DecidableEq

abbrev Store (τ : Type*) := Bytes → Option (Entry τ)

/-- The commands that set strings. -/
inductive Command where
  | set (key value : Bytes)
  | setnx (key value : Bytes)
  | mset (pairs : List (Bytes × Bytes))
  | msetnx (pairs : List (Bytes × Bytes))

def pairsOf : List Bytes → Option (List (Bytes × Bytes))
  | [] => some []
  | [_] => none
  | key :: value :: args => (pairsOf args).map ((key, value) :: ·)

/-- A command of a key and a value. -/
def withPair (command : Bytes → Bytes → Command) : List Bytes → Option Command
  | [key, value] => some (command key value)
  | _ => none

/-- The command that arguments stand for.  Without one the reply is an error, or it is another
command, or SET with options; these are left out. -/
def parse : List Bytes → Option Command
  | [] => none
  | name :: args =>
      if sameName name (ascii "SET") then withPair .set args
      else if sameName name (ascii "SETNX") then withPair .setnx args
      else if args = [] then none
      else if sameName name msetName then (pairsOf args).map .mset
      else if sameName name msetnxName then (pairsOf args).map .msetnx
      else none

variable {τ : Type*}

def entries (pairs : List (Bytes × Bytes)) : List (Bytes × Entry τ) :=
  pairs.map fun pair ↦ (pair.1, .string pair.2)

def Command.run (store : Store τ) : Command → Store τ
  | .set key value => put store (key, .string value)
  | .setnx key value => putNew store (key, .string value)
  | .mset pairs => (entries pairs).foldl put store
  | .msetnx pairs => putAllNew store (entries pairs)

def execute (store : Store τ) (args : List Bytes) : Store τ :=
  ((parse args).map (Command.run store)).getD store

end Redis

/-! ## The commands that are sent -/

theorem n4_le (length : ℕ) : n4 length ≤ length := by
  rw [n4, Int.bmod_def]
  split_ifs
  · omega
  · omega

theorem pairsOf_of_even {args : List Bytes} (h : args.length % 2 = 0) :
    ∃ pairs, Redis.pairsOf args = some pairs := by
  induction args using Redis.pairsOf.induct with
  | case1 => exact ⟨[], rfl⟩
  | case2 => cases h
  | case3 key value args ih =>
      rcases ih (by simp only [List.length_cons] at h; omega) with ⟨pairs, hpairs⟩
      exact ⟨(key, value) :: pairs, by rw [Redis.pairsOf, hpairs, Option.map_some]⟩

/-- The arguments of a command that is returned. -/
def original (argc : ℤ) (argv : List Sds) : List Bytes := (argv.take argc.toNat).map Sds.bytes

theorem length_original {argc : ℤ} {argv : List Sds} (hargc : argc ≤ argv.length) :
    (original argc argv).length = argc.toNat := by
  rw [original, List.length_map, List.length_take]
  omega

/-- Behind an odd place the loop makes a command of every pair. -/
theorem splitLoop_eq {argc : ℤ} {argv : List Sds} (hodd : argc % 2 = 1) (hargc : argc ≤ argv.length)
    (name : Bytes) {turns j : ℕ} (hj : j % 2 = 1) (hturns : argc < j + 2 * turns)
    (hpos : 0 < turns) {pairs : List (Bytes × Bytes)}
    (hpairs : Redis.pairsOf ((original argc argv).drop j) = some pairs) :
    splitLoop argc argv name turns j =
      some (pairs.map fun pair ↦ [name, pair.1, pair.2]) := by
  have hlength := length_original hargc
  induction turns generalizing j pairs with
  | zero => cases hpos
  | succ turns ih =>
      by_cases hdone : argc ≤ j
      · rw [List.drop_of_length_le (by omega)] at hpairs
        obtain rfl := Option.some.inj hpairs
        exact if_pos hdone
      · have hvalue : j + 1 < (original argc argv).length := by omega
        rw [List.drop_eq_getElem_cons (Nat.lt_of_succ_lt hvalue), List.drop_eq_getElem_cons hvalue,
          Redis.pairsOf] at hpairs
        rcases Option.map_eq_some_iff.mp hpairs with ⟨rest, hrest, rfl⟩
        rw [splitLoop, if_neg hdone, List.getElem?_eq_getElem (by omega),
          List.getElem?_eq_getElem (by omega), ih (by omega) (by omega) (by omega) hrest]
        simp only [original, List.getElem_map, List.getElem_take]
        rfl

/-- The pairs behind the name. -/
theorem exists_pairs {argc : ℤ} {argv : List Sds} (hodd : argc % 2 = 1) (hargc : argc ≤ argv.length) :
    ∃ pairs, Redis.pairsOf (original argc argv).tail = some pairs := by
  apply pairsOf_of_even
  rw [List.length_tail, length_original hargc]
  omega

theorem nul_free_of_sameName {name word : Bytes} (hword : 0 ∉ word.map toLower)
    (h : sameName name word) : 0 ∉ name := by
  intro hmem
  apply hword
  rw [← of_decide_eq_true h]
  exact List.mem_map_of_mem (f := toLower) hmem

/-- MSET and MSETNX are split. -/
theorem processCommand_eq {filter : Option Sds} {argc : ℤ} {argv : List Sds} {name : Sds}
    {word : Bytes} (hword : word = msetName ∨ word = msetnxName) (hhead : argv.head? = some name)
    (hname : sameName name.bytes word) (hsent : skipped filter argc argv = false) :
    processCommand filter argc argv =
      splitLoop argc argv name.bytes.tail (argc.toNat + 1) 1 := by
  have hnul : 0 ∉ name.bytes := by
    rcases hword with rfl | rfl
    · exact nul_free_of_sameName (by decide) hname
    · exact nul_free_of_sameName (by decide) hname
  have hmem : word ∈ cmdSupported := by
    rcases hword with rfl | rfl
    · exact List.mem_map.mpr ⟨"MSET", by simp, rfl⟩
    · exact List.mem_map.mpr ⟨"MSETNX", by simp, rfl⟩
  have hsupported : supported name.bytes = true :=
    List.any_eq_true.mpr ⟨word, hmem, by rw [strcasecmpZero_eq hnul, hname]⟩
  have hsplit : strcasecmpZero name.bytes msetName ∨ strcasecmpZero name.bytes msetnxName := by
    rw [strcasecmpZero_eq hnul, strcasecmpZero_eq hnul]
    rcases hword with rfl | rfl
    · exact .inl hname
    · exact .inr hname
  rw [processCommand, hhead, Option.bind_eq_bind, Option.bind_some, hsent, hsupported]
  simp only [Bool.false_eq_true, Bool.true_eq_false, if_false, if_pos hsplit]

/-! ## Their effect -/

section Effect

variable {τ : Type*} {name word : Bytes} {pairs : List (Bytes × Bytes)}

theorem sameName_congr (h : sameName name word) (other : Bytes) :
    sameName name other = sameName word other := by
  unfold sameName
  rw [of_decide_eq_true h]

theorem sameName_tail (h : sameName name word) : sameName name.tail word.tail := by
  apply decide_eq_true
  rw [List.map_tail, List.map_tail, of_decide_eq_true h]

theorem execute_set (h : sameName name (ascii "SET")) (store : Redis.Store τ) (key value : Bytes) :
    Redis.execute store [name, key, value] = put store (key, .string value) := by
  rw [Redis.execute, Redis.parse, if_pos h]
  rfl

theorem execute_setnx (h : sameName name (ascii "SETNX")) (store : Redis.Store τ) (key value : Bytes) :
    Redis.execute store [name, key, value] = putNew store (key, .string value) := by
  have hset : sameName name (ascii "SET") = false := sameName_congr h _
  rw [Redis.execute, Redis.parse, hset, if_neg Bool.false_ne_true, if_pos h]
  rfl

theorem execute_mset (h : sameName name msetName) (store : Redis.Store τ) {args : List Bytes}
    (hpairs : Redis.pairsOf args = some pairs) :
    Redis.execute store (name :: args) = (Redis.entries pairs).foldl put store := by
  have hset : sameName name (ascii "SET") = false := sameName_congr h _
  have hsetnx : sameName name (ascii "SETNX") = false := sameName_congr h _
  rw [Redis.execute, Redis.parse, hset, hsetnx, if_neg Bool.false_ne_true, if_neg Bool.false_ne_true]
  by_cases hargs : args = []
  · rw [hargs] at hpairs
    rw [if_pos hargs, ← Option.some.inj hpairs]
    rfl
  · rw [if_neg hargs, if_pos h, hpairs]
    rfl

theorem execute_msetnx (h : sameName name msetnxName) (store : Redis.Store τ) {args : List Bytes}
    (hpairs : Redis.pairsOf args = some pairs) :
    Redis.execute store (name :: args) = putAllNew store (Redis.entries pairs) := by
  have hset : sameName name (ascii "SET") = false := sameName_congr h _
  have hsetnx : sameName name (ascii "SETNX") = false := sameName_congr h _
  have hmset : sameName name msetName = false := sameName_congr h _
  rw [Redis.execute, Redis.parse, hset, hsetnx, hmset, if_neg Bool.false_ne_true,
    if_neg Bool.false_ne_true]
  by_cases hargs : args = []
  · rw [hargs] at hpairs
    rw [if_pos hargs, ← Option.some.inj hpairs]
    rfl
  · rw [if_neg hargs, if_neg Bool.false_ne_true, if_pos h, hpairs]
    rfl

/-- Commands of three arguments, one after another. -/
theorem foldl_execute {step : Redis.Store τ → Bytes × Redis.Entry τ → Redis.Store τ}
    (hstep : ∀ store key value,
      Redis.execute store [name, key, value] = step store (key, .string value))
    (store : Redis.Store τ) (pairs : List (Bytes × Bytes)) :
    (pairs.map fun pair ↦ [name, pair.1, pair.2]).foldl Redis.execute store =
      (Redis.entries pairs).foldl step store := by
  rw [Redis.entries, List.foldl_map, List.foldl_map]
  simp only [hstep]

end Effect

/-- The commands that are sent leave the store as the command itself does. -/
def SameEffect {τ : Type*} (filter : Option Sds) (argc : ℤ) (argv : List Sds) (store : Redis.Store τ) :
    Prop :=
  ∃ sent, processCommand filter argc argv = some sent ∧
    sent.foldl Redis.execute store = Redis.execute store (original argc argv)

section Sent

variable {τ : Type*} {filter : Option Sds} {argc : ℤ} {argv : List Sds} {name : Sds}
  {pairs : List (Bytes × Bytes)} (hhead : argv.head? = some name)

include hhead

/-- A count that is positive gives the name and what is behind it. -/
theorem execute_original (effect : Redis.Store τ → List (Bytes × Redis.Entry τ) → Redis.Store τ)
    (hempty : ∀ store, effect store [] = store)
    (heffect : ∀ store args pairs, Redis.pairsOf args = some pairs →
      Redis.execute store (name.bytes :: args) = effect store (Redis.entries pairs))
    (hpairs : Redis.pairsOf (original argc argv).tail = some pairs) (store : Redis.Store τ) :
    Redis.execute store (original argc argv) = effect store (Redis.entries pairs) := by
  rcases List.head?_eq_some_iff.mp hhead with ⟨rest, rfl⟩
  unfold original at hpairs ⊢
  cases hcount : argc.toNat with
  | zero =>
      rw [hcount] at hpairs
      rw [← Option.some.inj hpairs]
      exact (hempty store).symm
  | succ count =>
      rw [hcount, List.take_succ_cons, List.map_cons, List.tail_cons] at hpairs
      exact heffect store _ pairs hpairs

/-- What is sent for MSET and MSETNX. -/
theorem sent_eq {word : Bytes} (hword : word = msetName ∨ word = msetnxName)
    (hname : sameName name.bytes word) (hsent : skipped filter argc argv = false)
    (hodd : argc % 2 = 1) (hargc : argc ≤ argv.length)
    (hpairs : Redis.pairsOf (original argc argv).tail = some pairs) :
    processCommand filter argc argv =
      some (pairs.map fun pair ↦ [name.bytes.tail, pair.1, pair.2]) := by
  rw [processCommand_eq hword hhead hname hsent]
  exact splitLoop_eq hodd hargc _ (by decide) (by omega) (by omega) (by rwa [List.drop_one])

end Sent

/-- For every MSET and MSETNX with an odd number of arguments that is read and not filtered out, and
every store.  The commands sent for MSET do what it does.  Those for MSETNX do so just if all its keys
are there, or if none is and a key that is repeated ends with its first value. -/
theorem split_same_effect_iff {τ : Type*} {ctx : ReplayCtx} {filter : Option Sds}
    {stream stream' : Stream} {argc : ℤ} {argv : List Sds} {name : Sds}
    (hread : getRedisCommand ctx stream = some (.command argc argv, stream')) (hodd : argc % 2 = 1)
    (hhead : argv.head? = some name) (hsent : skipped filter argc argv = false)
    (store : Redis.Store τ) :
    (sameName name.bytes msetName → SameEffect filter argc argv store) ∧
      (sameName name.bytes msetnxName →
        (SameEffect filter argc argv store ↔
          ∃ pairs, Redis.pairsOf (original argc argv).tail = some pairs ∧
            ((∀ pair ∈ pairs, (store pair.1).isSome) ∨
              (∀ pair ∈ pairs, store pair.1 = none) ∧ FirstIsLast pairs))) := by
  have hargc : argc ≤ argv.length := by
    rw [getRedisCommand_command hread]
    exact n4_le _
  rcases exists_pairs hodd hargc with ⟨pairs, hpairs⟩
  constructor
  · intro hname
    refine ⟨_, sent_eq hhead (.inl rfl) hname hsent hodd hargc hpairs, ?_⟩
    rw [foldl_execute (execute_set (sameName_tail hname))]
    exact (execute_original hhead (fun store pairs ↦ pairs.foldl put store) (fun _ ↦ rfl)
      (fun store _ _ h ↦ execute_mset hname store h) hpairs store).symm
  · intro hname
    have hfiltered := sent_eq hhead (.inr rfl) hname hsent hodd hargc hpairs
    have horiginal := execute_original hhead putAllNew (fun _ ↦ if_neg (by simp))
      (fun store _ _ h ↦ execute_msetnx hname store h) hpairs store
    have hkeys : ∀ p : Bytes → Prop,
        (∀ pair ∈ (Redis.entries pairs : List (Bytes × Redis.Entry τ)), p pair.1) ↔ ∀ pair ∈ pairs, p pair.1 :=
      fun p ↦ by rw [Redis.entries, List.forall_mem_map]
    calc
      SameEffect filter argc argv store ↔
          (Redis.entries pairs).foldl putNew store = putAllNew store (Redis.entries pairs) := by
        rw [SameEffect, horiginal, hfiltered]
        simp only [Option.some.injEq, exists_eq_left',
          foldl_execute (execute_setnx (sameName_tail hname))]
      _ ↔ (∀ pair ∈ pairs, (store pair.1).isSome) ∨
          (∀ pair ∈ pairs, store pair.1 = none) ∧ FirstIsLast pairs := by
        rw [foldl_putNew_eq_putAllNew_iff, hkeys fun key ↦ (store key).isSome,
          hkeys fun key ↦ store key = none, Redis.entries,
          firstIsLast_map_iff fun _ _ ↦ Redis.Entry.string.inj]
      _ ↔ _ := by simp only [hpairs, Option.some.injEq, exists_eq_left']

/-- `MSETNX a 1` and a second pair, the key and the value a byte each. -/
def msetnxArgv (key value : UInt8) : List Sds :=
  [⟨msetnxName, 0, by decide⟩, ⟨[97], 0, by decide⟩, ⟨[49], 0, by decide⟩, ⟨[key], 0, by simp⟩,
    ⟨[value], 0, by simp⟩]

theorem msetnxArgv_read :
    getRedisCommand ⟨none, none⟩ [encode [msetnxName, [97], [49], [98], [50]]] =
      some (.command 5 (msetnxArgv 98 50), []) := by
  with_unfolding_all rfl

/-- `MSETNX a 1 b 2` on an empty store. -/
theorem split_same_effect_iff_ab :
    SameEffect none 5 (msetnxArgv 98 50) fun _ ↦ (none : Option (Redis.Entry Unit)) := by
  have hsame := split_same_effect_iff msetnxArgv_read (by decide)
    (show (msetnxArgv 98 50).head? = some ⟨msetnxName, 0, by decide⟩ from rfl)
    (show skipped none 5 (msetnxArgv 98 50) = false from rfl)
    fun _ ↦ (none : Option (Redis.Entry Unit))
  have hpairs : Redis.pairsOf (original 5 (msetnxArgv 98 50)).tail =
      some [([97], [49]), ([98], [50])] := rfl
  exact (hsame.2 (by decide)).mpr ⟨_, hpairs, .inr ⟨fun _ _ ↦ rfl, firstIsLast_of_nodup (by decide)⟩⟩

/-- `MSETNX a 1 b 2` where `a` is there already, and `MSETNX a 1 a 2`: the keys that are new are set,
and the first value of a key that is repeated. -/
theorem split_msetnx_differs :
    (¬ SameEffect none 5 (msetnxArgv 98 50)
      fun key ↦ if key = [97] then some (Redis.Entry.string (τ := Unit) [48]) else none) ∧
    ¬ SameEffect none 5 (msetnxArgv 97 50) fun _ ↦ (none : Option (Redis.Entry Unit)) := by
  constructor
  · rintro ⟨sent, hsent, heq⟩
    obtain rfl := Option.some.inj hsent
    exact absurd (congrFun heq [98]) (by with_unfolding_all decide)
  · rintro ⟨sent, hsent, heq⟩
    obtain rfl := Option.some.inj hsent
    exact absurd (congrFun heq [97]) (by with_unfolding_all decide)

end CPractice.Aof
