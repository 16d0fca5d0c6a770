import CPractice.Base
import CPractice.Lib.Refinement

/-!
# Reading commands from a growing append-only file

`get_redis_command` of `redis-replay-aof.c` reads one command in the RESP array form and rewrites the
prefix of its keys.  The file grows while it is read.  A stream is the list of the chunks that become
available one after another: a read takes what is left of the first chunk, a read that finds the
chunk empty sees the end of the file, and in both cases the next chunk is there at the next read.

A read that waits for data that never comes does not return (`none`), and neither does one that
leaves its buffer.  Allocations below `2 ^ 63` bytes are granted.  The strings are the `sds` of the
client library, with 32-bit lengths; the source drops the pointer that a growing `sds` moves to, so
growth is a fault here.
-/

namespace CPractice.Aof

/-- The chunks that become available one after another. -/
abbrev Stream := List Bytes

/-! ## The C library -/

/-- What `fgets` stores: the bytes up to the first newline, at most `limit`. -/
def lineWithin : ℕ → Bytes → Bytes
  | 0, _ => []
  | _ + 1, [] => []
  | limit + 1, byte :: bytes =>
      if byte = 10 then [byte] else byte :: lineWithin limit bytes

/-- The stream behind `count` bytes of its first chunk. -/
def behind (chunk : Bytes) (count : ℕ) (stream : Stream) : Stream :=
  if chunk.length ≤ count then stream else chunk.drop count :: stream

/-- `fgets` into a buffer of `size` bytes; `none` is `NULL`. -/
def fgets (size : ℕ) (stream : Stream) : Option Bytes × Stream :=
  if size = 1 then (some [], stream)
  else match stream with
    | [] => (none, [])
    | [] :: stream => (none, stream)
    | chunk :: stream =>
        (some (lineWithin (size - 1) chunk),
          behind chunk (lineWithin (size - 1) chunk).length stream)

/-- `fread` of at most `size` bytes. -/
def fread (size : ℕ) : Stream → Bytes × Stream
  | [] => ([], [])
  | chunk :: stream => (chunk.take size, behind chunk size stream)

def isSpace (byte : UInt8) : Bool := byte = 32 ∨ (9 ≤ byte ∧ byte ≤ 13)

def isDigit (byte : UInt8) : Bool := 48 ≤ byte ∧ byte ≤ 57

/-- The number that decimal digits write. -/
def digitsValue (digits : Bytes) : ℕ :=
  digits.foldl (fun value byte ↦ value * 10 + (byte.toNat - 48)) 0

/-- `long` at the ends of its range. -/
def clampLong (value : ℤ) : ℤ := max (-9223372036854775808) (min value 9223372036854775807)

/-- `strtol` in base 10: the value and the number of bytes up to `eptr`. -/
def strtol (text : Bytes) : ℤ × ℕ :=
  let spaces := (text.takeWhile isSpace).length
  let rest := text.drop spaces
  let negative := rest.head? = some 45
  let sign := if negative ∨ rest.head? = some 43 then 1 else 0
  let digits := (rest.drop sign).takeWhile isDigit
  if digits = [] then (0, 0)
  else (clampLong (if negative then -(digitsValue digits : ℤ) else digitsValue digits),
    spaces + sign + digits.length)

/-- `strncmp(text, buf, n) == 0` for a `text` that ends with `NUL` and is `n` bytes long; `none` is a
read past the end of `buf`. -/
def strncmpZero : Bytes → Bytes → Option Bool
  | [], _ => some true
  | _ :: _, [] => none
  | a :: text, byte :: buf =>
      if a ≠ byte then some false else if a = 0 then some true else strncmpZero text buf

def toLower (byte : UInt8) : UInt8 := if 65 ≤ byte ∧ byte ≤ 90 then byte + 32 else byte

/-- `strcasecmp(text, word) == 0`. -/
def strcasecmpZero (text word : Bytes) : Bool :=
  (text.takeWhile (· ≠ 0)).map toLower = word.map toLower

/-- `n4`: reduction to a signed word of 32 bits. -/
def n4 (value : ℤ) : ℤ := Int.bmod value 4294967296

/-! ## Dynamic strings -/

/-- An `sds`: its bytes, as many as its 32-bit length says, and the free ones behind them. -/
structure Sds where
  bytes : Bytes
  free : ℕ
  fits : bytes.length < 4294967296

/-- `sdsnewlen(NULL, len)`. -/
def sdsNewLen (len : ℕ) : Sds :=
  ⟨List.replicate (u4 len) 0, 0, by rw [List.length_replicate]; exact u4_lt len⟩

/-- `sdscpylen`, where the string need not grow. -/
def sdsCpyLen (s : Sds) (text : Bytes) : Option Sds :=
  if u4 (s.free + s.bytes.length) < text.length then none
  else if h : text.length < 4294967296 then
    some ⟨text, u4 (s.free + s.bytes.length) - text.length, h⟩
  else none

/-- `sdscatlen`, where the string need not grow. -/
def sdsCatLen (s : Sds) (text : Bytes) : Option Sds :=
  if s.free < text.length then none
  else if h : (s.bytes ++ text).length < 4294967296 then
    some ⟨s.bytes ++ text, s.free - text.length, h⟩
  else none

/-! ## `safe_read_long` -/

/-- The fields of `replay_ctx` that reading depends on. -/
structure ReplayCtx where
  oldPrefix : Option Sds
  replacePrefix : Option Sds

def maxLongLen : ℕ := 128

/-- `consume_new_line`. -/
def consumeNewLine (buf : Bytes) : Bool := buf.take 2 = [13, 10]

/-- A store of bytes into a buffer. -/
def writeAt (buf : Bytes) (offset : ℕ) (bytes : Bytes) : Bytes :=
  buf.take offset ++ bytes ++ buf.drop (offset + bytes.length)

/-- The loop of `safe_read_long`: `offset` is `eptr - buf`.  The result is `none` for `REDIS_ERR`. -/
def longLoop (mark : UInt8) (returnImmediately : Bool) :
    ℕ → Bytes → ℕ → ℕ → ℕ → Stream → Option (Option ℤ × Stream)
  | 0, _, _, _, _, _ => none
  | turns + 1, buf, offset, remain, retry, stream =>
      match fgets remain stream with
      | (none, stream) =>
          if retry = 1 ∧ returnImmediately then some (some 0, stream)
          else longLoop mark returnImmediately turns buf offset remain (retry + 1) stream
      | (some line, stream) =>
          let buf := writeAt buf offset (line ++ [0])
          if buf.head? ≠ some mark then some (none, stream)
          else
            let number := strtol buf.tail
            let offset := 1 + number.2
            if consumeNewLine (buf.drop offset) then some (some number.1, stream)
            else if remain ≤ offset then some (none, stream)
            else longLoop mark returnImmediately turns buf offset (remain - offset) (retry + 1)
              stream

/-- `safe_read_long`.  A turn takes a chunk or shrinks `remain`, which bounds the turns of a loop
that ends. -/
def safeReadLong (mark : UInt8) (returnImmediately : Bool) (stream : Stream) :
    Option (Option ℤ × Stream) :=
  longLoop mark returnImmediately (stream.length + maxLongLen + 1) (List.replicate maxLongLen 0) 0
    maxLongLen 1 stream

/-! ## `safe_read_string` -/

/-- The loop around `fread`. -/
def freadLoop : ℕ → ℕ → Stream → Option (Bytes × Stream)
  | 0, _, _ => none
  | turns + 1, remain, stream =>
      let read := fread remain stream
      if read.1.length < remain then do
        let (bytes, stream) ← freadLoop turns (remain - read.1.length) read.2
        some (read.1 ++ bytes, stream)
      else some read

/-- The end of `safe_read_string`: the argument in `buf` is copied, with its prefix replaced in a key
that starts with it. -/
def buildArg (ctx : ReplayCtx) (key : Bool) (buf : Bytes) (len : ℕ) : Option Sds :=
  match (if key then ctx.oldPrefix else none), ctx.replacePrefix with
  | some old, some new => do
      let equal ← strncmpZero old.bytes buf
      if equal then
        if len < old.bytes.length then none
        else do
          let s ← sdsCpyLen (sdsNewLen (len + new.bytes.length - old.bytes.length)) new.bytes
          sdsCatLen s ((buf.drop old.bytes.length).take (len - old.bytes.length))
      else sdsCpyLen (sdsNewLen len) (buf.take len)
  | _, _ => sdsCpyLen (sdsNewLen len) (buf.take len)

/-- `safe_read_string`; the result is `none` for `REDIS_ERR`.  A negative length that is allocated
makes the source look for the newline before its buffer. -/
def safeReadString (ctx : ReplayCtx) (key : Bool) (stream : Stream) :
    Option (Option Sds × Stream) := do
  let (number, stream) ← safeReadLong 36 false stream
  match number with
  | none => some (none, stream)
  | some len =>
      if len + 2 < 0 ∨ 9223372036854775808 ≤ len + 2 then some (none, stream)
      else if len < 0 then none
      else do
        let (buf, stream) ← freadLoop (stream.length + 1) (len + 2).toNat stream
        if consumeNewLine (buf.drop len.toNat) then do
          let arg ← buildArg ctx key buf len.toNat
          some (some arg, stream)
        else some (none, stream)

/-! ## `get_redis_command` -/

/-- `normal` and `step`. -/
structure KeyRule where
  normal : Bool
  step : ℕ

def selectName : Bytes := [83, 69, 76, 69, 67, 84]
def msetName : Bytes := [77, 83, 69, 84]
def msetnxName : Bytes := [77, 83, 69, 84, 78, 88]
def delName : Bytes := [68, 69, 76]

/-- The command names that are compared. -/
def keyRule (name : Bytes) : KeyRule :=
  if strcasecmpZero name selectName then ⟨false, 0⟩
  else if strcasecmpZero name msetName then ⟨false, 2⟩
  else if strcasecmpZero name msetnxName then ⟨false, 2⟩
  else if strcasecmpZero name delName then ⟨false, 1⟩
  else ⟨true, 0⟩

/-- `key` for the argument `j`. -/
def KeyRule.isKey (rule : KeyRule) (j : ℕ) : Bool :=
  if rule.normal then j = 1 else if rule.step = 0 then false else (j + 1) % rule.step = 0

/-- What `get_redis_command` returns: a command, nothing at the end of the file, or `REDIS_ERR`. -/
inductive Outcome where
  | command (argc : ℤ) (argv : List Sds)
  | nothing
  | error

/-- The loop over the arguments from `j` on, `left` of them; `room` is the number of entries of
`tmp`. -/
def argLoop (ctx : ReplayCtx) (rule : KeyRule) (room : ℕ) :
    ℕ → ℕ → Stream → Option (Option (List Sds) × Stream)
  | 0, _, stream => some (some [], stream)
  | left + 1, j, stream => do
      let (arg, stream) ← safeReadString ctx (rule.isKey j) stream
      match arg with
      | none => some (none, stream)
      | some arg =>
          if room ≤ j then none
          else do
            let (args, stream) ← argLoop ctx rule room left (j + 1) stream
            some (args.map (arg :: ·), stream)

/-- `get_redis_command`. -/
def getRedisCommand (ctx : ReplayCtx) (stream : Stream) : Option (Outcome × Stream) := do
  let (number, stream) ← safeReadLong 42 true stream
  match number with
  | none => some (.error, stream)
  | some len =>
      if len = 0 then some (.nothing, stream)
      else if len < 0 ∨ 9223372036854775808 ≤ u8 (len.toNat * 8) then some (.error, stream)
      else do
        let (first, stream) ← safeReadString ctx false stream
        match first with
        | none => some (.error, stream)
        | some first =>
            if u8 (len.toNat * 8) / 8 = 0 then none
            else do
              let (args, stream) ← argLoop ctx (keyRule first.bytes) (u8 (len.toNat * 8) / 8)
                (len.toNat - 1) 1 stream
              match args with
              | none => some (.error, stream)
              | some args => some (.command (n4 len) (first :: args), stream)

/-- The commands that `calls` calls return, up to an error. -/
def readCommands (ctx : ReplayCtx) : ℕ → Stream → Option (List Outcome)
  | 0, _ => some []
  | calls + 1, stream => do
      let (outcome, stream) ← getRedisCommand ctx stream
      match outcome with
      | .error => some [.error]
      | .nothing => readCommands ctx calls stream
      | .command argc argv => do
          let rest ← readCommands ctx calls stream
          some (.command argc argv :: rest)

end CPractice.Aof
