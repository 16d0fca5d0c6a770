import CPractice.Aof.Encoding

/-!
# The configuration files of `conf.c`

`confInit` reads a file line by line with `fileGetLine`, which collects a line from chunks of 1023
bytes, and `parseLine` puts what a line assigns into a dictionary: sections and keys are concatenated
to one key, and the pieces of a value with commas are stored under the key with an index behind.

The file is its content with a cursor; a loop that does not end returns `none`.  A growing `sds` is
taken to stay where it is.  `dictAdd` keeps the entry that is already there.
-/

namespace CPractice.Conf

open Aof (isSpace isDigit digitsValue decimal)

/-! ## Reading lines -/

/-- `new_line`. -/
def newLine : UInt8 := 10

/-- `same_line`, the backslash. -/
def sameLine : UInt8 := 92

/-- `sizeof(buf) - 1` in `fileGetLine`. -/
def chunkSize : ℕ := 1023

/-- The C string in a buffer. -/
def cString (buf : Bytes) : Bytes := buf.takeWhile (· ≠ 0)

def pread (content : Bytes) (count offset : ℕ) : Bytes := (content.drop offset).take count

/-- The loop of `fileGetLine` with a bound on its turns: the value returned, the cursor and the
line. -/
def lineLoop (content : Bytes) : ℕ → ℕ → Bytes → Option (ℤ × ℕ × Bytes)
  | 0, _, _ => none
  | turns + 1, cursor, line =>
      let chunk := pread content chunkSize cursor
      if chunk = [] then some (-2, cursor, line)
      else
        let buf := cString chunk
        if newLine ∈ buf then
          let sub := buf.takeWhile (· ≠ newLine)
          if sub.getLast? = some sameLine then
            lineLoop content turns (cursor + ((sub.length - 1) + 1 + 1)) (line ++ sub.dropLast)
          else some (0, cursor + (sub.length + 1), line ++ sub)
        else lineLoop content turns (cursor + buf.length) (line ++ buf)

/-- `fileGetLine`; a turn of its loop that does not end it moves the cursor or is the last one of
infinitely many. -/
def fileGetLine (content : Bytes) (cursor : ℕ) : Option (ℤ × ℕ × Bytes) :=
  if content.length ≤ cursor + 1 then some (-1, cursor, [])
  else lineLoop content (content.length + 1) cursor []

/-- The lines that the loop of `confInit` obtains from a cursor on. -/
def linesFrom (content : Bytes) : ℕ → ℕ → Option (List Bytes)
  | 0, _ => none
  | turns + 1, cursor => do
      let out ← fileGetLine content cursor
      if out.1 ≠ 0 then some []
      else do
        let rest ← linesFrom content turns out.2.1
        some (out.2.2 :: rest)

/-- The lines that `confInit` obtains. -/
def confLines (content : Bytes) : Option (List Bytes) := linesFrom content (content.length + 1) 0

/-! ## The dictionary -/

/-- The entries of a dictionary with `sds` keys and values. -/
abbrev Dict := List (Bytes × Bytes)

def dictFind (dt : Dict) (key : Bytes) : Option Bytes := (dt.find? (·.1 = key)).map (·.2)

/-- `dictAdd`, which refuses a key that is there. -/
def dictAdd (dt : Dict) (entry : Bytes × Bytes) : Dict :=
  if (dictFind dt entry.1).isSome then dt else dt ++ [entry]

/-! ## Parsing -/

/-- `DEFAULT_FIRST_KEY`, `"default"`. -/
def defaultFirstKey : Bytes := [100, 101, 102, 97, 117, 108, 116]

/-- `suffix`, `"__lisk_array_size_suffix__"`. -/
def suffix : Bytes :=
  [95, 95, 108, 105, 115, 107, 95, 97, 114, 114, 97, 121, 95, 115, 105, 122, 101, 95,
    115, 117, 102, 102, 105, 120, 95, 95]

/-- `ARRAY_DELIM`. -/
def arrayDelim : UInt8 := 44

/-- `isComment(line) == 0`. -/
def isComment (line : Bytes) : Bool := line.head? = some 35

def sdsTrimSpace (line : Bytes) : Bytes := line.filter fun c ↦ !isSpace c

/-- `isFirstKey(line) == 0`. -/
def isFirstKey (line : Bytes) : Bool := line.head? = some 91 ∧ line.getLast? = some 93

/-- What the header `[s]` leaves in `first_key`, which has room for 1023 characters. -/
def headerKey (line : Bytes) : Bytes := line.dropLast.tail.take 1023

/-- The first `=` of a line, or else its first `:`. -/
def equalChar (line : Bytes) : Option UInt8 :=
  if (61 : UInt8) ∈ line then some 61 else if (58 : UInt8) ∈ line then some 58 else none

/-- `getLineKey`. -/
def getLineKey (line : Bytes) : Option Bytes :=
  (equalChar line).map fun equal ↦ line.takeWhile (· ≠ equal)

/-- `getLineValue`. -/
def getLineValue (line : Bytes) : Option Bytes :=
  (equalChar line).map fun equal ↦ (line.dropWhile (· ≠ equal)).tail

/-- The loop of `parseArray` over what is left from `start` on: the entries added, and `idx` and the
rest of the value behind the loop. -/
def arrayLoop (key : Bytes) : ℕ → ℕ → Bytes → Dict × ℕ × Bytes
  | 0, idx, value => ([], idx, value)
  | turns + 1, idx, value =>
      if arrayDelim ∉ value then ([], idx, value)
      else if value.head? = some arrayDelim then arrayLoop key turns idx value.tail
      else
        let piece := value.takeWhile (· ≠ arrayDelim)
        let out := arrayLoop key turns (idx + 1) (value.drop (piece.length + 1))
        ((key ++ decimal idx, piece) :: out.1, out.2)

/-- The entries that `parseArray` passes to `dictAdd`. -/
def parseArray (key value : Bytes) : Dict :=
  let (entries, idx, rest) := arrayLoop key value.length 0 value
  if idx = 0 then entries
  else if rest = [] then entries ++ [(key ++ suffix, decimal idx)]
  else entries ++ [(key ++ decimal idx, rest), (key ++ suffix, decimal (idx + 1))]

/-- What a line is: a section header, an assignment, or nothing. -/
inductive Parsed where
  | header (firstKey : Bytes)
  | assign (key value : Bytes)
  | nothing
  deriving DecidableEq

/-- The decisions of `parseLine`. -/
def classify (line : Bytes) : Parsed :=
  if line = [] ∨ isComment line then .nothing
  else
    let line := sdsTrimSpace line
    if line = [] then .nothing
    else if isFirstKey line then .header (headerKey line)
    else match getLineKey line, getLineValue line with
      | some key, some value => if key = [] ∨ value = [] then .nothing else .assign key value
      | _, _ => .nothing

/-- `parseLine`, with the static `first_key` passed along. -/
def parseLine (state : Bytes × Dict) (line : Bytes) : Bytes × Dict :=
  match classify line with
  | .header firstKey => (firstKey, state.2)
  | .assign key value =>
      let key := state.1 ++ key
      (state.1, ((key, value) :: parseArray key value).foldl dictAdd state.2)
  | .nothing => state

/-- `confInit` on a file; the dictionary is dropped if it is empty. -/
def confInit (firstKey content : Bytes) : Option (Bytes × ℤ × Option Dict) := do
  let lines ← confLines content
  let (firstKey, dt) := lines.foldl parseLine (firstKey, [])
  some (firstKey, if dt = [] then (-1, none) else (0, some dt))

/-! ## Questions to the dictionary -/

/-- The two strings a key is made of, where an empty second one asks for the default section. -/
def askedKey (key0 key1 : Bytes) : Bytes :=
  if key1 = [] then defaultFirstKey ++ key0 else key0 ++ key1

def confGetValue (dt : Dict) (key0 key1 : Bytes) : Option Bytes := dictFind dt (askedKey key0 key1)

/-- `%d`. -/
def decimalInt (idx : ℤ) : Bytes :=
  if idx < 0 then 45 :: decimal idx.natAbs else decimal idx.natAbs

def confGetArrayValue (dt : Dict) (key0 key1 : Bytes) (idx : ℤ) : Option Bytes :=
  dictFind dt (askedKey key0 key1 ++ decimalInt idx)

/-- `strtoul` in base 10. -/
def strtoul (text : Bytes) : ℕ :=
  let rest := text.dropWhile isSpace
  let negative := rest.head? = some 45
  let digits := (if negative ∨ rest.head? = some 43 then rest.tail else rest).takeWhile isDigit
  if 18446744073709551615 < digitsValue digits then 18446744073709551615
  else if negative then u8Sub 0 (digitsValue digits) else digitsValue digits

/-- `confGetArraySize`; `none` is the value `-2`. -/
def confGetArraySize (dt : Dict) (key0 key1 : Bytes) : Option ℕ :=
  (dictFind dt (askedKey key0 key1 ++ suffix)).map strtoul

end CPractice.Conf
