import CPractice.Base
import CPractice.Lib.BitFilter

/-!
# The bloom filters of `bloom.c` and `bloom.java`

Both implementations keep a byte array and a number of bits, and map a string to positions by a list of
hash functions.  The C functions compute on `unsigned`, with `char` signed except in `simple_hash`;
the Java functions compute on `int`, whose right shift keeps the sign.  A C string ends at its first
zero byte; a Java string is a list of 16-bit characters.

An access outside an array, a division by zero and a Java exception are faults.
-/

namespace CPractice.Bloom

open Lib

abbrev Byte := BitVec 8

/-- The characters of a C string, up to the terminator. -/
def chars (str : List Byte) : List Byte := str.takeWhile (· ≠ 0)

/-- `hash & 0x7FFFFFFF`, which ends every hash function. -/
def positive (hash : BitVec 32) : BitVec 32 := hash &&& 0x7FFFFFFF

/-! ## The hash functions of `bloom.c` -/

def simpleHash (str : List Byte) : BitVec 32 :=
  positive ((chars str).foldl (fun hash c ↦ 31 * hash + c.setWidth 32) 0)

def rsHash (str : List Byte) : BitVec 32 :=
  positive ((chars str).foldl (fun (hash, a) c ↦ (hash * a + c.signExtend 32, a * 378551))
    ((0 : BitVec 32), (63689 : BitVec 32))).1

def jsHash (str : List Byte) : BitVec 32 :=
  positive ((chars str).foldl
    (fun hash c ↦ hash ^^^ ((hash <<< 5) + c.signExtend 32 + (hash >>> 2))) 1315423911)

/-- `HighBits`. -/
def highBits : BitVec 32 := 0xFFFFFFFF#32 <<< 28

def pjwHash (str : List Byte) : BitVec 32 :=
  positive ((chars str).foldl (fun hash c ↦
    let hash := (hash <<< 4) + c.signExtend 32
    let test := hash &&& highBits
    if test ≠ 0 then (hash ^^^ (test >>> 24)) &&& ~~~highBits else hash) 0)

def bkdrHash (str : List Byte) : BitVec 32 :=
  positive ((chars str).foldl (fun hash c ↦ hash * 131 + c.signExtend 32) 0)

def sdbmHash (str : List Byte) : BitVec 32 :=
  positive ((chars str).foldl
    (fun hash c ↦ c.signExtend 32 + (hash <<< 6) + (hash <<< 16) - hash) 0)

def djbHash (str : List Byte) : BitVec 32 :=
  positive ((chars str).foldl (fun hash c ↦ hash + ((hash <<< 5) + c.signExtend 32)) 5381)

def apHash (str : List Byte) : BitVec 32 :=
  positive ((chars str).foldl (fun (hash, i) c ↦
    (if i &&& 1 = 0 then hash ^^^ ((hash <<< 7) ^^^ c.signExtend 32 ^^^ (hash >>> 3))
      else hash ^^^ ~~~((hash <<< 11) ^^^ c.signExtend 32 ^^^ (hash >>> 5)), i + 1))
    ((0 : BitVec 32), (0 : BitVec 32))).1

/-- `g_hash`. -/
def gHash : List (List Byte → BitVec 32) :=
  [simpleHash, rsHash, jsHash, pjwHash, bkdrHash, sdbmHash, djbHash, apHash]

/-! ## `bloom.c` -/

/-- `bloom_t`. -/
structure BloomT where
  size : ℕ
  filter : List Byte
  deriving DecidableEq

/-- `BLOOM_VERSION`, `"cmppn_w112"`. -/
def bloomVersion : List Byte := [99, 109, 112, 112, 110, 95, 119, 49, 49, 50]

/-- `create_bloom` with memory granted; the number of bytes is an `unsigned`, the size that is eight
times as large an `unsigned long`. -/
def createBloom (size : BitVec 32) : BloomT :=
  let size := size * 20
  let bytes := (size >>> 3) + if size % 8 ≠ 0 then 1 else 0
  ⟨bytes.toNat * 8, List.replicate bytes.toNat 0⟩

/-- `build_bloom` with memory granted; `some none` is nil.  `memcmp` reads as many bytes as the tag
has. -/
def buildBloom (buf : List Byte) : Option (Option BloomT) :=
  if buf = [] then some none
  else if buf.length < bloomVersion.length then none
  else if buf.take bloomVersion.length ≠ bloomVersion then some none
  else
    let filter := buf.drop bloomVersion.length
    some (some ⟨u8 (filter.length * 8), filter⟩)

/-- `hash % capability`, in an `unsigned`. -/
def hashPos (capability : ℕ) (hash : BitVec 32) : Option ℕ :=
  if capability = 0 then none else some (u4 (hash.toNat % capability))

/-- `SETBIT`, and the assignment in `put` of `bloom.java`: the byte is widened with its sign and the
result cut back. -/
def setBit (array : List Byte) (pos : ℕ) : Option (List Byte) :=
  (array[pos >>> 3]?).map fun byte ↦
    array.set (pos >>> 3) ((byte.signExtend 32 ||| (1#32 <<< (pos % 8))).setWidth 8)

/-- `GETBIT`, converted to `unsigned`. -/
def getBit (array : List Byte) (pos : ℕ) : Option (BitVec 32) :=
  (array[pos >>> 3]?).map fun byte ↦ byte.signExtend 32 &&& (1#32 <<< (pos % 8))

def bloomAdd (bf : BloomT) (str : List Byte) : Option BloomT := do
  let filter ← gHash.foldlM (fun filter hash ↦ do
    let pos ← hashPos bf.size (hash str)
    setBit filter pos) bf.filter
  some { bf with filter }

/-- The loop of `bloom_find`. -/
def findLoop (bf : BloomT) (str : List Byte) : List (List Byte → BitVec 32) → Option ℤ
  | [] => some 0
  | hash :: hashes => do
      let pos ← hashPos bf.size (hash str)
      let flag ← getBit bf.filter pos
      if flag = 0 then some (-2) else findLoop bf str hashes

def bloomFind (bf : BloomT) (str : List Byte) : Option ℤ := findLoop bf str gHash

/-- `bloom_serialize` into a buffer that is large enough. -/
def bloomSerialize (bf : BloomT) : List Byte := bloomVersion ++ bf.filter.take (bf.size >>> 3)

/-- The calls of a filter after `create_bloom` or `build_bloom`. -/
def machine : Machine BloomT (FilterCall (List Byte)) FilterRet where
  init bf := ((∃ size, bf = createBloom size) ∨ ∃ buf, buildBloom buf = some (some bf)) ∧ 0 < bf.size
  ok _ _ := True
  exec bf
    | .add str => (bloomAdd bf str).map fun bf ↦ (.added, bf)
    | .find str => (bloomFind bf str).map fun ret ↦ (.found (ret = 0), bf)

namespace Java

/-! ## The hash functions of `bloom.java` -/

abbrev Chars := List (BitVec 16)

def fnv1 (str : Chars) : BitVec 32 :=
  let hash : BitVec 32 := str.foldl (fun hash c ↦ (hash ^^^ c.setWidth 32) * 16777619) 2166136261
  let hash := hash + (hash <<< 13)
  let hash := hash ^^^ hash.sshiftRight 7
  let hash := hash + (hash <<< 3)
  let hash := hash ^^^ hash.sshiftRight 17
  let hash := hash + (hash <<< 5)
  positive hash

def rs (str : Chars) : BitVec 32 :=
  positive (str.foldl (fun (hash, a) c ↦ (hash * a + c.setWidth 32, a * 378551))
    ((0 : BitVec 32), (63689 : BitVec 32))).1

def js (str : Chars) : BitVec 32 :=
  positive (str.foldl
    (fun hash c ↦ hash ^^^ ((hash <<< 5) + c.setWidth 32 + hash.sshiftRight 2)) 1315423911)

def pjw (str : Chars) : BitVec 32 :=
  positive (str.foldl (fun hash c ↦
    let hash := (hash <<< 4) + c.setWidth 32
    let test := hash &&& highBits
    if test ≠ 0 then (hash ^^^ test.sshiftRight 24) &&& ~~~highBits else hash) 0)

def elf (str : Chars) : BitVec 32 :=
  positive (str.foldl (fun hash c ↦
    let hash := (hash <<< 4) + c.setWidth 32
    let x := hash &&& 0xF0000000
    if x ≠ 0 then (hash ^^^ x.sshiftRight 24) &&& ~~~x else hash) 0)

def bkdr (str : Chars) : BitVec 32 :=
  positive (str.foldl (fun hash c ↦ hash * 31 + c.setWidth 32) 0)

def sdbm (str : Chars) : BitVec 32 :=
  positive (str.foldl (fun hash c ↦ c.setWidth 32 + (hash <<< 6) + (hash <<< 16) - hash) 0)

def djb (str : Chars) : BitVec 32 :=
  positive (str.foldl (fun hash c ↦ hash + ((hash <<< 5) + c.setWidth 32)) 5381)

def ap (str : Chars) : BitVec 32 :=
  positive (str.foldl (fun (hash, idx) c ↦
    (if idx &&& 1 = 0 then hash ^^^ ((hash <<< 7) ^^^ c.setWidth 32 ^^^ hash.sshiftRight 3)
      else hash ^^^ ~~~((hash <<< 11) ^^^ c.setWidth 32 ^^^ hash.sshiftRight 5), idx + 1))
    ((0 : BitVec 32), (0 : BitVec 32))).1

def dek (str : Chars) : BitVec 32 :=
  positive (str.foldl (fun hash c ↦ ((hash <<< 5) ^^^ hash.sshiftRight 27) ^^^ c.setWidth 32)
    (BitVec.ofNat 32 str.length))

def bernstein (str : Chars) : BitVec 32 :=
  positive (str.foldl (fun hash c ↦ 33 * hash + c.setWidth 32) 0)

def rotate (str : Chars) : BitVec 32 :=
  let hash : BitVec 32 :=
    str.foldl (fun hash c ↦ (hash <<< 4) ^^^ hash.sshiftRight 28 ^^^ c.setWidth 32)
      (BitVec.ofNat 32 str.length)
  positive (hash ^^^ hash.sshiftRight 10 ^^^ hash.sshiftRight 20)

def mix (str : Chars) : BitVec 32 := positive (bkdr str + fnv1 str)

/-- The functions of `hash_calc` in the order of their index; `hash_func_num` is their number. -/
def hashCalc : List (Chars → BitVec 32) :=
  [fnv1, rs, js, pjw, elf, bkdr, sdbm, djb, ap, dek, bernstein, rotate, mix]

/-! ## `bloom.java` -/

/-- The fields `size_` and `bitset_` of the class `bloom`. -/
structure BloomObject where
  size : BitVec 32
  bitset : List Byte
  deriving DecidableEq

/-- `bloom(int size)`; an array of a negative size is an exception. -/
def ofSize (size : BitVec 32) : Option BloomObject :=
  let size := size * 27
  let bytes := size.sshiftRight 3 + if size.srem 8 ≠ 0 then 1 else 0
  if bytes.toInt < 0 then none else some ⟨bytes <<< 3, List.replicate bytes.toNat 0⟩

/-- `bloom(byte[] dict)`. -/
def ofDict (dict : List Byte) : BloomObject := ⟨BitVec.ofNat 32 dict.length <<< 3, dict⟩

/-- `Math.abs(hash % size_)`. -/
def hashPos (size hash : BitVec 32) : Option ℕ :=
  if size = 0 then none else some (hash.srem size).abs.toNat

def put (filter : BloomObject) (str : Chars) : Option BloomObject := do
  let bitset ← hashCalc.foldlM (fun bitset hash ↦ do
    let pos ← hashPos filter.size (hash str)
    setBit bitset pos) filter.bitset
  some { filter with bitset }

/-- `flag` in `find`, a `byte`. -/
def getFlag (bitset : List Byte) (pos : ℕ) : Option Byte :=
  (bitset[pos >>> 3]?).map fun byte ↦ (byte.signExtend 32 &&& (1#32 <<< (pos % 8))).setWidth 8

/-- The loop of `find`. -/
def findLoop (filter : BloomObject) (str : Chars) : List (Chars → BitVec 32) → Option Bool
  | [] => some true
  | hash :: hashes => do
      let pos ← hashPos filter.size (hash str)
      let flag ← getFlag filter.bitset pos
      if flag = 0 then some false else findLoop filter str hashes

def find (filter : BloomObject) (str : Chars) : Option Bool := findLoop filter str hashCalc

/-- The calls of a filter after one of its constructors. -/
def machine : Machine BloomObject (FilterCall Chars) FilterRet where
  init filter := ((∃ size, ofSize size = some filter) ∨ ∃ dict, filter = ofDict dict) ∧
    0 < filter.size.toInt
  ok _ _ := True
  exec filter
    | .add str => (put filter str).map fun filter ↦ (.added, filter)
    | .find str => (find filter str).map fun member ↦ (.found member, filter)

end Java

end CPractice.Bloom
