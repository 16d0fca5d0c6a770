import CPractice.Base
import Mathlib.Data.List.Basic

/-!
# Strings and buffers of `lisk_string.c`

A string is the bytes in front of its terminator.  A destination is a buffer of bytes: `SET_ZERO` and
`strncat` write into it, and a write outside of it is `none`.
-/

namespace CPractice.Str

/-- A string in memory: its address and the bytes in front of its terminator, inside of the lower half
of the address space. -/
structure CStr where
  addr : ℕ
  bytes : Bytes
  addr_pos : 0 < addr
  nul_free : 0 ∉ bytes
  fits : addr + bytes.length < 140737488355328

/-- A string written down as its address and its bytes. -/
def CStr.literal (addr : ℕ) (bytes : Bytes)
    (h : 0 < addr ∧ 0 ∉ bytes ∧ addr + bytes.length < 140737488355328) : CStr :=
  ⟨addr, bytes, h.1, h.2.1, h.2.2⟩

def CStr.strlen (str : CStr) : ℕ := str.bytes.length

theorem CStr.strlen_lt (str : CStr) : str.strlen < 140737488355328 :=
  Nat.lt_of_le_of_lt (Nat.le_add_left _ _) str.fits

/-- The bytes behind a pointer that may be `nil`. -/
def text (str : Option CStr) : Bytes := (str.map CStr.bytes).getD []

theorem nul_free_text (str : Option CStr) : 0 ∉ text str := by
  cases str with
  | none => exact List.not_mem_nil
  | some str => exact str.nul_free

/-! ## Integers -/

/-- `n4`: reduction to a signed 32-bit value. -/
@[irreducible] def n4 (value : ℤ) : ℤ := Int.bmod value 4294967296

/-- The conversion of an `n4` to `size_t`. -/
@[irreducible] def sizeT (value : ℤ) : ℕ := (value % 18446744073709551616).toNat

theorem n4_of_lt {value : ℤ} (hneg : 0 ≤ value) (h : value < 2147483648) : n4 value = value := by
  unfold n4
  rw [Int.bmod_eq_of_le (by omega) (by omega)]

theorem n4_of_le {value : ℤ} (hle : 2147483648 ≤ value) (h : value < 4294967296) :
    n4 value = value - 4294967296 := by
  unfold n4 Int.bmod
  dsimp only
  split <;> omega

@[simp]
theorem n4_n4_add (a b : ℤ) : n4 (n4 a + b) = n4 (a + b) := by
  unfold n4
  simp

@[simp]
theorem n4_n4_sub (a b : ℤ) : n4 (n4 a - b) = n4 (a - b) := by
  unfold n4
  simp

theorem sizeT_of_neg {value : ℤ} (hle : -2147483648 ≤ value) (h : value < 0) :
    18446744071562067968 ≤ sizeT value := by
  unfold sizeT
  omega

theorem sizeT_natCast {value : ℕ} (h : value < 18446744073709551616) : sizeT value = value := by
  unfold sizeT
  omega

/-! ## Buffers -/

/-- The string that a buffer holds. -/
def cstr (dst : Bytes) : Bytes := dst.takeWhile (· ≠ 0)

/-- `SET_ZERO(dst, len)`. -/
def setZero (dst : Bytes) (len : ℕ) : Option Bytes :=
  if len ≤ dst.length then some (List.replicate len 0 ++ dst.drop len) else none

/-- `dst[idx] = byte`. -/
def store (dst : Bytes) (idx : ℤ) (byte : UInt8) : Option Bytes :=
  if 0 ≤ idx ∧ idx < dst.length then some (dst.set idx.toNat byte) else none

/-- `SET_ZERO(dst, dst_len); dst[--dst_len] = '\0';`, with which every function begins to write. -/
def clear (dst : Option Bytes) (dstLen : ℤ) : Option Bytes := do
  let dst ← dst
  let dst ← setZero dst (sizeT dstLen)
  store dst (dstLen - 1) 0

/-- `strncat(dst, src, count)` of a source that is terminated. -/
def strncat (dst src : Bytes) (count : ℕ) : Option Bytes :=
  let piece := src.take count
  let len := (cstr dst).length
  if len + piece.length < dst.length then
    some (dst.take len ++ piece ++ 0 :: dst.drop (len + piece.length + 1))
  else none

theorem cstr_append {s rest : Bytes} (hs : 0 ∉ s) : cstr (s ++ 0 :: rest) = s := by
  rw [cstr, List.takeWhile_append_of_pos]
  · simp
  · intro byte hbyte
    have hne : byte ≠ 0 := fun h ↦ hs (h ▸ hbyte)
    simpa using hne

/-- A buffer that holds a string and zeroes behind it, in front of bytes that are left alone. -/
def filled (s : Bytes) (room : ℕ) (tail : Bytes) : Bytes := s ++ (List.replicate room 0 ++ tail)

theorem cstr_filled {s tail : Bytes} {room : ℕ} (hs : 0 ∉ s) (hroom : 0 < room) :
    cstr (filled s room tail) = s := by
  obtain ⟨more, rfl⟩ : ∃ more, room = more + 1 := ⟨room - 1, by omega⟩
  rw [filled, List.replicate_succ]
  exact cstr_append hs

/-- The buffer after the first writes. -/
theorem clear_eq {dst : Bytes} {len : ℕ} (hpos : 0 < len) (hle : len ≤ dst.length)
    (hlt : len < 18446744073709551616) :
    clear (some dst) len = some (filled [] len (dst.drop len)) := by
  have hset : setZero dst (sizeT len) = some (List.replicate len 0 ++ dst.drop len) := by
    rw [setZero, sizeT_natCast hlt, if_pos hle]
  have hlast : ((len : ℤ) - 1).toNat = len - 1 := by omega
  simp only [clear, Option.bind_eq_bind, Option.bind_some, hset]
  rw [store, if_pos, hlast, List.set_append_left _ _ (by rw [List.length_replicate]; omega)]
  · rw [List.set_replicate_self, filled, List.nil_append]
  · rw [List.length_append, List.length_replicate]
    omega

/-- An empty buffer has no last byte. -/
theorem clear_zero (dst : Bytes) : clear (some dst) 0 = none := by
  have hzero : sizeT 0 = 0 := sizeT_natCast (by decide)
  simp [clear, setZero, hzero, store]

section Pieces

variable {s tail piece : Bytes} {room : ℕ} {pieces : List Bytes}

theorem strncat_congr {dst src src' : Bytes} {count count' : ℕ}
    (h : src.take count = src'.take count') : strncat dst src count = strncat dst src' count' := by
  unfold strncat
  rw [h]

/-- A piece that leaves room for a terminator is appended. -/
theorem strncat_eq (hs : 0 ∉ s) (hroom : piece.length < room) :
    strncat (filled s room tail) piece piece.length =
      some (filled (s ++ piece) (room - piece.length) tail) := by
  obtain ⟨more, rfl⟩ : ∃ more, room = piece.length + 1 + more := ⟨room - piece.length - 1, by omega⟩
  have hdrop : (filled s (piece.length + 1 + more) tail).drop (s.length + piece.length + 1) =
      List.replicate more 0 ++ tail := by
    rw [filled, Nat.add_assoc, List.drop_length_add_append, ← List.replicate_append_replicate,
      List.append_assoc]
    exact List.drop_left' List.length_replicate
  simp only [strncat, cstr_filled hs (show 0 < piece.length + 1 + more by omega), List.take_length]
  rw [if_pos, hdrop, filled, List.take_left, filled,
    show piece.length + 1 + more - piece.length = more + 1 by omega, List.replicate_succ,
    List.cons_append]
  · simp only [filled, List.length_append, List.length_replicate]
    omega

/-- A piece that leaves no room for one is written over the end of the buffer. -/
theorem strncat_none (hs : 0 ∉ s) (hpos : 0 < room) (hroom : room ≤ piece.length) :
    strncat (filled s room []) piece piece.length = none := by
  simp only [strncat, cstr_filled hs hpos, List.take_length]
  rw [if_neg]
  simp only [filled, List.length_append, List.length_replicate, List.length_nil]
  omega

theorem nul_free_append (hs : 0 ∉ s) (hpiece : 0 ∉ piece) : 0 ∉ s ++ piece := by
  rw [List.mem_append]
  rintro (h | h)
  · exact hs h
  · exact hpiece h

/-- Pieces appended one after the other. -/
def strncatAll (dst : Bytes) (pieces : List Bytes) : Option Bytes :=
  pieces.foldlM (fun dst piece ↦ strncat dst piece piece.length) dst

theorem strncatAll_eq (hs : 0 ∉ s) (hpieces : ∀ piece ∈ pieces, 0 ∉ piece)
    (hroom : pieces.flatten.length < room) :
    strncatAll (filled s room tail) pieces =
      some (filled (s ++ pieces.flatten) (room - pieces.flatten.length) tail) := by
  induction pieces generalizing s room with
  | nil =>
      rw [List.flatten_nil, List.append_nil]
      rfl
  | cons piece pieces ih =>
      rw [List.flatten_cons, List.length_append] at hroom ⊢
      have hboth := nul_free_append hs (hpieces piece List.mem_cons_self)
      have hrest := ih hboth (fun other h ↦ hpieces other (List.mem_cons_of_mem _ h))
        (show pieces.flatten.length < room - piece.length by omega)
      rw [strncatAll, List.foldlM_cons, strncat_eq hs (by omega)]
      rw [List.append_assoc, Nat.sub_sub] at hrest
      exact hrest

theorem strncatAll_none (hs : 0 ∉ s) (hpieces : ∀ piece ∈ pieces, 0 ∉ piece) (hpos : 0 < room)
    (hroom : room ≤ pieces.flatten.length) : strncatAll (filled s room []) pieces = none := by
  induction pieces generalizing s room with
  | nil =>
      rw [List.flatten_nil, List.length_nil] at hroom
      omega
  | cons piece pieces ih =>
      rw [List.flatten_cons, List.length_append] at hroom
      rw [strncatAll, List.foldlM_cons]
      by_cases hfits : piece.length < room
      · have hboth := nul_free_append hs (hpieces piece List.mem_cons_self)
        rw [strncat_eq hs hfits]
        exact ih hboth (fun other h ↦ hpieces other (List.mem_cons_of_mem _ h)) (by omega) (by omega)
      · rw [strncat_none hs hpos (by omega)]
        rfl

/-- The end of the string is its terminator. -/
theorem filled_eq (hroom : 0 < room) : ∃ rest, filled s room tail = s ++ 0 :: rest := by
  obtain ⟨more, rfl⟩ : ∃ more, room = more + 1 := ⟨room - 1, by omega⟩
  refine ⟨List.replicate more 0 ++ tail, ?_⟩
  rw [filled, List.replicate_succ, List.cons_append]

end Pieces

end CPractice.Str
