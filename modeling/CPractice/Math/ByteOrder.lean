import CPractice.Lib.LittleEndian

/-!
# `SWAP` and the network byte order of `lisk_math.c`

`SWAP` exchanges two operands of the same size through three exclusive ors, for sizes of 2, 4, 8 and 12
bytes.  The conversions to and from network order are to exchange single bytes by it.  This size is
none of its cases, so they return their argument, which is in network order only if its bytes read the
same in both directions.
-/

namespace CPractice.ByteOrder

open Lib Lib.ByteMemory

/-! ## Exchanging two values -/

/-- The body of `swap2B`, `swap4B` and `swap8B`. -/
def swapWord (size : ℕ) (m : ByteMemory) (a b : ℕ) : ByteMemory :=
  let m := xorWord size m a a b
  let m := xorWord size m b a b
  xorWord size m a a b

def swap2B : ByteMemory → ℕ → ℕ → ByteMemory := swapWord 2

def swap4B : ByteMemory → ℕ → ℕ → ByteMemory := swapWord 4

def swap8B : ByteMemory → ℕ → ℕ → ByteMemory := swapWord 8

def swap12B (m : ByteMemory) (a b : ℕ) : ByteMemory := swap4B (swap8B m a b) (a + 8) (b + 8)

/-- `SWAP` of operands of the given sizes. -/
def swap (m : ByteMemory) (sizeA sizeB a b : ℕ) : ByteMemory :=
  if sizeA = sizeB then
    match sizeA with
    | 2 => swap2B m a b
    | 4 => swap4B m a b
    | 8 => swap8B m a b
    | 12 => swap12B m a b
    | _ => m
  else m

variable {m : ByteMemory} {size a b : ℕ}

theorem swapWord_eq (h : Apart size a b) : swapWord size m a b = exchange size m a b :=
  xor_exchange h rfl rfl

theorem swap12B_eq (h : Apart 12 a b) : swap12B m a b = exchange 12 m a b := by
  have hfront : Apart 8 a b := by
    unfold Apart at h ⊢
    omega
  have hback : Apart 4 (a + 8) (b + 8) := by
    unfold Apart at h ⊢
    omega
  calc swap12B m a b = exchange 4 (exchange 8 m a b) (a + 8) (b + 8) := by
        rw [swap12B, swap4B, swap8B, swapWord_eq hfront, swapWord_eq hback]
    _ = exchange 12 m a b := exchange_exchange m h

/-- The sizes that `SWAP` has a case for. -/
def swapSizes : List ℕ := [2, 4, 8, 12]

/-- Operands of these sizes that do not overlap are exchanged; others stay as they are. -/
theorem swap_eq (h : Apart size a b) :
    swap m size size a b = if size ∈ swapSizes then exchange size m a b else m := by
  unfold swap
  rw [if_pos rfl]
  split
  · rw [if_pos (by decide)]
    exact swapWord_eq h
  · rw [if_pos (by decide)]
    exact swapWord_eq h
  · rw [if_pos (by decide)]
    exact swapWord_eq h
  · rw [if_pos (by decide)]
    exact swap12B_eq h
  · next htwo hfour height htwelve =>
      have hnone : size ∉ swapSizes := by
        simp only [swapSizes, List.mem_cons, List.not_mem_nil, or_false, not_or]
        exact ⟨htwo, hfour, height, htwelve⟩
      rw [if_neg hnone]

/-! ## Network order -/

/-- The body of `hton2`, `hton4` and `hton8` on a little-endian host: the argument is put into memory,
the pairs of its bytes, each an `un1`, are swapped, and the word is read again. -/
def hton (size : ℕ) (pairs : List (ℕ × ℕ)) (val : BitVec (8 * size)) : BitVec (8 * size) :=
  let m := store (fun _ ↦ 0) 0 val
  let m := pairs.foldl (fun m pair ↦ swap m 1 1 pair.1 pair.2) m
  m.load 0 size

def hton2 (val : BitVec 16) : BitVec 16 := hton 2 [(0, 1)] val

def ntoh2 (val : BitVec 16) : BitVec 16 := hton2 val

def hton4 (val : BitVec 32) : BitVec 32 := hton 4 [(0, 3), (1, 2)] val

def ntoh4 (val : BitVec 32) : BitVec 32 := hton4 val

def hton8 (val : BitVec 64) : BitVec 64 := hton 8 [(0, 7), (1, 6), (2, 5), (3, 4)] val

def ntoh8 (val : BitVec 64) : BitVec 64 := hton8 val

theorem foldl_swap_one (m : ByteMemory) (pairs : List (ℕ × ℕ)) :
    pairs.foldl (fun m pair ↦ swap m 1 1 pair.1 pair.2) m = m := by
  induction pairs with
  | nil => rfl
  | cons pair pairs ih => exact ih

/-- No byte is moved. -/
theorem hton_eq (size : ℕ) (pairs : List (ℕ × ℕ)) (val : BitVec (8 * size)) :
    hton size pairs val = val := by
  rw [hton, foldl_swap_one]
  exact load_store _ 0 val

theorem hton_bigEndian_iff (size : ℕ) (pairs : List (ℕ × ℕ)) (val : BitVec (8 * size)) :
    (bytesInMemory size (hton size pairs val) = bigEndian size val ∧
      hton size pairs (hton size pairs val) = val) ↔
      (bytesInMemory size val).reverse = bytesInMemory size val := by
  rw [hton_eq, hton_eq, bigEndian_eq_reverse, and_iff_left rfl]
  exact eq_comm

/-- `hton2`, `hton4` and `hton8` put the bytes of their argument into network order, and `ntoh2`,
`ntoh4` and `ntoh8` back, just if these bytes read the same in both directions. -/
theorem hton_network_order_iff (v2 : BitVec 16) (v4 : BitVec 32) (v8 : BitVec 64) :
    ((bytesInMemory 2 (hton2 v2) = bigEndian 2 v2 ∧ ntoh2 (hton2 v2) = v2) ↔
      (bytesInMemory 2 v2).reverse = bytesInMemory 2 v2) ∧
    ((bytesInMemory 4 (hton4 v4) = bigEndian 4 v4 ∧ ntoh4 (hton4 v4) = v4) ↔
      (bytesInMemory 4 v4).reverse = bytesInMemory 4 v4) ∧
    ((bytesInMemory 8 (hton8 v8) = bigEndian 8 v8 ∧ ntoh8 (hton8 v8) = v8) ↔
      (bytesInMemory 8 v8).reverse = bytesInMemory 8 v8) :=
  ⟨hton_bigEndian_iff 2 _ v2, hton_bigEndian_iff 4 _ v4, hton_bigEndian_iff 8 _ v8⟩

/-- The lower byte stays in front. -/
theorem hton_keeps_order :
    bytesInMemory 2 (hton2 0x0102) = [0x02, 0x01] ∧ bigEndian 2 0x0102 = [0x01, 0x02] ∧
    bytesInMemory 4 (hton4 0x01020304) ≠ bigEndian 4 0x01020304 ∧
    bytesInMemory 8 (hton8 0x0102030405060708) ≠ bigEndian 8 0x0102030405060708 := by
  decide +kernel

end CPractice.ByteOrder
