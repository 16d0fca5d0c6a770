import Mathlib.Data.BitVec
import Mathlib.Data.List.Basic

/-!
# Reflected cyclic redundancy checks

The register takes the bits of a message one by one, each byte from its lowest bit on: it is shifted
right, and the polynomial is added if the bit shifted out and the bit of the message differ.  Taking bits
is linear, and eight zero bits only shift a register whose low byte is clear; so a byte is taken with one
entry of a table and one shift by eight.
-/

namespace CPractice.Lib.Crc

variable {w : ℕ} (poly : BitVec w)

/-- The register behind one bit of the message. -/
def takeBit (r : BitVec w) (bit : Bool) : BitVec w :=
  (r >>> 1) ^^^ if r.getLsbD 0 ^^ bit then poly else 0

/-- The bits of a byte, from the lowest one on. -/
def byteBits (byte : BitVec 8) : List Bool := (List.range 8).map fun i ↦ byte.getLsbD i

/-- The register behind a message, from an initial value. -/
def register (init : BitVec w) (msg : List (BitVec 8)) : BitVec w :=
  (msg.flatMap byteBits).foldl (takeBit poly) init

theorem register_append (init : BitVec w) (a b : List (BitVec 8)) :
    register poly init (a ++ b) = register poly (register poly init a) b := by
  rw [register, List.flatMap_append, List.foldl_append, register, register]

/-! ## Zero bits -/

/-- The register behind so many zero bits. -/
def shifts : ℕ → BitVec w → BitVec w
  | 0, r => r
  | n + 1, r => shifts n (takeBit poly r false)

theorem takeBit_xor (r s : BitVec w) (a b : Bool) :
    takeBit poly (r ^^^ s) (a ^^ b) = takeBit poly r a ^^^ takeBit poly s b := by
  have hpoly : ∀ x y : Bool, (if x ^^ y then poly else 0) =
      (if x then poly else 0) ^^^ (if y then poly else 0) := by
    intro x y
    cases x <;> cases y <;> simp
  have hbit : ((r ^^^ s).getLsbD 0 ^^ (a ^^ b)) = ((r.getLsbD 0 ^^ a) ^^ (s.getLsbD 0 ^^ b)) := by
    rw [BitVec.getLsbD_xor]
    cases r.getLsbD 0 <;> cases s.getLsbD 0 <;> cases a <;> cases b <;> rfl
  simp only [takeBit, hbit, hpoly, BitVec.ushiftRight_xor_distrib]
  ac_rfl

theorem shifts_xor (n : ℕ) (r s : BitVec w) :
    shifts poly n (r ^^^ s) = shifts poly n r ^^^ shifts poly n s := by
  induction n generalizing r s with
  | zero => rfl
  | succ n ih =>
      rw [shifts, shifts, shifts, ← ih, ← takeBit_xor]
      rfl

/-- A zero bit only shifts a register whose lowest bit is clear. -/
theorem takeBit_clear {r : BitVec w} (h : r.getLsbD 0 = false) : takeBit poly r false = r >>> 1 := by
  simp [takeBit, h]

theorem shifts_clear (n : ℕ) {r : BitVec w} (h : ∀ i < n, r.getLsbD i = false) :
    shifts poly n r = r >>> n := by
  induction n generalizing r with
  | zero => rw [shifts, BitVec.ushiftRight_zero]
  | succ n ih =>
      rw [shifts, takeBit_clear poly (h 0 (Nat.succ_pos n)), ih, ← BitVec.shiftRight_add, Nat.add_comm]
      intro i hi
      rw [BitVec.getLsbD_ushiftRight]
      exact h (1 + i) (by omega)

/-! ## Bytes -/

/-- Bits are taken as zero bits once they are added to the register. -/
theorem foldl_takeBit (n : ℕ) (r x : BitVec w) :
    ((List.range n).map fun i ↦ x.getLsbD i).foldl (takeBit poly) r ^^^ (x >>> n) =
      shifts poly n (r ^^^ x) := by
  induction n generalizing r x with
  | zero => simp [shifts]
  | succ n ih =>
      have hstep : takeBit poly (r ^^^ x) false = takeBit poly r (x.getLsbD 0) ^^^ (x >>> 1) := by
        have hlow : takeBit poly x (x.getLsbD 0) = x >>> 1 := by simp [takeBit]
        have hxor := takeBit_xor poly r x (x.getLsbD 0) (x.getLsbD 0)
        rwa [hlow, Bool.xor_self] at hxor
      rw [shifts, hstep, ← ih, List.range_succ_eq_map, List.map_cons, List.map_map, List.foldl_cons,
        ← BitVec.shiftRight_add, Nat.add_comm 1 n]
      congr 2
      apply List.map_congr_left
      intro i _
      simp [Nat.add_comm]

theorem register_singleton (hw : 8 ≤ w) (r : BitVec w) (byte : BitVec 8) :
    register poly r [byte] = shifts poly 8 (r ^^^ byte.setWidth w) := by
  have hbits : byteBits byte = (List.range 8).map fun i ↦ (byte.setWidth w).getLsbD i := by
    apply List.map_congr_left
    intro i hi
    rw [List.mem_range] at hi
    simp [show i < w by omega]
  have hhigh : (byte.setWidth w) >>> 8 = 0 := by
    apply BitVec.eq_of_getLsbD_eq
    intro i _
    simp
  have hbyte := foldl_takeBit poly 8 r (byte.setWidth w)
  rw [hhigh] at hbyte
  rw [register, List.flatMap_singleton, hbits, ← hbyte]
  exact (BitVec.xor_zero).symm

/-- One entry of the table. -/
def entry (index : BitVec 8) : BitVec w := shifts poly 8 (index.setWidth w)

/-- A byte is taken with one entry of the table. -/
theorem register_byte (hw : 8 ≤ w) (r : BitVec w) (byte : BitVec 8) :
    register poly r [byte] = entry poly (r.setWidth 8 ^^^ byte) ^^^ (r >>> 8) := by
  have hsplit : r ^^^ byte.setWidth w = (r.setWidth 8 ^^^ byte).setWidth w ^^^ ((r >>> 8) <<< 8) := by
    apply BitVec.eq_of_getLsbD_eq
    intro i hi
    by_cases hlow : i < 8
    · simp [hi, hlow]
    · have hrest : 8 + (i - 8) = i := by omega
      simp [hi, hlow, hrest, BitVec.getLsbD_of_ge byte i (by omega), BitVec.getLsbD_eq_getElem]
  have hhigh : shifts poly 8 ((r >>> 8) <<< 8) = r >>> 8 := by
    rw [shifts_clear]
    · apply BitVec.eq_of_getLsbD_eq
      intro i hi
      by_cases hin : 8 + i < w
      · simp [hin]
      · simp [BitVec.getLsbD_of_ge r (8 + i) (by omega), hin]
    · intro i hi
      simp [hi]
  rw [register_singleton poly hw, hsplit, shifts_xor, hhigh, entry]

theorem entry_xor (i j : BitVec 8) : entry poly (i ^^^ j) = entry poly i ^^^ entry poly j := by
  rw [entry, BitVec.setWidth_xor, shifts_xor, entry, entry]

/-! ## Sums of registers -/

/-- The exclusive or of registers. -/
def sum (rs : List (BitVec w)) : BitVec w := rs.foldr (· ^^^ ·) 0

theorem sum_append (rs ss : List (BitVec w)) : sum (rs ++ ss) = sum rs ^^^ sum ss := by
  induction rs with
  | nil => simp [sum]
  | cons r rs ih =>
      rw [List.cons_append, sum, List.foldr_cons, ← sum, ih, ← BitVec.xor_assoc]
      rfl

theorem sum_singleton (r : BitVec w) : sum [r] = r := BitVec.xor_zero

/-- A linear function of a sum. -/
theorem map_sum {v : ℕ} (f : BitVec w → BitVec v) (hzero : f 0 = 0)
    (hxor : ∀ r s, f (r ^^^ s) = f r ^^^ f s) (rs : List (BitVec w)) : f (sum rs) = sum (rs.map f) := by
  induction rs with
  | nil => exact hzero
  | cons r rs ih =>
      rw [sum, List.foldr_cons, hxor, ← sum, ih]
      rfl

end CPractice.Lib.Crc
