import CPractice.Aof.Model
import Mathlib.Data.Nat.Digits.Lemmas

/-!
# The RESP array form

A command is a length line `*n`, and for each of its `n` arguments a length line `$len` and the bytes
of the argument with CRLF.  The module has what the C library functions do to such lines.
-/

namespace CPractice.Aof

def crlf : Bytes := [13, 10]

/-- The decimal digits of a number. -/
def decimal (n : ℕ) : Bytes :=
  if n = 0 then [48] else (Nat.digits 10 n).reverse.map fun digit ↦ (48 + digit).toUInt8

/-- The line `*n` or `$n`. -/
def lengthLine (mark : UInt8) (n : ℕ) : Bytes := mark :: (decimal n ++ crlf)

def encodeArg (arg : Bytes) : Bytes := lengthLine 36 arg.length ++ (arg ++ crlf)

def encode (args : List Bytes) : Bytes := lengthLine 42 args.length ++ args.flatMap encodeArg

def encodeAll (commands : List (List Bytes)) : Bytes := commands.flatMap encode

/-! ## Decimal numbers -/

theorem isDigit_toUInt8 {digit : ℕ} (h : digit < 10) : isDigit (48 + digit).toUInt8 = true := by
  interval_cases digit <;> decide

theorem toUInt8_sub {digit : ℕ} (h : digit < 10) : (48 + digit).toUInt8.toNat - 48 = digit := by
  interval_cases digit <;> decide

theorem isDigit_of_mem_decimal {n : ℕ} {byte : UInt8} (h : byte ∈ decimal n) : isDigit byte := by
  unfold decimal at h
  split at h
  · rw [List.mem_singleton.mp h]
    decide
  · rcases List.mem_map.mp h with ⟨digit, hdigit, rfl⟩
    exact isDigit_toUInt8 (Nat.digits_lt_base (by decide) (List.mem_reverse.mp hdigit))

theorem decimal_ne_nil (n : ℕ) : decimal n ≠ [] := by
  unfold decimal
  split
  · simp
  · next hzero =>
      simp only [ne_eq, List.map_eq_nil_iff, List.reverse_eq_nil_iff]
      exact Nat.digits_ne_nil_iff_ne_zero.mpr hzero

theorem digitsValue_decimal (n : ℕ) : digitsValue (decimal n) = n := by
  unfold decimal digitsValue
  split
  · next hzero => simp [hzero]
  · have hfold : ∀ digits : List ℕ, (∀ digit ∈ digits, digit < 10) →
        (digits.reverse.map fun digit ↦ (48 + digit).toUInt8).foldl
          (fun value byte ↦ value * 10 + (byte.toNat - 48)) 0 = Nat.ofDigits 10 digits := by
      intro digits hdigits
      induction digits with
      | nil => rfl
      | cons digit digits ih =>
          have hdigit : digit < 10 := hdigits digit List.mem_cons_self
          have hrest := ih fun d hd ↦ hdigits d (List.mem_cons_of_mem digit hd)
          rw [List.reverse_cons, List.map_append, List.foldl_append, hrest, List.map_singleton,
            List.foldl_cons, List.foldl_nil, toUInt8_sub hdigit, Nat.ofDigits_cons]
          ring
    rw [hfold _ fun digit hdigit ↦ Nat.digits_lt_base (by decide) hdigit, Nat.ofDigits_digits]

/-- A number of a file offset has at most nineteen digits. -/
theorem decimal_length_le {n : ℕ} (h : n < 9223372036854775808) : (decimal n).length ≤ 19 := by
  unfold decimal
  split
  · decide
  · rw [List.length_map, List.length_reverse, Nat.digits_length_le_iff (by decide)]
    omega

/-! ## The C library on digits -/

theorem isSpace_of_isDigit {byte : UInt8} (h : isDigit byte) : isSpace byte = false := by
  revert h
  unfold isDigit isSpace
  simp only [decide_eq_true_eq, decide_eq_false_iff_not, UInt8.le_iff_toNat_le, UInt8.ext_iff]
  simp
  omega

theorem not_sign_of_isDigit {byte : UInt8} (h : isDigit byte) : byte ≠ 45 ∧ byte ≠ 43 := by
  constructor
  · rintro rfl
    exact absurd h (by decide)
  · rintro rfl
    exact absurd h (by decide)

theorem takeWhile_digits {digits rest : Bytes} (hdigits : ∀ byte ∈ digits, isDigit byte)
    (hrest : ∀ byte ∈ rest.head?, isDigit byte = false) :
    (digits ++ rest).takeWhile isDigit = digits := by
  induction digits with
  | nil =>
      cases rest with
      | nil => rfl
      | cons byte rest => simp [hrest byte rfl]
  | cons byte digits ih =>
      have hbyte := hdigits byte List.mem_cons_self
      rw [List.cons_append, List.takeWhile_cons_of_pos hbyte,
        ih fun b hb ↦ hdigits b (List.mem_cons_of_mem byte hb)]

/-- `strtol` on digits that something else follows. -/
theorem strtol_digits {digits : Bytes} (rest : Bytes) (hdigits : ∀ byte ∈ digits, isDigit byte)
    (hne : digits ≠ []) (hrest : ∀ byte ∈ rest.head?, isDigit byte = false) :
    strtol (digits ++ rest) = (clampLong (digitsValue digits), digits.length) := by
  cases digits with
  | nil => exact absurd rfl hne
  | cons byte digits =>
      have hbyte := hdigits byte List.mem_cons_self
      have htake := takeWhile_digits hdigits hrest
      rw [List.cons_append] at htake
      have hsign := not_sign_of_isDigit hbyte
      simp [strtol, isSpace_of_isDigit hbyte, hsign.1, hsign.2, htake]

/-- `strtol` where there is no digit: a `NUL`. -/
theorem strtol_nul (rest : Bytes) : strtol (0 :: rest) = (0, 0) := by
  have hspace : isSpace 0 = false := by decide
  have hdigit : isDigit 0 = false := by decide
  simp [strtol, hspace, hdigit]

theorem clampLong_natCast {n : ℕ} (h : n < 9223372036854775808) : clampLong n = n := by
  unfold clampLong
  omega

/-- `fgets` stops behind the first newline. -/
theorem lineWithin_newline {limit : ℕ} {before : Bytes} (after : Bytes) (hnewline : 10 ∉ before)
    (hlimit : before.length < limit) :
    lineWithin limit (before ++ 10 :: after) = before ++ [10] := by
  induction before generalizing limit with
  | nil =>
      cases limit with
      | zero => exact absurd hlimit (Nat.not_lt_zero _)
      | succ limit => simp [lineWithin]
  | cons byte before ih =>
      cases limit with
      | zero => exact absurd hlimit (Nat.not_lt_zero _)
      | succ limit =>
          rw [List.mem_cons, not_or] at hnewline
          have hrest := ih hnewline.2 (by simpa using hlimit)
          rw [List.cons_append, lineWithin, if_neg (Ne.symm hnewline.1), hrest, List.cons_append]

/-- `fgets` takes the whole of a chunk without a newline. -/
theorem lineWithin_all {limit : ℕ} {bytes : Bytes} (hnewline : 10 ∉ bytes)
    (hlimit : bytes.length ≤ limit) : lineWithin limit bytes = bytes := by
  induction bytes generalizing limit with
  | nil => cases limit <;> rfl
  | cons byte bytes ih =>
      cases limit with
      | zero => exact absurd hlimit (by simp)
      | succ limit =>
          rw [List.mem_cons, not_or] at hnewline
          rw [lineWithin, if_neg (Ne.symm hnewline.1), ih hnewline.2 (by simpa using hlimit)]

end CPractice.Aof
