import Mathlib.NumberTheory.Bertrand

/-!
# The prime search of `lisk_math.c`

`is_num_prime` and `next_prime` compute on `n8`; a result out of its range is undefined behaviour
and a fault here.  The table sizes of `lisk_hashtable.c` are found by `next_prime`, so what is
needed of it is that it ends, and where.
-/

namespace CPractice.Math

/-- The result of a computation on `n8`, which must be in range. -/
def n8 (x : ℤ) : Option ℤ :=
  if -9223372036854775808 ≤ x ∧ x < 9223372036854775808 then some x else none

/-- The loop of `is_num_prime` from `idx` on. -/
def primeLoop (num : ℤ) : ℕ → ℤ → Option ℤ
  | 0, _ => none
  | fuel + 1, idx =>
      if idx < num then do
        let square ← n8 (idx * idx)
        if num < square then some 0
        else if num % idx = 0 then some (-1)
        else do
          let above ← n8 (6 * idx + 1)
          if above < num ∧ num % above = 0 then some (-1)
          else do
            let below ← n8 (6 * idx - 1)
            if below < num ∧ num % below = 0 then some (-1)
            else primeLoop num fuel (idx + 1)
      else some 0

/-- `is_num_prime`. -/
def isNumPrime (num : ℤ) : Option ℤ :=
  if num < 2 ∨ num % 2 = 0 ∨ num % 3 = 0 then some (-1)
  else primeLoop num num.toNat 3

/-- The loop of `next_prime` from `prime` on. -/
def nextPrimeLoop : ℕ → ℤ → Option ℤ
  | 0, _ => none
  | fuel + 1, prime => do
      let prime ← n8 prime
      let ret ← isNumPrime prime
      if ret = 0 then some prime else nextPrimeLoop fuel (prime + 1)

/-- `next_prime`.  The loop condition `num < prime` and the test after the loop can fail only once
`prime++` is out of range. -/
def nextPrime (num : ℤ) : Option ℤ :=
  if num < 0 then nextPrimeLoop 9223372036854775808 4
  else nextPrimeLoop (9223372036854775808 - num).toNat (num + 1)

/-- The array `get_prime_arr` fills; it returns the last entry. -/
def getPrimeArr : ℤ → ℕ → Option (List ℤ)
  | _, 0 => some []
  | curPrimeNum, primeNum + 1 => do
      let prime ← nextPrime curPrimeNum
      let rest ← getPrimeArr prime primeNum
      some (prime :: rest)

/-! ## Where the search ends -/

theorem n8_of_range {x : ℤ} (hlo : 0 ≤ x) (hhi : x < 9223372036854775808) : n8 x = some x :=
  if_pos ⟨by omega, hhi⟩

theorem eq_of_n8 {x y : ℤ} (h : n8 x = some y) : y = x :=
  (Option.some.inj (Option.ite_none_right_eq_some.mp h).2).symm

theorem nextPrimeLoop_range {fuel : ℕ} {start prime : ℤ}
    (h : nextPrimeLoop fuel start = some prime) : start ≤ prime ∧ prime < 9223372036854775808 := by
  induction fuel generalizing start with
  | zero => cases h
  | succ fuel ih =>
      rcases Option.bind_eq_some_iff.mp h with ⟨start', hrange, h⟩
      rcases Option.ite_none_right_eq_some.mp hrange with ⟨hrange, ⟨⟩⟩
      rcases Option.bind_eq_some_iff.mp h with ⟨ret, -, h⟩
      split at h
      · rw [Option.some_inj] at h
        omega
      · have hrest := ih h
        omega

theorem nextPrime_range {num prime : ℤ} (h : nextPrime num = some prime) :
    0 < prime ∧ num < prime ∧ prime < 9223372036854775808 := by
  unfold nextPrime at h
  split at h
  · have hrange := nextPrimeLoop_range h
    omega
  · have hrange := nextPrimeLoop_range h
    omega

theorem getPrimeArr_pos {primeNum : ℕ} {num : ℤ} {primes : List ℤ}
    (h : getPrimeArr num primeNum = some primes) :
    primes.length = primeNum ∧ ∀ prime ∈ primes, 0 < prime := by
  induction primeNum generalizing num primes with
  | zero =>
      obtain rfl : [] = primes := by simpa [getPrimeArr] using h
      simp
  | succ primeNum ih =>
      rcases Option.bind_eq_some_iff.mp h with ⟨prime, hprime, h⟩
      rcases Option.bind_eq_some_iff.mp h with ⟨rest, hrest, ⟨⟩⟩
      have hpos := (nextPrime_range hprime).1
      rcases ih hrest with ⟨hlength, hrest_pos⟩
      exact ⟨by rw [List.length_cons, hlength], List.forall_mem_cons.mpr ⟨hpos, hrest_pos⟩⟩

theorem getPrimeArr_head {primeNum : ℕ} {num : ℤ} {primes : List ℤ}
    (h : getPrimeArr num primeNum = some primes) (hnum : 0 < primeNum) :
    ∃ prime rest, primes = prime :: rest ∧ num < prime := by
  cases primeNum with
  | zero => cases hnum
  | succ primeNum =>
      rcases Option.bind_eq_some_iff.mp h with ⟨prime, hprime, h⟩
      rcases Option.bind_eq_some_iff.mp h with ⟨rest, hrest, ⟨⟩⟩
      exact ⟨prime, rest, rfl, (nextPrime_range hprime).2.1⟩

/-- A divisor of `num` that the loop looks at for `idx`. -/
def LoopDivides (num idx : ℕ) : Prop :=
  idx ∣ num ∨ (6 * idx + 1 < num ∧ 6 * idx + 1 ∣ num) ∨ (6 * idx - 1 < num ∧ 6 * idx - 1 ∣ num)

instance (num idx : ℕ) : Decidable (LoopDivides num idx) :=
  inferInstanceAs (Decidable (_ ∨ _ ∧ _ ∨ _ ∧ _))

theorem cast_emod_eq_zero_iff (num d : ℕ) : (num : ℤ) % (d : ℤ) = 0 ↔ d ∣ num := by
  rw [← Int.dvd_iff_emod_eq_zero]
  exact Int.natCast_dvd_natCast

/-- One turn of the loop while its products stay in range. -/
theorem primeLoop_succ {num idx : ℕ} (fuel : ℕ) (hthree : 3 ≤ idx) (hidx : idx ≤ 2147483648) :
    primeLoop num (fuel + 1) idx =
      if num ≤ idx ∨ num < idx * idx then some 0
      else if LoopDivides num idx then some (-1)
      else primeLoop num fuel (idx + 1 : ℕ) := by
  have hmul : idx * idx ≤ 2147483648 * 2147483648 := Nat.mul_le_mul hidx hidx
  have hsquare : n8 ((idx : ℤ) * idx) = some ((idx * idx : ℕ) : ℤ) := by
    rw [← Int.natCast_mul]
    exact n8_of_range (by omega) (by omega)
  have habove : n8 (6 * (idx : ℤ) + 1) = some ((6 * idx + 1 : ℕ) : ℤ) := by
    rw [n8_of_range (by omega) (by omega)]
    push_cast
    rfl
  have hbelow : n8 (6 * (idx : ℤ) - 1) = some ((6 * idx - 1 : ℕ) : ℤ) := by
    rw [n8_of_range (by omega) (by omega), show ((6 * idx - 1 : ℕ) : ℤ) = 6 * idx - 1 by omega]
  rw [primeLoop, hsquare, habove, hbelow]
  simp only [Option.bind_eq_bind, Option.bind_some, cast_emod_eq_zero_iff, Nat.cast_lt]
  unfold LoopDivides
  push_cast
  grind

theorem not_dvd_prime {p d : ℕ} (hp : p.Prime) (htwo : 2 ≤ d) (hd : d < p) : ¬ d ∣ p := by
  intro hdvd
  rcases (Nat.dvd_prime hp).mp hdvd with hone | heq
  · omega
  · omega

/-- The loop ends, since `idx * idx` passes `num` before it leaves the range; and it ends with `0` on
a number without divisors. -/
theorem primeLoop_ends {num : ℕ} (hlt : num < 4611686018427387904) (fuel idx : ℕ) (hidx : 3 ≤ idx)
    (hsquare : (idx - 1) * (idx - 1) ≤ num) (hfuel : num < idx + fuel) :
    ∃ flag, primeLoop num fuel idx = some flag ∧ (num.Prime → flag = 0) := by
  have hdouble : 2 * (idx - 1) ≤ (idx - 1) * (idx - 1) := Nat.mul_le_mul_right _ (by omega)
  have hbound : idx ≤ 2147483648 := by
    by_contra hgt
    have hle : 2147483648 * 2147483648 ≤ (idx - 1) * (idx - 1) :=
      Nat.mul_le_mul (by omega) (by omega)
    omega
  induction fuel generalizing idx with
  | zero => omega
  | succ fuel ih =>
      rw [primeLoop_succ fuel hidx hbound]
      by_cases hend : num ≤ idx ∨ num < idx * idx
      · exact ⟨0, if_pos hend, fun _ ↦ rfl⟩
      · rw [if_neg hend]
        by_cases hdiv : LoopDivides num idx
        · refine ⟨-1, if_pos hdiv, fun hp ↦ ?_⟩
          rcases hdiv with hdvd | ⟨hd, hdvd⟩ | ⟨hd, hdvd⟩
          · exact absurd hdvd (not_dvd_prime hp (by omega) (by omega))
          · exact absurd hdvd (not_dvd_prime hp (by omega) hd)
          · exact absurd hdvd (not_dvd_prime hp (by omega) hd)
        · rw [if_neg hdiv]
          rcases not_or.mp hend with ⟨hne, hge⟩
          have hle : idx * idx ≤ num := by omega
          have hdouble' : 2 * idx ≤ idx * idx := Nat.mul_le_mul_right _ (by omega)
          have hbound' : idx + 1 ≤ 2147483648 := by
            by_contra hgt
            have hle' : 2147483648 * 2147483648 ≤ idx * idx :=
              Nat.mul_le_mul (by omega) (by omega)
            omega
          exact ih (idx + 1) (by omega) (by simpa using hle) (by omega) (by simpa using hdouble')
            hbound'

theorem isNumPrime_ends (num : ℕ) (hlt : num < 4611686018427387904) :
    ∃ ret, isNumPrime num = some ret ∧ (num.Prime → 5 ≤ num → ret = 0) := by
  unfold isNumPrime
  by_cases hsmall : (num : ℤ) < 2 ∨ (num : ℤ) % 2 = 0 ∨ (num : ℤ) % 3 = 0
  · refine ⟨-1, if_pos hsmall, fun hp hge ↦ ?_⟩
    have hdvd : 2 ∣ num ∨ 3 ∣ num := by omega
    rcases hdvd with hdvd | hdvd
    · exact absurd hdvd (not_dvd_prime hp (by omega) (by omega))
    · exact absurd hdvd (not_dvd_prime hp (by omega) (by omega))
  · rw [if_neg hsmall]
    rcases primeLoop_ends hlt num 3 (by omega) (by omega) (by omega) with ⟨flag, hflag, hprime⟩
    exact ⟨flag, hflag, fun hp _ ↦ hprime hp⟩

/-- The search from `start` ends at a prime at the latest. -/
theorem nextPrimeLoop_ends {p : ℕ} (hp : p.Prime) (hge : 5 ≤ p) (hlt : p < 4611686018427387904)
    (fuel start : ℕ) (hstart : start ≤ p) (hfuel : p < start + fuel) :
    ∃ prime, nextPrimeLoop fuel start = some prime ∧ prime ≤ p := by
  induction fuel generalizing start with
  | zero => omega
  | succ fuel ih =>
      rcases isNumPrime_ends start (by omega) with ⟨ret, hret, hprime⟩
      simp only [nextPrimeLoop, n8_of_range (x := (start : ℤ)) (by omega) (by omega), hret,
        Option.bind_eq_bind, Option.bind_some]
      by_cases hzero : ret = 0
      · exact ⟨start, if_pos hzero, by exact_mod_cast hstart⟩
      · rw [if_neg hzero]
        have hne : start ≠ p := fun heq ↦ hzero (hprime (heq ▸ hp) (heq ▸ hge))
        exact_mod_cast ih (start + 1) (by omega) (by omega)

/-- Below `2 ^ 61` the search ends, and about doubles its argument at most. -/
theorem nextPrime_ends (num : ℕ) (hlt : num < 2305843009213693952) :
    ∃ prime, nextPrime num = some prime ∧ prime ≤ 2 * num + 8 := by
  rcases Nat.exists_prime_lt_and_le_two_mul (max num 4) (by omega) with ⟨p, hp, hnum, hle⟩
  have hends := nextPrimeLoop_ends hp (by omega) (by omega)
    (9223372036854775808 - (num : ℤ)).toNat (num + 1) (by omega) (by omega)
  rcases hends with ⟨prime, hprime, hprime_le⟩
  refine ⟨prime, ?_, by omega⟩
  rw [nextPrime, if_neg (by omega)]
  exact_mod_cast hprime

example : nextPrime 3 = some 5 := by decide

end CPractice.Math
