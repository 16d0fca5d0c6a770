import CPractice.Math.Prime
import Mathlib.NumberTheory.PrimeCounting

/-!
# The prime search is exact

A composite number that neither two nor three divides has a divisor `d` with `d * d` not above it, and
the loop of `is_num_prime` gets there or finds another one before.  So the search of `next_prime` ends at
the next prime, and `get_prime_arr` fills its array with consecutive primes.
-/

namespace CPractice.Math

/-! ## One number -/

/-- The loop finds a divisor. -/
theorem primeLoop_composite {num d : ℕ} (hlt : num < 4611686018427387904) (hd : d ∣ num)
    (hsquare : d * d ≤ num) (hne : d < num) (fuel idx : ℕ) (hidx : 3 ≤ idx) (hle : idx ≤ d)
    (hfuel : num < idx + fuel) : primeLoop num fuel idx = some (-1) := by
  have hbound : d ≤ 2147483648 := by
    by_contra hgt
    have hmul : 2147483649 * 2147483649 ≤ d * d := Nat.mul_le_mul (by omega) (by omega)
    omega
  induction fuel generalizing idx with
  | zero => omega
  | succ fuel ih =>
      have hbefore : ¬ (num ≤ idx ∨ num < idx * idx) := by
        have hmul : idx * idx ≤ d * d := Nat.mul_le_mul hle hle
        omega
      rw [primeLoop_succ fuel hidx (hle.trans hbound), if_neg hbefore]
      by_cases hdiv : LoopDivides num idx
      · exact if_pos hdiv
      · rw [if_neg hdiv]
        have hlater : idx ≠ d := fun heq ↦ hdiv (.inl (heq ▸ hd))
        exact ih (idx + 1) (by omega) (by omega) (by omega)

theorem isNumPrime_composite {num : ℕ} (hge : 4 ≤ num) (hlt : num < 4611686018427387904)
    (hp : ¬ num.Prime) : isNumPrime num = some (-1) := by
  rw [isNumPrime]
  split
  · rfl
  · rename_i hcoprime
    have hpos : 0 < num := by omega
    have hfac : num.minFac.Prime := Nat.minFac_prime (by omega)
    have hdvd := Nat.minFac_dvd num
    have hsquare : num.minFac * num.minFac ≤ num := by
      rw [← sq]
      exact Nat.minFac_sq_le_self hpos hp
    have htwo : num.minFac ≠ 2 := fun heq ↦ by
      rw [heq] at hdvd
      omega
    have hthree : num.minFac ≠ 3 := fun heq ↦ by
      rw [heq] at hdvd
      omega
    have hge' := hfac.two_le
    have hless : num.minFac < num := by
      have hmul : 2 * num.minFac ≤ num.minFac * num.minFac := Nat.mul_le_mul_right _ hge'
      omega
    exact primeLoop_composite hlt hdvd hsquare hless (num : ℤ).toNat 3 (le_refl 3) (by omega) (by omega)

/-- `is_num_prime` decides primality, but for two and three. -/
theorem isNumPrime_eq {num : ℕ} (hge : 4 ≤ num) (hlt : num < 4611686018427387904) :
    isNumPrime num = some (if num.Prime then 0 else -1) := by
  by_cases hp : num.Prime
  · rcases isNumPrime_ends num hlt with ⟨ret, hret, hprime⟩
    have hfive : num ≠ 4 := fun heq ↦ by
      rw [heq] at hp
      revert hp
      decide
    rw [hret, hprime hp (by omega), if_pos hp]
  · rw [isNumPrime_composite hge hlt hp, if_neg hp]

/-! ## The next prime -/

theorem nextPrimeLoop_eq {p : ℕ} (hp : p.Prime) (hlt : p < 4611686018427387904) (fuel start : ℕ)
    (hstart : 4 ≤ start) (hle : start ≤ p) (hleast : ∀ q, start ≤ q → q.Prime → p ≤ q)
    (hfuel : p < start + fuel) : nextPrimeLoop fuel start = some (p : ℤ) := by
  induction fuel generalizing start with
  | zero => omega
  | succ fuel ih =>
      rw [nextPrimeLoop, n8_of_range (x := (start : ℤ)) (by omega) (by omega), Option.bind_eq_bind,
        Option.bind_some, isNumPrime_eq hstart (by omega), Option.bind_some]
      by_cases hprime : start.Prime
      · have heq : start = p := le_antisymm hle (hleast start (le_refl start) hprime)
        rw [if_pos hprime, if_pos rfl, heq]
      · have hne : start ≠ p := fun heq ↦ hprime (heq ▸ hp)
        rw [if_neg hprime, if_neg (by decide)]
        exact_mod_cast ih (start + 1) (by omega) (by omega)
          (fun q hq ↦ hleast q (by omega)) (by omega)

/-- `next_prime` returns the least prime above its argument. -/
theorem nextPrime_eq {num p : ℕ} (hge : 3 ≤ num) (hlt : num < 2305843009213693952)
    (hp : IsLeast {q | q.Prime ∧ num < q} p) : nextPrime num = some (p : ℤ) := by
  rcases Nat.exists_prime_lt_and_le_two_mul num (by omega) with ⟨q, hq, hnum, hle⟩
  have hbound := hp.2 ⟨hq, hnum⟩
  rcases hp.1 with ⟨hprime, habove⟩
  rw [nextPrime, if_neg (by omega)]
  exact_mod_cast nextPrimeLoop_eq hprime (by omega) (9223372036854775808 - (num : ℤ)).toNat (num + 1)
    (by omega) (by omega) (fun q hq hprime ↦ hp.2 ⟨hprime, hq⟩) (by omega)

/-- The least prime above a number, by its index. -/
theorem isLeast_nth_prime (num : ℕ) :
    IsLeast {q | q.Prime ∧ num < q} (Nat.nth Nat.Prime num.primeCounting) := by
  have hnonempty : {q | q.Prime ∧ num < q}.Nonempty := by
    rcases Nat.exists_infinite_primes (num + 1) with ⟨q, hq, hprime⟩
    exact ⟨q, hprime, hq⟩
  have hnth : Nat.nth Nat.Prime num.primeCounting = sInf {q | q.Prime ∧ num < q} :=
    Nat.nth_count_eq_sInf Nat.Prime (num + 1)
  rw [hnth]
  exact ⟨Nat.sInf_mem hnonempty, fun q hq ↦ Nat.sInf_le hq⟩

/-- Up to that prime there is one more. -/
theorem primeCounting_nth (index : ℕ) : (Nat.nth Nat.Prime index).primeCounting = index + 1 :=
  Nat.count_nth_succ_of_infinite Nat.infinite_setOfPred_prime index

/-! ## Consecutive primes -/

/-- The smallest primes above a number, in increasing order. -/
structure SmallestPrimes (num count : ℕ) (arr : List ℕ) : Prop where
  length : arr.length = count
  increasing : arr.Pairwise (· < ·)
  primes : ∀ p ∈ arr, p.Prime ∧ num < p
  smallest : ∀ q, q.Prime → num < q → q ∈ arr ∨ ∀ p ∈ arr, p < q

theorem SmallestPrimes.cons {num count p : ℕ} {arr : List ℕ}
    (hp : IsLeast {q | q.Prime ∧ num < q} p) (h : SmallestPrimes p count arr) :
    SmallestPrimes num (count + 1) (p :: arr) where
  length := by rw [List.length_cons, h.length]
  increasing := List.pairwise_cons.mpr ⟨fun q hq ↦ (h.primes q hq).2, h.increasing⟩
  primes := by
    rw [List.forall_mem_cons]
    exact ⟨hp.1, fun q hq ↦ ⟨(h.primes q hq).1, hp.1.2.trans (h.primes q hq).2⟩⟩
  smallest := by
    intro q hq habove
    rw [List.mem_cons, List.forall_mem_cons]
    rcases (hp.2 ⟨hq, habove⟩).eq_or_lt with heq | hlt
    · exact .inl (.inl heq.symm)
    · rcases h.smallest q hq hlt with hmem | hall
      · exact .inl (.inr hmem)
      · exact .inr ⟨hlt, hall⟩

/-- `get_prime_arr` as long as the results, by their indices, stay below `2 ^ 61`. -/
theorem getPrimeArr_eq {num count : ℕ} (hge : 3 ≤ num)
    (hlt : ∀ i < count, Nat.nth Nat.Prime (num.primeCounting + i) < 2305843009213693952) :
    ∃ arr : List ℕ, getPrimeArr num count = some (arr.map Nat.cast) ∧ SmallestPrimes num count arr := by
  induction count generalizing num with
  | zero => exact ⟨[], rfl, rfl, .nil, by simp, by simp⟩
  | succ count ih =>
      have hleast := isLeast_nth_prime num
      have hfirst := hlt 0 (Nat.succ_pos count)
      rw [Nat.add_zero] at hfirst
      have hnext := nextPrime_eq hge (hleast.1.2.trans hfirst) hleast
      have hrest : ∀ i < count, Nat.nth Nat.Prime
          ((Nat.nth Nat.Prime num.primeCounting).primeCounting + i) < 2305843009213693952 := by
        intro i hi
        rw [primeCounting_nth, Nat.add_right_comm]
        exact hlt (i + 1) (by omega)
      rcases ih (hge.trans hleast.1.2.le) hrest with ⟨arr, harr, hsmallest⟩
      refine ⟨_, ?_, hsmallest.cons hleast⟩
      rw [getPrimeArr, hnext, Option.bind_eq_bind, Option.bind_some, harr]
      rfl

/-- For every number in range: `is_num_prime` decides primality, `next_prime` returns the least prime
above, and `get_prime_arr` the smallest ones above in increasing order. -/
theorem prime_search_exact :
    (∀ num : ℕ, 4 ≤ num → num < 4611686018427387904 → (isNumPrime num = some 0 ↔ num.Prime)) ∧
    (∀ num : ℕ, 3 ≤ num → num < 2305843009213693952 →
      ∃ p : ℕ, nextPrime num = some (p : ℤ) ∧ IsLeast {q | q.Prime ∧ num < q} p) ∧
    ∀ maxNum primeNum : ℕ, 3 ≤ maxNum →
      (∀ i < primeNum, Nat.nth Nat.Prime (maxNum.primeCounting + i) < 2305843009213693952) →
      ∃ arr : List ℕ, getPrimeArr maxNum primeNum = some (arr.map Nat.cast) ∧
        SmallestPrimes maxNum primeNum arr := by
  refine ⟨?_, ?_, fun maxNum primeNum hge hlt ↦ getPrimeArr_eq hge hlt⟩
  · intro num hge hlt
    rw [isNumPrime_eq hge hlt, Option.some_inj]
    split
    · rename_i hp
      exact iff_of_true rfl hp
    · rename_i hp
      exact iff_of_false (by decide) hp
  · intro num hge hlt
    have hleast := isLeast_nth_prime num
    exact ⟨_, nextPrime_eq hge hlt hleast, hleast⟩

theorem prime_search_exact_small :
    isNumPrime (29 : ℕ) = some 0 ∧ (∃ p : ℕ, nextPrime (24 : ℕ) = some (p : ℤ) ∧ 24 < p) ∧
      ∃ arr : List ℕ, getPrimeArr (3 : ℕ) 2 = some (arr.map Nat.cast) ∧ SmallestPrimes 3 2 arr := by
  rcases prime_search_exact with ⟨hprime, hnext, harr⟩
  refine ⟨(hprime 29 (by decide) (by decide)).mpr (by decide), ?_, harr 3 2 (by decide) ?_⟩
  · rcases hnext 24 (by decide) (by decide) with ⟨p, hp, hleast⟩
    exact ⟨p, hp, hleast.1.2⟩
  · have hcount : Nat.primeCounting 3 = Nat.count Nat.Prime 5 := by decide
    have hcount' : Nat.primeCounting 3 + 1 = Nat.count Nat.Prime 7 := by decide
    intro i hi
    have hcases : i = 0 ∨ i = 1 := by omega
    rcases hcases with rfl | rfl
    · rw [Nat.add_zero, hcount, Nat.nth_count (by decide)]
      decide
    · rw [hcount', Nat.nth_count (by decide)]
      decide

end CPractice.Math
