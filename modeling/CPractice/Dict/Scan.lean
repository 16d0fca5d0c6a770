import CPractice.Dict.Tables
import CPractice.Dict.Rehash
import CPractice.Lib.BitReversal

/-!
# `dictScan`

A call emits the buckets of a cursor and returns the next cursor, which counts with its bits reversed.
Where there are two tables the bucket of the smaller one is emitted, and those of its expansions in the
larger one from the cursor upwards: all of them if the cursor has no bits between the masks.  The callback
is taken to leave the dictionary as it is.
-/

namespace CPractice.Dict

open Lib

variable {κ ν : Type} {hash : κ → ℕ} {d : DictT κ ν} {ht : Dictht κ ν} {v v' : BitVec 64} {k l : ℕ}

/-- The loop of `rev`, for a number of turns. -/
def revLoop (s : ℕ) (mask v : BitVec 64) : ℕ → BitVec 64
  | 0 => v
  | turns + 1 =>
      let s := s >>> 1
      if s > 0 then
        let mask := mask ^^^ (mask <<< s)
        revLoop s mask (((v >>> s) &&& mask) ||| ((v <<< s) &&& ~~~mask)) turns
      else v

/-- `rev`. -/
def rev (v : BitVec 64) : BitVec 64 := revLoop (8 * 8) (~~~0) v 7

/-- The bucket at a cursor. -/
def emit (ht : Dictht κ ν) (v : BitVec 64) : Option (List (κ × ν)) :=
  ht.table[(v &&& BitVec.ofNat 64 ht.sizemask).toNat]?

/-- The loop over the expansions in the larger table, for a number of turns. -/
def scanLoop (t1 : Dictht κ ν) (m0 m1 v : BitVec 64) : ℕ → Option (List (κ × ν) × BitVec 64)
  | 0 => none
  | turns + 1 => do
      let de ← emit t1 v
      let v := (((v ||| m0) + 1) &&& ~~~m0) ||| (v &&& m0)
      if v &&& (m0 ^^^ m1) ≠ 0 then do
        let (rest, v) ← scanLoop t1 m0 m1 v turns
        some (de ++ rest, v)
      else some (de, v)

/-- The smaller table first. -/
def smallerFirst (d : DictT κ ν) : Dictht κ ν × Dictht κ ν :=
  if d.ht0.size > d.ht1.size then (d.ht1, d.ht0) else (d.ht0, d.ht1)

/-- The end of `dictScan`. -/
def nextCursor (m0 v : BitVec 64) : BitVec 64 := rev (rev (v ||| ~~~m0) + 1)

/-- `dictScan`, with the entries given to the callback. -/
def dictScan (d : DictT κ ν) (v : BitVec 64) : Option (List (κ × ν) × BitVec 64) :=
  if dictSize d = 0 then some ([], 0)
  else if ¬ isRehashing d then do
    let m0 := BitVec.ofNat 64 d.ht0.sizemask
    let de ← emit d.ht0 v
    some (de, nextCursor m0 v)
  else do
    let (t0, t1) := smallerFirst d
    let m0 := BitVec.ofNat 64 t0.sizemask
    let m1 := BitVec.ofNat 64 t1.sizemask
    let de ← emit t0 v
    let (rest, v) ← scanLoop t1 m0 m1 v t1.size
    some (de ++ rest, nextCursor m0 v)

/-! ## The reversal -/

/-- The rounds exchange the bits whose indices differ by a word. -/
def Exchanges (s : ℕ) (mask : BitVec 64) (turns x : ℕ) : Prop :=
  ∀ v : BitVec 64, ∀ i < 64, (revLoop s mask v turns).getLsbD i = v.getLsbD (i ^^^ x)

theorem exchanges_round (mask : BitVec 64) {s x turns : ℕ} {mask' : BitVec 64} (h : Exchanges s mask' turns x)
    (hs : 0 < s) (hx : x < 64) (hmask : mask ^^^ (mask <<< s) = mask')
    (hswap : ∀ i < 64, if mask'.getLsbD i then i ^^^ s = s + i else s ≤ i ∧ i ^^^ s = i - s) :
    Exchanges (2 * s) mask (turns + 1) (x ^^^ s) := by
  intro v i hi
  have hhalf : (2 * s) >>> 1 = s := by
    rw [Nat.shiftRight_one]
    omega
  have hin : i ^^^ x < 64 := Nat.xor_lt_two_pow (n := 6) hi hx
  rw [revLoop, hhalf]
  dsimp only
  rw [if_pos hs, hmask, h _ i hi, getLsbD_swap hswap hin, Nat.xor_assoc]

theorem exchanges_all : Exchanges (8 * 8) (~~~0) 7 63 := by
  have h1 : Exchanges 1 0x5555555555555555#64 1 0 := fun v i _ ↦ by rw [Nat.xor_zero]; rfl
  have h2 := exchanges_round 0x3333333333333333#64 h1 (by decide) (by decide) (by decide) (by decide +kernel)
  have h4 := exchanges_round 0x0F0F0F0F0F0F0F0F#64 h2 (by decide) (by decide) (by decide) (by decide +kernel)
  have h8 := exchanges_round 0x00FF00FF00FF00FF#64 h4 (by decide) (by decide) (by decide) (by decide +kernel)
  have h16 := exchanges_round 0x0000FFFF0000FFFF#64 h8 (by decide) (by decide) (by decide)
    (by decide +kernel)
  have h32 := exchanges_round 0x00000000FFFFFFFF#64 h16 (by decide) (by decide) (by decide)
    (by decide +kernel)
  have h64 := exchanges_round (~~~0) h32 (by decide) (by decide) (by decide) (by decide +kernel)
  exact h64

theorem rev_eq_reverse (v : BitVec 64) : rev v = v.reverse := by
  apply BitVec.eq_of_getLsbD_eq
  intro i hi
  have hback : ∀ i < 64, i ^^^ 63 = 64 - 1 - i := by decide
  rw [rev, exchanges_all v i hi, hback i hi, BitVec.getLsbD_reverse, BitVec.getMsbD_eq_getLsbD,
    decide_eq_true hi, Bool.true_and]

/-! ## What one call emits -/

/-- A table of a known size. -/
structure Sized (hash : κ → ℕ) (ht : Dictht κ ν) (k : ℕ) : Prop where
  wf : HtWf hash ht
  size_eq : ht.size = 2 ^ k
  le : k ≤ 31

namespace Sized

theorem mask_eq (h : Sized hash ht k) : BitVec.ofNat 64 ht.sizemask = lowMask 64 k := by
  rw [h.wf.mask_eq, h.size_eq, lowMask]

theorem indexOf_eq (h : Sized hash ht k) (key : κ) : indexOf hash ht key = hash key % 2 ^ k := by
  rw [indexOf, h.wf.mask_eq, h.size_eq, Nat.and_two_pow_sub_one_eq_mod]

/-- The bucket at a cursor has the entries of its residue. -/
theorem emit (h : Sized hash ht k) (v : BitVec 64) :
    ∃ de, emit ht v = some de ∧
      ∀ e, e ∈ de ↔ e ∈ ht.table.flatten ∧ hash e.1 % 2 ^ k = v.toNat % 2 ^ k := by
  have hle := h.le
  have hindex : (v &&& BitVec.ofNat 64 ht.sizemask).toNat = v.toNat % 2 ^ k := by
    rw [h.mask_eq, toNat_and_lowMask (by omega)]
  have hlt : v.toNat % 2 ^ k < ht.table.length := by
    rw [h.wf.length_eq, h.size_eq]
    exact Nat.mod_lt _ (Nat.two_pow_pos k)
  have hget := List.getElem?_eq_getElem hlt
  refine ⟨_, by rw [Dict.emit, hindex, hget], fun e ↦ ?_⟩
  rw [h.wf.placed.mem_bucket_iff hget, h.indexOf_eq]

end Sized

theorem exists_sized (h : HtWf hash ht) (hsize : ht.size ≠ 0) : ∃ k, Sized hash ht k := by
  obtain ⟨k, -, hk, hpow⟩ := h.isSize hsize
  exact ⟨k, h, hpow, hk⟩

theorem succ_mod_cases (a : ℕ) {n : ℕ} (hn : 0 < n) :
    (a % n = n - 1 ∧ (a + 1) % n = 0) ∨ (a % n + 1 < n ∧ (a + 1) % n = a % n + 1) := by
  have hlt := Nat.mod_lt a hn
  have hsucc : (a + 1) % n = (a % n + 1) % n := (Nat.mod_add_mod a n 1).symm
  by_cases hmore : a % n + 1 < n
  · exact .inr ⟨hmore, by rw [hsucc, Nat.mod_eq_of_lt hmore]⟩
  · have hlast : a % n + 1 = n := by omega
    exact .inl ⟨by omega, by rw [hsucc, hlast, Nat.mod_self]⟩

/-- The loop emits the expansions of the residue from the cursor upwards. -/
theorem scanLoop_spec {t1 : Dictht κ ν} (h : Sized hash t1 l) (hkl : k ≤ l) (turns : ℕ) (v : BitVec 64)
    (hturns : 2 ^ (l - k) ≤ v.toNat / 2 ^ k % 2 ^ (l - k) + turns) :
    ∃ es v', scanLoop t1 (lowMask 64 k) (lowMask 64 l) v turns = some (es, v') ∧
      v'.toNat % 2 ^ k = v.toNat % 2 ^ k ∧
      ∀ e, e ∈ es ↔ e ∈ t1.table.flatten ∧ hash e.1 % 2 ^ k = v.toNat % 2 ^ k ∧
        v.toNat / 2 ^ k % 2 ^ (l - k) ≤ hash e.1 / 2 ^ k % 2 ^ (l - k) := by
  have hl := h.le
  have hpos : 0 < 2 ^ (l - k) := Nat.two_pow_pos _
  have hlow : ∀ n, n % 2 ^ k < 2 ^ k := fun n ↦ Nat.mod_lt n (Nat.two_pow_pos k)
  have hsplit : ∀ n, n % 2 ^ l = n % 2 ^ k + 2 ^ k * (n / 2 ^ k % 2 ^ (l - k)) := by
    intro n
    rw [← Nat.mod_mul, ← Nat.pow_add, Nat.add_sub_cancel' hkl]
  induction turns generalizing v with
  | zero =>
      have hlt := Nat.mod_lt (v.toNat / 2 ^ k) hpos
      omega
  | succ turns ih =>
      obtain ⟨de, hemit, hde⟩ := h.emit v
      have hcount := toNat_countAbove (by omega : k ≤ 64) v
      generalize hv : ((((v ||| lowMask 64 k) + 1) &&& ~~~lowMask 64 k) ||| (v &&& lowMask 64 k)) = v₁ at hcount
      have hmod : v₁.toNat % 2 ^ k = v.toNat % 2 ^ k := by
        rw [hcount, Nat.mul_add_mod, Nat.mod_mod]
      have hdiv : v₁.toNat / 2 ^ k % 2 ^ (l - k) = (v.toNat / 2 ^ k + 1) % 2 ^ (l - k) := by
        rw [hcount, Nat.mul_add_div (Nat.two_pow_pos k), Nat.div_eq_of_lt (hlow _), Nat.add_zero]
        exact Nat.mod_mod_of_dvd _ (Nat.pow_dvd_pow 2 (by omega))
      -- the bucket of the cursor has the entries whose bits between the masks are those of the cursor
      have hthis : ∀ e, e ∈ de ↔ e ∈ t1.table.flatten ∧ hash e.1 % 2 ^ k = v.toNat % 2 ^ k ∧
          hash e.1 / 2 ^ k % 2 ^ (l - k) = v.toNat / 2 ^ k % 2 ^ (l - k) := by
        intro e
        rw [hde e, hsplit, hsplit]
        apply and_congr_right'
        constructor
        · intro heq
          have hres : hash e.1 % 2 ^ k = v.toNat % 2 ^ k := by
            have hmod := congrArg (· % 2 ^ k) heq
            simpa only [Nat.add_mul_mod_self_left, Nat.mod_mod] using hmod
          rw [hres] at heq
          exact ⟨hres, Nat.eq_of_mul_eq_mul_left (Nat.two_pow_pos k) (Nat.add_left_cancel heq)⟩
        · intro heq
          rw [heq.1, heq.2]
      rw [scanLoop, hemit, Option.bind_eq_bind, Option.bind_some]
      dsimp only
      rw [hv]
      have hx := fun e : κ × ν ↦ Nat.mod_lt (hash e.1 / 2 ^ k) hpos
      have hzero := and_xor_eq_zero_iff hkl (by omega) v₁
      rw [hdiv] at hzero
      rcases succ_mod_cases (v.toNat / 2 ^ k) hpos with ⟨hlast, hwrap⟩ | ⟨hmore, hsucc⟩
      · rw [if_neg (not_not_intro (hzero.mpr hwrap))]
        refine ⟨de, v₁, rfl, hmod, fun e ↦ ?_⟩
        have hlt := hx e
        rw [hthis e]
        apply and_congr_right'
        apply and_congr_right'
        omega
      · have hgo : v₁ &&& (lowMask 64 k ^^^ lowMask 64 l) ≠ 0 := by
          rw [Ne, hzero, hsucc]
          exact Nat.succ_ne_zero _
        obtain ⟨es, v', hloop, hmod', hes⟩ := ih v₁ (by rw [hdiv, hsucc]; omega)
        rw [if_pos hgo, hloop, Option.bind_eq_bind, Option.bind_some]
        refine ⟨de ++ es, v', rfl, hmod'.trans hmod, fun e ↦ ?_⟩
        rw [List.mem_append, hthis e, hes e, hmod, hdiv, hsucc, ← and_or_left, ← and_or_left]
        apply and_congr_right'
        apply and_congr_right'
        omega

/-- The size of the smaller table. -/
def smallSize (d : DictT κ ν) : ℕ := if isRehashing d then min d.ht0.size d.ht1.size else d.ht0.size

/-- The size of the larger table. -/
def largeSize (d : DictT κ ν) : ℕ := if isRehashing d then max d.ht0.size d.ht1.size else d.ht0.size

/-- The entries that have their place in the larger table. -/
def largeEntries (d : DictT κ ν) : List (κ × ν) :=
  if isRehashing d then (smallerFirst d).2.table.flatten else []

/-- What a call emits: of the residue of the cursor, all in the smaller table, and from the cursor upwards
in the larger one.  The next cursor is the next residue in the reversed order. -/
structure Scanned (hash : κ → ℕ) (d : DictT κ ν) (v : BitVec 64) (es : List (κ × ν)) (v' : BitVec 64) :
    Prop where
  mem_iff : ∀ e, e ∈ es ↔ e ∈ entries d ∧ hash e.1 % smallSize d = v.toNat % smallSize d ∧
    (e ∈ largeEntries d → v.toNat % largeSize d ≤ hash e.1 % largeSize d)
  next : ∃ k ≤ 31, smallSize d = 2 ^ k ∧ v'.reverse = (v ||| ~~~lowMask 64 k).reverse + 1

theorem smallerFirst_spec (h : Wf hash d) (hr : isRehashing d) :
    ∃ k l, Sized hash (smallerFirst d).1 k ∧ Sized hash (smallerFirst d).2 l ∧ k ≤ l ∧
      smallSize d = 2 ^ k ∧ largeSize d = 2 ^ l ∧
      (∀ e, e ∈ entries d ↔ e ∈ (smallerFirst d).1.table.flatten ∨ e ∈ (smallerFirst d).2.table.flatten) ∧
      ∀ e ∈ (smallerFirst d).1.table.flatten, e ∉ (smallerFirst d).2.table.flatten := by
  have hm := h.moving hr
  have hpow : ∀ {a b : ℕ}, 2 ^ a ≤ 2 ^ b → a ≤ b := fun hle ↦ (Nat.pow_le_pow_iff_right (by decide)).mp hle
  obtain ⟨k, hk⟩ := exists_sized h.ht0 hm.size0
  obtain ⟨l, hl⟩ := exists_sized h.ht1 hm.size1
  have hdisjoint : ∀ e ∈ d.ht0.table.flatten, e ∉ d.ht1.table.flatten :=
    (List.nodup_append'.mp (List.Nodup.of_map Prod.fst h.nodup)).2.2
  have hksize := hk.size_eq
  have hlsize := hl.size_eq
  rw [smallerFirst, smallSize, largeSize, if_pos hr, if_pos hr]
  split
  · next hgt =>
      refine ⟨l, k, hl, hk, hpow (by omega), by omega, by omega, fun e ↦ ?_, fun e h1 h0 ↦ hdisjoint e h0 h1⟩
      rw [entries, List.mem_append, or_comm]
  · next hle =>
      exact ⟨k, l, hk, hl, hpow (by omega), by omega, by omega, fun e ↦ List.mem_append, hdisjoint⟩

theorem nextCursor_reverse (m0 v : BitVec 64) : (nextCursor m0 v).reverse = (v ||| ~~~m0).reverse + 1 := by
  rw [nextCursor, rev_eq_reverse, rev_eq_reverse, BitVec.reverse_reverse_eq]

/-- Exactly what one call of `dictScan` emits. -/
theorem dictScan_spec (h : Wf hash d) (hsize : dictSize d ≠ 0) (v : BitVec 64) :
    ∃ es v', dictScan d v = some (es, v') ∧ Scanned hash d v es v' := by
  rw [dictScan, if_neg hsize]
  by_cases hr : isRehashing d
  · obtain ⟨k, l, hk, hl, hkl, hsmall, hlarge, hentries, hdisjoint⟩ := smallerFirst_spec h hr
    have hk31 := hk.le
    have hl31 := hl.le
    obtain ⟨de, hemit, hde⟩ := hk.emit v
    obtain ⟨rest, v₁, hloop, hmod, hrest⟩ := scanLoop_spec hl hkl (smallerFirst d).2.size v (by
      rw [hl.size_eq]
      exact le_trans (Nat.pow_le_pow_right (by decide) (Nat.sub_le l k)) (Nat.le_add_left _ _))
    rw [if_neg (not_not_intro hr)]
    dsimp only
    rw [hemit, Option.bind_eq_bind, Option.bind_some, hk.mask_eq, hl.mask_eq, hloop]
    refine ⟨de ++ rest, _, rfl, ⟨fun e ↦ ?_, k, hk31, hsmall, ?_⟩⟩
    · have hsplit : ∀ n, n % 2 ^ l = n % 2 ^ k + 2 ^ k * (n / 2 ^ k % 2 ^ (l - k)) := by
        intro n
        rw [← Nat.mod_mul, ← Nat.pow_add, Nat.add_sub_cancel' hkl]
      have hupwards : hash e.1 % 2 ^ k = v.toNat % 2 ^ k → (v.toNat % 2 ^ l ≤ hash e.1 % 2 ^ l ↔
          v.toNat / 2 ^ k % 2 ^ (l - k) ≤ hash e.1 / 2 ^ k % 2 ^ (l - k)) := by
        intro heq
        rw [hsplit, hsplit (hash e.1), heq, Nat.add_le_add_iff_left,
          Nat.mul_le_mul_left_iff (Nat.two_pow_pos k)]
      rw [List.mem_append, hde e, hrest e, hentries e, hsmall, hlarge, largeEntries, if_pos hr]
      constructor
      · intro hmem
        rcases hmem with ⟨h0, hres⟩ | ⟨h1, hres, hup⟩
        · exact ⟨.inl h0, hres, fun h1 ↦ absurd h1 (hdisjoint e h0)⟩
        · exact ⟨.inr h1, hres, fun _ ↦ (hupwards hres).mpr hup⟩
      · intro hmem
        obtain ⟨h0 | h1, hres, hup⟩ := hmem
        · exact .inl ⟨h0, hres⟩
        · exact .inr ⟨h1, hres, (hupwards hres).mp (hup h1)⟩
    · rw [nextCursor_reverse, fill_eq_of_mod_eq hmod]
  · have hsize0 : d.ht0.size ≠ 0 := by
      intro hzero
      rw [h.size_eq, h.reset_entries hr] at hsize
      apply hsize
      have hnil : d.ht0.table = [] := by rw [← List.length_eq_zero_iff, h.ht0.length_eq, hzero]
      rw [hnil]
      rfl
    obtain ⟨k, hk⟩ := exists_sized h.ht0 hsize0
    obtain ⟨de, hemit, hde⟩ := hk.emit v
    rw [if_pos hr]
    dsimp only
    rw [hemit, Option.bind_eq_bind, Option.bind_some, hk.mask_eq]
    refine ⟨de, _, rfl, ⟨fun e ↦ ?_, k, hk.le, by rw [smallSize, if_neg hr, hk.size_eq],
      nextCursor_reverse _ v⟩⟩
    rw [hde e, h.reset_entries hr, smallSize, if_neg hr, hk.size_eq, largeEntries, if_neg hr]
    simp

end CPractice.Dict
