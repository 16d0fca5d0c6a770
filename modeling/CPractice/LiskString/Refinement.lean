import CPractice.LiskString.Model
import Mathlib.Data.List.TakeWhile

/-!
# The text of a string object

A string object holds its text, zero bytes included, with a terminator behind it, and each operation
does to the text what it says: splice in, replace, clear, truncate.  Only `lisk_string_reverse` looks at
the text as a C string and reverses what is in front of the first zero byte; and `lisk_string_init`
rounds a size above `2 ^ 31` to zero.
-/

namespace CPractice.LiskString

open Memory PowerOfTwo

/-- The object holds the text. -/
structure Holds (s : Bytes) (str : Text) : Prop where
  length : str.length = s.length
  capacity_lt : str.capacity < 4294967296
  data : ∃ rest, str.data = some (s ++ 0 :: rest) ∧ (s ++ 0 :: rest).length = str.capacity

section Operations

variable {s buf : Bytes} {str : Text} {fill : ℕ → UInt8}

theorem Holds.length_lt (h : Holds s str) : s.length < str.capacity := by
  rcases h.data with ⟨rest, -, hcapacity⟩
  rw [List.length_append, List.length_cons] at hcapacity
  omega

/-- A zero byte behind the bytes in front. -/
theorem terminate_eq (a c : Bytes) (x : UInt8) :
    terminate (some (a ++ x :: c)) a.length = some (some (a ++ 0 :: c)) := by
  have hinside : a.length < (a ++ x :: c).length := by
    rw [List.length_append, List.length_cons]
    omega
  rw [terminate, Option.bind_eq_bind, Option.bind_some, if_pos hinside,
    List.set_append_right _ _ (le_refl _), Nat.sub_self, List.set_cons_zero]

/-! ## Making room -/

/-- `lisk_string_realloc` keeps the text that fits in front of a terminator. -/
theorem strRealloc_spec (h : Holds s str) {size : ℕ} (hpos : 0 < size) (hlt : size < 4294967296)
    (fill : ℕ → UInt8) :
    ∃ str', strRealloc str size (some fill) = some (0, str') ∧ Holds (s.take (size - 1)) str' ∧
      str'.capacity = size := by
  have hcapacity := h.length_lt
  rcases h.data with ⟨rest, hdata, -⟩
  rcases realloc_some (s ++ 0 :: rest) size fill with ⟨fresh, hrealloc⟩
  have hlength := length_realloc hrealloc
  rw [strRealloc, if_neg (by omega), if_neg (by omega), hdata]
  simp only [hrealloc]
  by_cases hshort : size ≤ str.length
  · rw [h.length] at hshort
    obtain ⟨x, hx⟩ : ∃ x, s.take size = s.take (size - 1) ++ [x] := by
      have hlast : size - 1 < s.length := by omega
      refine ⟨s[size - 1], ?_⟩
      rw [List.take_append_getElem, show size - 1 + 1 = size by omega]
    have htake : (s ++ 0 :: rest).take size ++ fresh = s.take (size - 1) ++ x :: fresh := by
      rw [List.take_append_of_le_length hshort, hx, List.append_assoc, List.singleton_append]
    have hfront : (s.take (size - 1)).length = size - 1 := by
      rw [List.length_take]
      omega
    have hterm := terminate_eq (s.take (size - 1)) fresh x
    rw [hfront] at hterm
    refine ⟨⟨size, size - 1, some (s.take (size - 1) ++ 0 :: fresh)⟩, ?_,
      ⟨hfront.symm, hlt, fresh, rfl, ?_⟩, rfl⟩
    · rw [if_pos (h.length ▸ hshort), u4Sub_of_le (by omega) hlt, htake, hterm]
      rfl
    · rw [htake, List.length_append, List.length_cons] at hlength
      rw [List.length_append, List.length_cons]
      exact hlength
  · rw [h.length] at hshort
    have hkeep : s.take (size - 1) = s := List.take_of_length_le (by omega)
    have htake : (s ++ 0 :: rest).take size ++ fresh =
        s ++ 0 :: (rest.take (size - s.length - 1) ++ fresh) := by
      rw [List.take_append, List.take_of_length_le (by omega),
        show size - s.length = (size - s.length - 1) + 1 by omega, List.take_succ_cons]
      simp
    refine ⟨⟨size, str.length, some ((s ++ 0 :: rest).take size ++ fresh)⟩, ?_, ?_, rfl⟩
    · rw [if_neg (h.length ▸ hshort)]
    · rw [hkeep]
      exact ⟨h.length, hlt, _, congrArg some htake, htake ▸ hlength⟩

/-- `lisk_string_insert` first makes room. -/
theorem grow_spec (h : Holds s str) {size : ℕ} (hle : s.length + size + 1 ≤ 2147483648)
    (fill : ℕ → UInt8) :
    ∃ str', grow str (u4 (u4 (str.length + size) + 1)) (some fill) = some (0, str') ∧ Holds s str' ∧
      s.length + size + 1 ≤ str'.capacity := by
  have hsum : u4 (u4 (str.length + size) + 1) = s.length + size + 1 := by
    rw [h.length, u4_of_lt (show s.length + size < 4294967296 by omega), u4_of_lt (by omega)]
  rw [grow, hsum]
  by_cases hroom : str.capacity < s.length + size + 1
  · have hnext := nextPowOf2_le (show 0 < s.length + size + 1 by omega) hle
    rcases nextPowOf2_spec (show 0 < s.length + size + 1 by omega) (by omega) with ⟨-, hbound, -⟩
    have hround : roundUp (s.length + size + 1) = nextPowOf2 (s.length + size + 1) :=
      roundUp_eq (by omega)
    have hpos : 0 < nextPowOf2 (s.length + size + 1) := by omega
    rcases strRealloc_spec h hpos (by omega) fill with
      ⟨str', hrealloc, hholds, hcapacity⟩
    rw [List.take_of_length_le (by omega)] at hholds
    exact ⟨str', by rw [if_pos hroom, hround, hrealloc], hholds, by omega⟩
  · exact ⟨str, if_neg hroom, h, by omega⟩

/-! ## Splicing in -/

theorem place_spec (h : Holds s str) (hbuf : 0 < buf.length) {pos : ℕ} (hpos : pos ≤ s.length)
    (hroom : s.length + buf.length + 1 ≤ str.capacity) :
    ∃ str', place str s.length pos buf buf.length = some (0, str') ∧
      Holds (s.take pos ++ buf ++ s.drop pos) str' := by
  have hlt := h.capacity_lt
  rcases h.data with ⟨rest, hdata, hcapacity⟩
  rw [List.length_append, List.length_cons] at hcapacity
  set a := s.take pos with ha
  set b := s.drop pos with hb
  have hsplit : s ++ 0 :: rest = a ++ b ++ 0 :: rest := by rw [List.take_append_drop]
  have halen : a.length = pos := by
    rw [ha, List.length_take]
    omega
  have hblen : b.length = s.length - pos := List.length_drop
  have hmoved : u4Sub s.length pos = b.length := by rw [u4Sub_of_le hpos (by omega), hblen]
  have hrest : buf.length ≤ (0 :: rest).length := by
    rw [List.length_cons]
    omega
  -- The bytes from the position on are moved up, if there are any.
  have hshift : ∃ hole, hole.length = buf.length ∧
      openGap str s.length pos buf.length =
        some (0, some (a ++ hole ++ (b ++ (0 :: rest).drop buf.length))) := by
    rw [openGap, hmoved, hdata, hsplit, ← halen]
    by_cases hinside : a.length < s.length
    · rcases cpyWithin_up (a := a) (b := b) hbuf hrest (by omega) with ⟨hole, hhole, hmove⟩
      refine ⟨hole, hhole, ?_⟩
      rw [if_pos hinside, hmove, List.append_assoc _ b]
    · have hbNil : b = [] := List.eq_nil_of_length_eq_zero (by omega)
      refine ⟨(0 :: rest).take buf.length, ?_, ?_⟩
      · rw [List.length_take]
        omega
      · rw [if_neg hinside, hbNil, List.append_nil, List.nil_append, List.append_assoc,
          List.take_append_drop]
  rcases hshift with ⟨hole, hhole, hshift⟩
  obtain ⟨x, tail, htail⟩ : ∃ x tail, (0 :: rest).drop buf.length = x :: tail := by
    apply List.exists_cons_of_ne_nil
    rw [ne_eq, List.drop_eq_nil_iff, List.length_cons]
    omega
  have htaillen := congrArg List.length htail
  rw [List.length_drop, List.length_cons, List.length_cons] at htaillen
  have hcopy := cpyInto_eq (a := a) (c := b ++ x :: tail) hbuf hhole.symm
  rw [halen] at hcopy
  have hlength : u4 (str.length + buf.length) = (a ++ buf ++ b).length := by
    rw [h.length, u4_of_lt (by omega), List.length_append, List.length_append]
    omega
  have hterm : terminate (some (a ++ buf ++ (b ++ x :: tail))) (a ++ buf ++ b).length =
      some (some (a ++ buf ++ b ++ 0 :: tail)) := by
    rw [← List.append_assoc, terminate_eq]
  refine ⟨{ str with
      length := (a ++ buf ++ b).length
      data := some (a ++ buf ++ b ++ 0 :: tail) }, ?_, ⟨rfl, hlt, tail, rfl, ?_⟩⟩
  · rw [place, hshift, htail]
    simp only [hcopy, hlength, hterm, Option.bind_eq_bind, Option.bind_some, ne_eq, not_true, if_false]
  · simp only [List.length_append, List.length_cons]
    omega

/-- `lisk_string_insert` at a position of the text. -/
theorem insert_spec (h : Holds s str) (hbuf : buf ≠ []) {pos : ℕ} (hpos : pos ≤ s.length)
    (hlt : s.length + buf.length < 2147483647) (fill : ℕ → UInt8) :
    ∃ str', insert str pos (some buf) buf.length (some fill) = some (0, str') ∧
      Holds (s.take pos ++ buf ++ s.drop pos) str' := by
  have hbuflen := List.length_pos_of_ne_nil hbuf
  rcases grow_spec h (show s.length + buf.length + 1 ≤ 2147483648 by omega) fill with ⟨grown, hgrow, hgrown, hroom⟩
  rcases place_spec hgrown hbuflen hpos hroom with ⟨str', hplace, hholds⟩
  refine ⟨str', ?_, hholds⟩
  rw [insert, if_neg (by rw [h.length]; omega), hgrow, h.length]
  exact hplace

theorem clear_spec (h : Holds s str) : ∃ str', clear str = some str' ∧ Holds [] str' := by
  rcases h.data with ⟨rest, hdata, hcapacity⟩
  obtain ⟨x, tail, htail⟩ : ∃ x tail, s ++ 0 :: rest = x :: tail :=
    List.exists_cons_of_ne_nil (by simp)
  have hterm := terminate_eq [] tail x
  rw [List.nil_append, List.nil_append, List.length_nil] at hterm
  refine ⟨{ str with length := 0, data := some (0 :: tail) }, ?_, rfl, h.capacity_lt, tail, rfl, ?_⟩
  · rw [clear, hdata, htail, hterm]
    rfl
  · rw [← hcapacity, htail]
    rfl

theorem copy_spec (h : Holds s str) (hbuf : buf ≠ []) (hlt : buf.length < 2147483647)
    (fill : ℕ → UInt8) :
    ∃ str', copy str (some buf) buf.length (some fill) = some (0, str') ∧ Holds buf str' := by
  rcases clear_spec h with ⟨cleared, hclear, hholds⟩
  rcases insert_spec hholds hbuf (Nat.zero_le _) (by simpa using hlt) fill with ⟨str', hinsert, hholds'⟩
  rcases h.data with ⟨rest, hdata, -⟩
  rw [clear, hdata, if_neg (by simp)] at hclear
  rcases Option.bind_eq_some_iff.mp hclear with ⟨data, hterm, hsome⟩
  obtain rfl := Option.some.inj hsome
  refine ⟨str', ?_, by simpa using hholds'⟩
  rw [copy, if_neg (by simpa using hbuf), hdata, hterm]
  exact hinsert

/-! ## Making a string -/

theorem init_spec {size : ℕ} (hpos : 0 < size) (hle : size ≤ 2147483648) (fill : ℕ → UInt8) :
    ∃ str, init size (some fill) = some (0, some str) ∧ Holds [] str ∧ size ≤ str.capacity := by
  rcases nextPowOf2_spec hpos (by omega) with ⟨-, hbound, -⟩
  have hnext := nextPowOf2_le hpos hle
  have hround : roundUp size = nextPowOf2 size := roundUp_eq (by omega)
  obtain ⟨x, tail, htail⟩ : ∃ x tail, (List.range (nextPowOf2 size)).map fill = x :: tail := by
    apply List.exists_cons_of_ne_nil
    rw [← List.length_pos_iff, List.length_map, List.length_range]
    omega
  have hterm := terminate_eq [] tail x
  rw [List.nil_append, List.nil_append, List.length_nil] at hterm
  have hlength := congrArg List.length htail
  rw [List.length_map, List.length_range] at hlength
  refine ⟨⟨nextPowOf2 size, 0, some (0 :: tail)⟩, ?_, ⟨rfl, by dsimp only; omega, tail, rfl, ?_⟩, hbound⟩
  · rw [init, if_neg (by omega), hround, malloc, Option.map_some, htail]
    simp only [hterm, Option.bind_eq_bind, Option.bind_some]
  · rw [List.nil_append, hlength]
    rfl

/-- A size above `2 ^ 31` is rounded to `2 ^ 32`, which is zero as a `u4`. -/
theorem init_fault {size : ℕ} (hlt : 2147483648 < size) (hsize : size < 4294967296) (fill : ℕ → UInt8) :
    init size (some fill) = none := by
  rcases nextPowOf2_spec (show 0 < size by omega) hsize with ⟨⟨k, hk⟩, hbound, htwice⟩
  have hexp : k = 32 := by
    have hlower : 31 < k := by
      by_contra hsmall
      have hpow : 2 ^ k ≤ 2 ^ 31 := Nat.pow_le_pow_right (by decide) (by omega)
      omega
    have hupper : k < 33 := by
      by_contra hlarge
      have hpow : 2 ^ 33 ≤ 2 ^ k := Nat.pow_le_pow_right (by decide) (by omega)
      omega
    omega
  have hround : roundUp size = 0 := by
    rw [roundUp]
    split
    · rw [hk, hexp]
      unfold u4
      rfl
    · rename_i hpow
      rw [nextPowOf2, if_pos (not_not.mp hpow)] at hk
      rw [hexp] at hk
      omega
  rw [init, if_neg (by omega), hround]
  rfl

theorem initCopy_spec (hbuf : buf ≠ []) (hlt : buf.length < 2147483647) (fill : ℕ → UInt8) :
    ∃ str, initCopy (some buf) buf.length (some fill) = some (0, some str) ∧ Holds buf str := by
  have hpos := List.length_pos_of_ne_nil hbuf
  have hsize : u4 (buf.length + 1) = buf.length + 1 := u4_of_lt (by omega)
  rcases init_spec (show 0 < buf.length + 1 by omega) (by omega) fill with
    ⟨str, hinit, hholds, hroom⟩
  rcases hholds.data with ⟨rest, hdata, hcapacity⟩
  rw [List.nil_append] at hdata hcapacity
  have hsplit : 0 :: rest = [] ++ (0 :: rest).take buf.length ++ (0 :: rest).drop buf.length := by
    rw [List.nil_append, List.take_append_drop]
  have htake : buf.length = ((0 :: rest).take buf.length).length := by
    rw [List.length_take]
    omega
  have hcopy := cpyInto_eq (a := []) (c := (0 :: rest).drop buf.length) hpos htake
  rw [← hsplit, List.length_nil, List.nil_append] at hcopy
  obtain ⟨x, tail, htail⟩ : ∃ x tail, (0 :: rest).drop buf.length = x :: tail := by
    apply List.exists_cons_of_ne_nil
    rw [ne_eq, List.drop_eq_nil_iff]
    omega
  rw [htail] at hcopy
  have htaillen := congrArg List.length htail
  rw [List.length_drop, List.length_cons, List.length_cons] at htaillen
  rw [List.length_cons] at hcapacity
  refine ⟨{ str with length := buf.length, data := some (buf ++ 0 :: tail) }, ?_,
    rfl, hholds.capacity_lt, tail, rfl, ?_⟩
  · simp only [initCopy, if_neg (show ¬ buf.length = 0 by omega), hsize, hinit, hdata, hcopy,
      Option.bind_eq_bind, Option.bind_some, ne_eq, not_true, if_false, terminate_eq]
  · rw [List.length_append, List.length_cons]
    dsimp only
    omega

/-! ## Reversing -/

theorem xorInto_eq {block : Bytes} {i j : ℕ} (a b : UInt8) (dst : ℕ) (hi : block[i]? = some a)
    (hj : block[j]? = some b) : xorInto block dst i j = some (block.set dst (a ^^^ b)) := by
  rw [xorInto, hi, hj]
  rfl

/-- One turn swaps two bytes. -/
theorem xorSwap_eq (front mid back : Bytes) (a b : UInt8) :
    xorSwap (front ++ a :: (mid ++ b :: back)) front.length (front.length + 1 + mid.length) =
      some (front ++ b :: (mid ++ a :: back)) := by
  have hfirst : ∀ x y : UInt8, (front ++ x :: (mid ++ y :: back))[front.length]? = some x := by simp
  have hlast : ∀ x y : UInt8,
      (front ++ x :: (mid ++ y :: back))[front.length + 1 + mid.length]? = some y := by
    intro x y
    rw [show front ++ x :: (mid ++ y :: back) = (front ++ x :: mid) ++ y :: back by simp,
      show front.length + 1 + mid.length = (front ++ x :: mid).length by
        rw [List.length_append, List.length_cons]
        omega]
    simp
  have hsetFirst : ∀ x y z : UInt8, (front ++ x :: (mid ++ y :: back)).set front.length z =
      front ++ z :: (mid ++ y :: back) := by simp
  have hsetLast : ∀ x y z : UInt8,
      (front ++ x :: (mid ++ y :: back)).set (front.length + 1 + mid.length) z =
        front ++ x :: (mid ++ z :: back) := by
    intro x y z
    rw [show front ++ x :: (mid ++ y :: back) = (front ++ x :: mid) ++ y :: back by simp,
      show front.length + 1 + mid.length = (front ++ x :: mid).length by
        rw [List.length_append, List.length_cons]
        omega]
    simp
  have hcancel : a ^^^ b ^^^ b = a := by rw [UInt8.xor_assoc, UInt8.xor_self, UInt8.xor_zero]
  have hcancel' : a ^^^ b ^^^ a = b := by
    rw [UInt8.xor_comm a b, UInt8.xor_assoc, UInt8.xor_self, UInt8.xor_zero]
  simp only [xorSwap, Option.bind_eq_bind, xorInto_eq a b _ (hfirst a b) (hlast a b), Option.bind_some, hsetFirst,
    xorInto_eq (a ^^^ b) b _ (hfirst (a ^^^ b) b) (hlast (a ^^^ b) b), hsetLast, hcancel,
    xorInto_eq (a ^^^ b) a _ (hfirst (a ^^^ b) a) (hlast (a ^^^ b) a), hcancel']

/-- The loop reverses the bytes between the two ends. -/
theorem reverseLoop_eq {turns : ℕ} (front mid back : Bytes) (hturns : mid.length < 2 * turns) :
    reverseLoop turns front.length (front.length + mid.length - 1) (front ++ mid ++ back) =
      some (front ++ mid.reverse ++ back) := by
  induction turns generalizing front mid back with
  | zero => omega
  | succ turns ih =>
      cases mid with
      | nil =>
          rw [reverseLoop, if_neg (by rw [List.length_nil]; omega)]
          rfl
      | cons a mid =>
          rcases List.eq_nil_or_concat mid with rfl | ⟨mid, b, rfl⟩
          · rw [reverseLoop, if_neg (by rw [List.length_singleton]; omega)]
            rfl
          · rw [List.concat_eq_append] at hturns ⊢
            rw [List.length_cons, List.length_append, List.length_singleton] at hturns
            have hblock : front ++ a :: (mid ++ [b]) ++ back = front ++ a :: (mid ++ b :: back) := by simp
            have hlast : front.length + (a :: (mid ++ [b])).length - 1 =
                front.length + 1 + mid.length := by
              rw [List.length_cons, List.length_append, List.length_singleton]
              omega
            have hrest := ih (front ++ [b]) mid (a :: back) (by omega)
            rw [List.length_append, List.length_singleton] at hrest
            rw [reverseLoop, hlast, hblock, if_pos (by omega), xorSwap_eq, Option.bind_eq_bind,
              Option.bind_some]
            simpa using hrest

/-- What `lisk_string_reverse` makes of a text. -/
def reversed (s : Bytes) : Bytes := (s.takeWhile (· ≠ 0)).reverse ++ s.dropWhile (· ≠ 0)

theorem reverseStr_eq (s rest : Bytes) :
    reverseStr (s ++ 0 :: rest) = some (reversed s ++ 0 :: rest) := by
  set front := s.takeWhile (· ≠ 0) with hfront
  have hcstr : (s ++ 0 :: rest).takeWhile (· ≠ 0) = front := by
    rw [List.takeWhile_append]
    split
    · rename_i hall
      have hself : front = s := (List.takeWhile_prefix _).eq_of_length hall
      rw [List.takeWhile_cons_of_neg (by simp), List.append_nil, hself]
    · rfl
  have hblock : s ++ 0 :: rest = [] ++ front ++ (s.dropWhile (· ≠ 0) ++ 0 :: rest) := by
    rw [List.nil_append, ← List.append_assoc, hfront, List.takeWhile_append_dropWhile]
  rw [reverseStr, if_neg (by simp), hcstr]
  dsimp only
  split
  · rename_i hshort
    have hsame : front.reverse = front := by
      cases hf : front with
      | nil => rfl
      | cons a back =>
          rw [hf, List.length_cons] at hshort
          rw [List.eq_nil_of_length_eq_zero (show back.length = 0 by omega)]
          rfl
    rw [reversed, ← hfront, hsame, hfront, List.takeWhile_append_dropWhile]
  · have hloop := reverseLoop_eq [] front (s.dropWhile (· ≠ 0) ++ 0 :: rest)
      (show front.length < 2 * front.length by omega)
    rw [← hblock, List.length_nil, Nat.zero_add] at hloop
    rw [hloop, reversed, List.nil_append, List.append_assoc]

theorem reverse_spec (h : Holds s str) :
    ∃ str', reverse str = some (0, str') ∧ Holds (reversed s) str' := by
  rcases h.data with ⟨rest, hdata, hcapacity⟩
  have hlt := h.length_lt
  have hlength : (reversed s).length = s.length := by
    conv_rhs => rw [← List.takeWhile_append_dropWhile (p := (· ≠ 0)) (l := s)]
    rw [reversed, List.length_append, List.length_append, List.length_reverse]
  refine ⟨{ str with data := some (reversed s ++ 0 :: rest) }, ?_, ?_, h.capacity_lt, rest, rfl, ?_⟩
  · rw [reverse, if_neg (by omega), hdata]
    dsimp only
    rw [reverseStr_eq]
    rfl
  · rw [hlength]
    exact h.length
  · rw [← hcapacity, List.length_append, List.length_append, hlength]

end Operations

end CPractice.LiskString
