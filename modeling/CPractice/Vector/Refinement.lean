import CPractice.Vector.Model
import Mathlib.Algebra.BigOperators.Group.List.Basic

/-!
# The elements of a vector

As long as no size wraps and memory is granted, a vector holds its elements one behind the other at the
front of its block, and each operation does to them what it says: splice in, splice out, reverse,
truncate.
-/

namespace CPractice.Vector

open Memory PowerOfTwo

/-! ## Elements of one length -/

section Elements

variable {len : ℕ} {xs ys : List Bytes}

/-- All elements have the length. -/
def Uniform (len : ℕ) (xs : List Bytes) : Prop := ∀ x ∈ xs, x.length = len

theorem Uniform.length_flatten (h : Uniform len xs) : xs.flatten.length = xs.length * len := by
  induction xs with
  | nil => simp
  | cons x xs ih =>
      rw [List.flatten_cons, List.length_append, ih fun y hy ↦ h y (List.mem_cons_of_mem _ hy),
        h x List.mem_cons_self, List.length_cons, Nat.succ_mul, Nat.add_comm]

theorem Uniform.append (hx : Uniform len xs) (hy : Uniform len ys) : Uniform len (xs ++ ys) := by
  intro x hmem
  rcases List.mem_append.mp hmem with h | h
  · exact hx x h
  · exact hy x h

theorem Uniform.take (h : Uniform len xs) (count : ℕ) : Uniform len (xs.take count) :=
  fun x hmem ↦ h x (List.mem_of_mem_take hmem)

theorem Uniform.drop (h : Uniform len xs) (count : ℕ) : Uniform len (xs.drop count) :=
  fun x hmem ↦ h x (List.mem_of_mem_drop hmem)

theorem Uniform.reverse (h : Uniform len xs) : Uniform len xs.reverse :=
  fun x hmem ↦ h x (List.mem_reverse.mp hmem)

/-- The elements in front of a position and from it on. -/
theorem flatten_split (xs : List Bytes) (pos : ℕ) :
    xs.flatten = (xs.take pos).flatten ++ (xs.drop pos).flatten := by
  rw [← List.flatten_append, List.take_append_drop]

theorem Uniform.length_flatten_take (h : Uniform len xs) {pos : ℕ} (hpos : pos ≤ xs.length) :
    (xs.take pos).flatten.length = pos * len := by
  rw [(h.take pos).length_flatten, List.length_take, Nat.min_eq_left hpos]

theorem Uniform.length_flatten_drop (h : Uniform len xs) (pos : ℕ) :
    (xs.drop pos).flatten.length = (xs.length - pos) * len := by
  rw [(h.drop pos).length_flatten, List.length_drop]

end Elements

/-- The vector holds the elements. -/
structure Holds (len : ℕ) (xs : List Bytes) (vect : Vect) : Prop where
  length : vect.length = len
  length_pos : 0 < len
  number : vect.number = xs.length
  uniform : Uniform len xs
  capacity_pos : 0 < vect.capacity
  capacity_lt : vect.capacity < 4294967296
  data : ∃ rest, vect.data = some (xs.flatten ++ rest) ∧ (xs.flatten ++ rest).length = vect.capacity

theorem Holds.number_mul_length_le {len : ℕ} {xs : List Bytes} {vect : Vect} (h : Holds len xs vect) :
    vect.number * vect.length ≤ vect.capacity := by
  rcases h.data with ⟨rest, -, hcapacity⟩
  rw [List.length_append, h.uniform.length_flatten] at hcapacity
  rw [h.number, h.length]
  omega

/-- The bytes of no more elements than the vector has. -/
theorem Holds.bytes_le {len : ℕ} {xs : List Bytes} {vect : Vect} (h : Holds len xs vect) {count : ℕ}
    (hle : count ≤ xs.length) : count * len ≤ vect.capacity := by
  have hall := h.number_mul_length_le
  rw [h.number, h.length] at hall
  exact (Nat.mul_le_mul_right _ hle).trans hall

/-- A number of bytes within the capacity does not wrap. -/
theorem Holds.u4_bytes {len : ℕ} {xs : List Bytes} {vect : Vect} (h : Holds len xs vect) {count : ℕ}
    (hle : count * len ≤ vect.capacity) : u4 (count * vect.length) = count * len := by
  rw [h.length]
  exact u4_of_lt (hle.trans_lt h.capacity_lt)

/-! ## Making room -/

variable {len : ℕ} {xs ys : List Bytes} {vect : Vect}

/-- `lisk_vector_realloc` keeps the elements that fit. -/
theorem vectRealloc_spec (h : Holds len xs vect) {count : ℕ} (hcount : 0 < count)
    (hlt : count * len < 4294967296) (fill : ℕ → UInt8) :
    ∃ vect', vectRealloc vect count (some fill) = (0, vect') ∧ Holds len (xs.take count) vect' ∧
      vect'.capacity = count * len := by
  have hcapacity := h.capacity_pos
  have hlen := h.length_pos
  have hsize : u4 (vect.length * count) = count * len := by
    rw [h.length, Nat.mul_comm]
    exact u4_of_lt hlt
  have hpos : 0 < count * len := Nat.mul_pos hcount hlen
  rcases h.data with ⟨rest, hdata, -⟩
  rcases realloc_some (xs.flatten ++ rest) (count * len) fill with ⟨fresh, hrealloc⟩
  have hlength := length_realloc hrealloc
  have hkept : ∃ tail, (xs.flatten ++ rest).take (count * len) ++ fresh =
      (xs.take count).flatten ++ tail := by
    rw [flatten_split xs count, List.append_assoc, List.take_append, (h.uniform.take count).length_flatten]
    refine ⟨((xs.drop count).flatten ++ rest).take (count * len - (xs.take count).length * len) ++ fresh,
      ?_⟩
    rw [List.take_of_length_le, List.append_assoc]
    rw [(h.uniform.take count).length_flatten]
    exact Nat.mul_le_mul_right _ (List.length_take_le _ _)
  rcases hkept with ⟨tail, htail⟩
  refine ⟨⟨count * len, if count < vect.number then count else vect.number, vect.length,
    some ((xs.take count).flatten ++ tail)⟩, ?_, ?_, rfl⟩
  · simp only [vectRealloc, if_neg (show ¬ vect.capacity = 0 by omega),
      if_neg (show ¬ count = 0 by omega), hsize, hdata, hrealloc, htail]
  · refine ⟨h.length, hlen, ?_, h.uniform.take count, hpos, hlt, tail, rfl, ?_⟩
    · rw [List.length_take, h.number]
      dsimp only
      split <;> omega
    · rw [← htail, hlength]

/-- `lisk_vector_insert` first makes room for the elements. -/
theorem grow_spec (h : Holds len xs vect) {size : ℕ} (hsize : 0 < size)
    (hlt : (xs.length + size) * len < 2147483648) (fill : ℕ → UInt8) :
    ∃ vect', grow vect size (some fill) = (0, vect') ∧ Holds len xs vect' ∧
      (xs.length + size) * len ≤ vect'.capacity := by
  have hlen := h.length_pos
  have hcount : xs.length + size ≤ (xs.length + size) * len := Nat.le_mul_of_pos_right _ hlen
  have hsum : u4 (vect.number + size) = xs.length + size := by
    rw [h.number]
    exact u4_of_lt (by omega)
  have hbytes : u4 ((xs.length + size) * vect.length) = (xs.length + size) * len := by
    rw [h.length]
    exact u4_of_lt (by omega)
  rw [grow, hsum, hbytes]
  by_cases hroom : vect.capacity < (xs.length + size) * len
  · rcases nextPowOf2_spec (show 0 < xs.length + size by omega) (by omega) with ⟨-, hle, htwice⟩
    have hround : roundUp (xs.length + size) = nextPowOf2 (xs.length + size) :=
      roundUp_eq (by omega)
    have hbound : nextPowOf2 (xs.length + size) * len < 4294967296 := by
      have hmul : nextPowOf2 (xs.length + size) * len ≤ 2 * (xs.length + size) * len :=
        Nat.mul_le_mul_right _ (by omega)
      rw [Nat.mul_assoc] at hmul
      omega
    rcases vectRealloc_spec h (show 0 < nextPowOf2 (xs.length + size) by omega) hbound fill with
      ⟨vect', hrealloc, hholds, hcapacity⟩
    rw [List.take_of_length_le (by omega)] at hholds
    refine ⟨vect', ?_, hholds, ?_⟩
    · rw [if_pos hroom, hround, hrealloc]
    · rw [hcapacity]
      exact Nat.mul_le_mul_right _ hle
  · exact ⟨vect, if_neg hroom, h, Nat.not_lt.mp hroom⟩

/-! ## Splicing in -/

theorem place_spec (h : Holds len xs vect) (hys : Uniform len ys) (hne : ys ≠ []) {pos : ℕ}
    (hpos : pos ≤ xs.length) (hroom : (xs.length + ys.length) * len ≤ vect.capacity) :
    ∃ vect', place vect pos (some ys.flatten) ys.length = some (0, vect') ∧
      Holds len (xs.take pos ++ ys ++ xs.drop pos) vect' := by
  have hlen := h.length_pos
  have hlt := h.capacity_lt
  have hyslen := List.length_pos_of_ne_nil hne
  have hcount : xs.length + ys.length ≤ xs.length * len + ys.length * len :=
    Nat.add_le_add (Nat.le_mul_of_pos_right _ hlen) (Nat.le_mul_of_pos_right _ hlen)
  rw [Nat.add_mul] at hroom
  rcases h.data with ⟨rest, hdata, hcapacity⟩
  set a := (xs.take pos).flatten with ha
  set b := (xs.drop pos).flatten with hb
  have halen : a.length = pos * len := h.uniform.length_flatten_take hpos
  have hblen : b.length = (xs.length - pos) * len := h.uniform.length_flatten_drop pos
  have hflat : ys.flatten.length = ys.length * len := hys.length_flatten
  have hflatPos : 0 < ys.flatten.length := by
    rw [hflat]
    exact Nat.mul_pos hyslen hlen
  have hsplit : xs.flatten ++ rest = a ++ b ++ rest := by rw [flatten_split xs pos]
  have hrest : ys.flatten.length ≤ rest.length := by
    rw [hflat]
    rw [List.length_append, h.uniform.length_flatten] at hcapacity
    omega
  have hcursor : u4 (pos * vect.length) = a.length := by
    rw [h.u4_bytes (h.bytes_le hpos), halen]
  have hbytes : u4 (ys.length * vect.length) = ys.flatten.length := by
    rw [h.u4_bytes (by omega), hflat]
  have hmoved : u4 (u4Sub vect.number pos * vect.length) = b.length := by
    rw [h.number, u4Sub_of_le hpos (by omega), h.u4_bytes (h.bytes_le (Nat.sub_le _ _)), hblen]
  have hnumber : u4 (vect.number + ys.length) = xs.length + ys.length := by
    rw [h.number]
    exact u4_of_lt (by omega)
  -- The bytes from the position on are moved up, if there are any.
  have hshift : ∃ hole, hole.length = ys.flatten.length ∧
      openGap vect pos ys.length =
        some (0, some (a ++ hole ++ (b ++ rest.drop ys.flatten.length))) := by
    rw [openGap, hcursor, hbytes, hmoved, hdata, hsplit]
    by_cases hinside : pos < vect.number
    · have hbPos : 0 < b.length := by
        rw [hblen]
        exact Nat.mul_pos (by have hnum := h.number; omega) hlen
      rcases cpyWithin_up (a := a) hflatPos hrest hbPos with ⟨hole, hhole, hmove⟩
      refine ⟨hole, hhole, ?_⟩
      rw [if_pos hinside, hmove, List.append_assoc _ b]
    · have hbNil : b = [] := by
        rw [hb, List.drop_of_length_le (by have hnum := h.number; omega), List.flatten_nil]
      refine ⟨rest.take ys.flatten.length, ?_, ?_⟩
      · rw [List.length_take]
        omega
      · rw [if_neg hinside, hbNil, List.append_nil, List.nil_append, List.append_assoc,
          List.take_append_drop]
  rcases hshift with ⟨hole, hhole, hshift⟩
  refine ⟨{ vect with
      data := some (a ++ ys.flatten ++ (b ++ rest.drop ys.flatten.length))
      number := xs.length + ys.length }, ?_, ?_⟩
  · rw [place, hshift]
    simp only [copyArray, hcursor, hbytes, cpyInto_eq hflatPos hhole.symm, hnumber,
      Option.bind_eq_bind, Option.bind_some, ne_eq, not_true, if_false]
  · refine ⟨h.length, hlen, ?_, ((h.uniform.take pos).append hys).append (h.uniform.drop pos),
      h.capacity_pos, hlt, rest.drop ys.flatten.length, ?_, ?_⟩
    · simp only [List.length_append, List.length_take, List.length_drop]
      omega
    · simp only [List.flatten_append, ← ha, ← hb, List.append_assoc]
    · rw [← hcapacity, hsplit]
      simp only [List.flatten_append, ← ha, ← hb, List.length_append, List.length_drop]
      omega

/-- `lisk_vector_insert` at a position of the list. -/
theorem insert_spec (h : Holds len xs vect) (hys : Uniform len ys) (hne : ys ≠ []) {pos : ℕ}
    (hpos : pos ≤ xs.length) (hlt : (xs.length + ys.length) * len < 2147483648) (fill : ℕ → UInt8) :
    ∃ vect', insert vect pos (some ys.flatten) ys.length (some fill) = some (0, vect') ∧
      Holds len (xs.take pos ++ ys ++ xs.drop pos) vect' := by
  have hyslen := List.length_pos_of_ne_nil hne
  rcases grow_spec h hyslen hlt fill with ⟨grown, hgrow, hgrown, hroom⟩
  rcases place_spec hgrown hys hne hpos hroom with ⟨vect', hplace, hholds⟩
  refine ⟨vect', ?_, hholds⟩
  rw [insert, if_neg (by have hnum := h.number; omega), hgrow]
  exact hplace

/-! ## Splicing out -/

theorem erase_spec (h : Holds len xs vect) {pos count : ℕ} (hcount : 0 < count)
    (hpos : pos + count ≤ xs.length) :
    ∃ vect', erase vect pos count =
        some (if pos + count < xs.length then some (pos * len) else none, vect') ∧
      Holds len (xs.take pos ++ xs.drop (pos + count)) vect' := by
  have hlen := h.length_pos
  have hlt := h.capacity_lt
  have hnum := h.number
  rcases h.data with ⟨rest, hdata, hcapacity⟩
  have hxs : xs.length ≤ xs.length * len := Nat.le_mul_of_pos_right _ hlen
  have hle : xs.length * len ≤ vect.capacity := h.bytes_le le_rfl
  set a := (xs.take pos).flatten with ha
  set e := ((xs.drop pos).take count).flatten with he
  set b := (xs.drop (pos + count)).flatten with hb
  have halen : a.length = pos * len := h.uniform.length_flatten_take (by omega)
  have helen : e.length = count * len := by
    refine (h.uniform.drop pos).length_flatten_take ?_
    rw [List.length_drop]
    omega
  have hblen : b.length = (xs.length - (pos + count)) * len := h.uniform.length_flatten_drop _
  have hsplit : xs.flatten ++ rest = a ++ (e ++ b ++ rest) := by
    rw [flatten_split xs pos, flatten_split (xs.drop pos) count, List.drop_drop, ← ha, ← he, ← hb]
    simp only [List.append_assoc]
  have hsum : u4 (pos + count) = pos + count := u4_of_lt (by omega)
  have hcursor : u4 (pos * vect.length) = a.length := by
    rw [h.u4_bytes (h.bytes_le (by omega)), halen]
  have hbytes : u4 (count * vect.length) = e.length := by
    rw [h.u4_bytes (h.bytes_le (by omega)), helen]
  have hmoved : u4 (u4Sub vect.number (pos + count) * vect.length) = b.length := by
    rw [hnum, u4Sub_of_le hpos (by omega), h.u4_bytes (h.bytes_le (Nat.sub_le _ _)), hblen]
  have hnumber : u4Sub vect.number count = xs.length - count := by
    rw [hnum, u4Sub_of_le (by omega) (by omega)]
  have hbuf : u4 (vect.number * vect.length) ≠ 0 := by
    rw [hnum, h.length, u4_of_lt (by omega)]
    omega
  have hresult : (xs.take pos ++ xs.drop (pos + count)).flatten = a ++ b := by
    rw [List.flatten_append]
  have hlength : (xs.take pos ++ xs.drop (pos + count)).length = xs.length - count := by
    rw [List.length_append, List.length_take, List.length_drop]
    omega
  have huniform := (h.uniform.take pos).append (h.uniform.drop (pos + count))
  rw [erase, if_neg (by omega), if_neg (by omega), hsum, if_neg (by omega)]
  simp only [hmoved, hcursor, hbytes, hnumber]
  by_cases hbPos : 0 < b.length
  · have hePos : 0 < e.length := by
      rw [helen]
      exact Nat.mul_pos hcount hlen
    rcases cpyWithin_down (a := a) (c := rest) hePos hbPos with ⟨tail, htail, hmove⟩
    have hbehind : pos + count < xs.length := by
      by_contra hnot
      rw [hblen, Nat.sub_eq_zero_of_le (by omega), Nat.zero_mul] at hbPos
      omega
    rw [hdata, hsplit, if_pos hbPos, hmove, if_pos hbehind, ← halen]
    refine ⟨⟨vect.capacity, xs.length - count, vect.length, some (a ++ (b ++ tail))⟩, rfl,
      h.length, hlen, hlength.symm, huniform, h.capacity_pos, hlt, tail, ?_, ?_⟩
    · rw [hresult, List.append_assoc]
    · rw [hresult, List.append_assoc, List.length_append, htail, ← List.length_append, ← hsplit,
        hcapacity]
  · have hbNil : b = [] := List.eq_nil_of_length_eq_zero (by omega)
    have hbehind : ¬ pos + count < xs.length := by
      intro hbehind
      rw [hblen] at hbPos
      exact hbPos (Nat.mul_pos (by omega) hlen)
    rw [if_neg hbPos, if_neg hbehind]
    refine ⟨⟨vect.capacity, xs.length - count, vect.length, vect.data⟩, rfl, h.length, hlen,
      hlength.symm, huniform, h.capacity_pos, hlt, e ++ rest, ?_, ?_⟩
    · rw [hresult, hdata, hsplit, hbNil]
      simp only [List.append_nil]
    · rw [hresult, ← hcapacity, hsplit, hbNil]
      simp only [List.append_nil]

/-! ## Reversing -/

section Swaps

variable {zs : List Bytes} {rest x : Bytes} {i j : ℕ}

/-- The block around one element. -/
theorem flatten_around (hx : zs[i]? = some x) :
    zs.flatten ++ rest =
      (zs.take i).flatten ++ x ++ ((zs.drop (i + 1)).flatten ++ rest) := by
  rcases List.getElem?_eq_some_iff.mp hx with ⟨hlt, rfl⟩
  rw [flatten_split zs i, List.drop_eq_getElem_cons hlt, List.flatten_cons]
  simp only [List.append_assoc]

theorem drop_take_element (rest : Bytes) (h : Uniform len zs) (hx : zs[i]? = some x) :
    ((zs.flatten ++ rest).drop (i * len)).take len = x ∧ i * len + len ≤ (zs.flatten ++ rest).length := by
  rcases List.getElem?_eq_some_iff.mp hx with ⟨hlt, -⟩
  have hxlen : x.length = len := h x (List.mem_of_getElem? hx)
  have hfront : (zs.take i).flatten.length = i * len := by
    rw [(h.take i).length_flatten, List.length_take, Nat.min_eq_left hlt.le]
  rw [flatten_around hx, ← hfront]
  constructor
  · rw [List.append_assoc, List.drop_left, ← hxlen, List.take_left]
  · simp only [List.length_append]
    omega

theorem moveInto_element {new : Bytes} (h : Uniform len zs) (hi : i < zs.length) (hnew : new.length = len) :
    moveInto (zs.flatten ++ rest) (i * len) new len = some ((zs.set i new).flatten ++ rest) := by
  have hx := List.getElem?_eq_getElem hi
  have hxlen : (zs[i]).length = len := h _ (List.getElem_mem hi)
  have hfront : (zs.take i).flatten.length = i * len := by
    rw [(h.take i).length_flatten, List.length_take, Nat.min_eq_left hi.le]
  have hset : (zs.set i new).flatten ++ rest =
      (zs.take i).flatten ++ new ++ ((zs.drop (i + 1)).flatten ++ rest) := by
    rw [List.set_eq_take_append_cons_drop, if_pos hi, List.flatten_append, List.flatten_cons]
    simp only [List.append_assoc]
  have hwrite : moveInto ((zs.take i).flatten ++ zs[i] ++ ((zs.drop (i + 1)).flatten ++ rest))
      (zs.take i).flatten.length new new.length = _ := moveInto_eq (hnew.trans hxlen.symm)
  rw [flatten_around hx, hset, ← hwrite, hfront, hnew]

/-- The three copies of one turn swap two elements. -/
theorem swap_copies {y : Bytes} {tempSize : ℕ} (rest temp : Bytes) (h : Uniform len zs) (hlen : 0 < len)
    (htemp : len ≤ tempSize) (hij : i < j) (hx : zs[i]? = some x) (hy : zs[j]? = some y) :
    cpyOut (some (zs.flatten ++ rest)) (i * len) len tempSize temp = some x ∧
    cpyWithin (some (zs.flatten ++ rest)) (i * len) (j * len) len =
      some (0, some ((zs.set i y).flatten ++ rest)) ∧
    cpyInto (some ((zs.set i y).flatten ++ rest)) (j * len) x len =
      some (0, some (((zs.set i y).set j x).flatten ++ rest)) := by
  have hi := (List.getElem?_eq_some_iff.mp hx).1
  have hj := (List.getElem?_eq_some_iff.mp hy).1
  have hylen : y.length = len := h y (List.mem_of_getElem? hy)
  have hxlen : x.length = len := h x (List.mem_of_getElem? hx)
  have huniform : Uniform len (zs.set i y) := by
    intro z hz
    rcases List.mem_or_eq_of_mem_set hz with hmem | rfl
    · exact h z hmem
    · exact hylen
  rcases drop_take_element rest h hx with ⟨hreadX, hboundX⟩
  rcases drop_take_element rest h hy with ⟨hreadY, hboundY⟩
  refine ⟨?_, ?_, ?_⟩
  · rw [cpyOut, if_neg (by omega), Option.bind_eq_bind, Option.bind_some, if_pos ⟨hboundX, htemp⟩, hreadX]
  · have hne : i * len ≠ j * len := fun heq ↦ by
      have hmul : i = j := Nat.eq_of_mul_eq_mul_right hlen heq
      omega
    have hmove : moveWithin (zs.flatten ++ rest) (i * len) (j * len) len =
        moveInto (zs.flatten ++ rest) (i * len) y len := by
      rw [moveWithin, if_pos ⟨hboundX, hboundY⟩, moveInto, if_pos ⟨hboundX, hylen.ge⟩, hreadY,
        List.take_of_length_le hylen.le]
    rw [cpyWithin, if_neg (by omega), if_pos hne, Option.bind_eq_bind, Option.bind_some, hmove,
      moveInto_element h hi hylen]
    rfl
  · have hj' : j < (zs.set i y).length := by rwa [List.length_set]
    rw [cpyInto, if_neg (by omega), Option.bind_eq_bind, Option.bind_some,
      moveInto_element huniform hj' hxlen]
    rfl

end Swaps

/-- The elements outside of the two positions are where they belong, the others have not moved. -/
structure HalfReversed (xs zs : List Bytes) (lf rg : ℕ) : Prop where
  length : zs.length = xs.length
  sum : lf + rg + 1 = xs.length
  le : lf ≤ rg + 1
  outside : ∀ i < xs.length, i < lf ∨ rg < i → zs[i]? = xs[xs.length - 1 - i]?
  inside : ∀ i, lf ≤ i → i ≤ rg → zs[i]? = xs[i]?

theorem HalfReversed.swap {zs : List Bytes} {lf rg : ℕ} {x y : Bytes} (h : HalfReversed xs zs lf rg)
    (hlt : lf < rg) (hx : zs[lf]? = some x) (hy : zs[rg]? = some y) :
    HalfReversed xs ((zs.set lf y).set rg x) (lf + 1) (rg - 1) := by
  have hsum := h.sum
  have hlen := h.length
  have hxs := h.inside lf (le_refl _) hlt.le
  have hys := h.inside rg hlt.le (le_refl _)
  refine ⟨by simp only [List.length_set, h.length], by omega, by omega, ?_, ?_⟩
  · intro i hi hout
    rw [List.getElem?_set, List.length_set]
    split
    · rename_i heq
      rw [if_pos (by omega), ← hx, hxs, show xs.length - 1 - i = lf by omega]
    · rename_i hne
      rw [List.getElem?_set]
      split
      · rename_i heq
        rw [if_pos (by omega), ← hy, hys, show xs.length - 1 - i = rg by omega]
      · exact h.outside i hi (by omega)
  · intro i hle hge
    rw [List.getElem?_set_ne (by omega), List.getElem?_set_ne (by omega)]
    exact h.inside i (by omega) (by omega)

theorem HalfReversed.eq_reverse {zs : List Bytes} {lf rg : ℕ} (h : HalfReversed xs zs lf rg)
    (hge : rg ≤ lf) : zs = xs.reverse := by
  have hsum := h.sum
  have hle := h.le
  apply List.ext_getElem?
  intro i
  by_cases hi : i < xs.length
  · rw [List.getElem?_reverse hi]
    by_cases hout : i < lf ∨ rg < i
    · exact h.outside i hi hout
    · rw [h.inside i (by omega) (by omega), show xs.length - 1 - i = i by omega]
  · rw [List.getElem?_eq_none (by rw [h.length]; omega),
      List.getElem?_eq_none (by rw [List.length_reverse]; omega)]

theorem reverseLoop_spec {zs : List Bytes} {rest temp : Bytes} {tempSize turns lf rg : ℕ}
    (hlen : 0 < len) (htemp : len ≤ tempSize) (hlt : xs.length * len < 4294967296)
    (h : HalfReversed xs zs lf rg) (huniform : Uniform len zs)
    (hturns : rg + 1 < lf + turns) :
    reverseLoop len tempSize turns lf rg temp (some (zs.flatten ++ rest)) =
      some (some (xs.reverse.flatten ++ rest)) := by
  induction turns generalizing zs temp lf rg with
  | zero =>
      have hle := h.le
      omega
  | succ turns ih =>
      have hsum := h.sum
      have hzs := h.length
      rw [reverseLoop]
      by_cases hmore : lf < rg
      · have hcount : xs.length ≤ xs.length * len := Nat.le_mul_of_pos_right _ hlen
        have hlf : u4 (lf * len) = lf * len := by
          have hmul : lf * len ≤ xs.length * len := Nat.mul_le_mul_right _ (by omega)
          exact u4_of_lt (by omega)
        have hrg : u4 (rg * len) = rg * len := by
          have hmul : rg * len ≤ xs.length * len := Nat.mul_le_mul_right _ (by omega)
          exact u4_of_lt (by omega)
        have hx := List.getElem?_eq_getElem (show lf < zs.length by omega)
        have hy := List.getElem?_eq_getElem (show rg < zs.length by omega)
        rcases swap_copies rest temp huniform hlen htemp hmore hx hy with
          ⟨hout, hwithin, hinto⟩
        rw [if_pos hmore, hlf, hrg]
        simp only [hout, hwithin, hinto, Option.bind_eq_bind, Option.bind_some]
        rw [u4_of_lt (by omega), u4Sub_of_le (by omega) (by omega)]
        apply ih (h.swap hmore hx hy)
        · intro z hz
          rcases List.mem_or_eq_of_mem_set hz with hmem | rfl
          · rcases List.mem_or_eq_of_mem_set hmem with hmem | rfl
            · exact huniform z hmem
            · exact huniform _ (List.getElem_mem _)
          · exact huniform _ (List.getElem_mem _)
        · omega
      · rw [if_neg hmore, h.eq_reverse (by omega)]

/-- `lisk_vector_reverse` of a list that is not empty. -/
theorem reverse_spec (h : Holds len xs vect) (hne : xs ≠ []) (fill : ℕ → UInt8) :
    ∃ vect', reverse vect (some fill) = some (0, vect') ∧ Holds len xs.reverse vect' := by
  have hlen := h.length_pos
  have hnum := h.number
  have hpos := List.length_pos_of_ne_nil hne
  have hlt := h.capacity_lt
  have hbytes := h.number_mul_length_le
  rw [hnum, h.length] at hbytes
  have hcount : xs.length ≤ xs.length * len := Nat.le_mul_of_pos_right _ hlen
  rcases h.data with ⟨rest, hdata, hcapacity⟩
  have htemp : len ≤ if 1024 < len then len else 1024 := by
    split <;> omega
  have hstart : HalfReversed xs xs 0 (xs.length - 1) :=
    ⟨rfl, by omega, by omega, fun i hi hout ↦ by omega, fun i _ _ ↦ rfl⟩
  have hloop : reverseLoop len _ (xs.length + 1) 0 (xs.length - 1) [] (some (xs.flatten ++ rest)) = _ :=
    reverseLoop_spec hlen htemp (by omega) hstart h.uniform (by omega)
  refine ⟨{ vect with data := some (xs.reverse.flatten ++ rest) }, ?_, h.length, hlen, ?_,
    h.uniform.reverse, h.capacity_pos, hlt, rest, rfl, ?_⟩
  · rw [reverse, if_neg (by omega), if_neg (by simp [malloc]), h.length, hnum, hdata,
      u4Sub_of_le (by omega) (by omega)]
    simp only [hloop, Option.bind_eq_bind, Option.bind_some]
  · rw [List.length_reverse]
    exact hnum
  · rw [← hcapacity, List.length_append, List.length_append, h.uniform.reverse.length_flatten,
      h.uniform.length_flatten, List.length_reverse]

end CPractice.Vector
