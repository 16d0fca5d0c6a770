import CPractice.Vector.Model
import CPractice.Lib.Refinement

/-!
# The sizes of a vector

The sizes of a vector are `u4`, and so are the sums and products with which a call tests and computes
them.  If none of them wraps in a call and the memory it asks for is granted, then the call is refused
and leaves the vector as it is, or it copies inside of the block and the elements fit into it.
-/

namespace CPractice.Vector

open Lib Memory PowerOfTwo

variable {vect : Vect} {pos size count : ℕ} {array : Option Bytes} {grant : Grant}

/-- The elements fit into the capacity, and that is the size of the block. -/
structure Sized (vect : Vect) : Prop where
  number_lt : vect.number < 4294967296
  capacity_lt : vect.capacity < 4294967296
  fits : vect.number * vect.length ≤ vect.capacity
  block : allocated vect.data = vect.capacity
  nil : vect.data.isNone = true → vect.length = 0

/-! ## Making room -/

theorem sized_uninit (h : Sized vect) : Sized (uninit vect) := by
  rw [uninit]
  split
  · exact ⟨by decide, by decide, by decide, rfl, fun _ ↦ rfl⟩
  · exact h

theorem sized_clear (h : Sized vect) : Sized (clear vect) :=
  ⟨show 0 < 4294967296 by decide, h.capacity_lt, (Nat.zero_mul _).trans_le (Nat.zero_le _), h.block, h.nil⟩

/-- Memory for so many elements, without a wrap. -/
theorem sized_realloc (h : Sized vect) (hcapacity : vect.capacity ≠ 0) (hcount : count ≠ 0)
    (hlt : count * vect.length < 4294967296) (hgrant : grant.isSome) :
    ∃ vect', vectRealloc vect count grant = (0, vect') ∧ Sized vect' ∧ vect'.length = vect.length ∧
      vect'.capacity = count * vect.length ∧ vect'.number = min count vect.number := by
  rcases Option.isSome_iff_exists.mp hgrant with ⟨fill, rfl⟩
  have hsize : u4 (vect.length * count) = count * vect.length := by
    rw [Nat.mul_comm]
    exact u4_of_lt hlt
  obtain ⟨block, hblock⟩ : ∃ block, realloc vect.data (count * vect.length) (some fill) = some block :=
    ⟨_, rfl⟩
  have hlength := length_realloc hblock
  have hnumber : (if count < vect.number then count else vect.number) = min count vect.number := by
    split <;> omega
  refine ⟨⟨count * vect.length, min count vect.number, vect.length, some block⟩, ?_, ?_, rfl, rfl, rfl⟩
  · simp only [vectRealloc, if_neg hcapacity, if_neg hcount, hsize, hblock, hnumber]
  · refine ⟨?_, hlt, Nat.mul_le_mul_right _ (Nat.min_le_left _ _), hlength, fun h ↦ by cases h⟩
    exact lt_of_le_of_lt (Nat.min_le_right _ _) h.number_lt

/-- The growth that `lisk_vector_insert` needs does not wrap and is granted. -/
def GrowsSafely (vect : Vect) (size : ℕ) (grant : Grant) : Prop :=
  (vect.number + size) * vect.length < 4294967296 ∧
    (vect.capacity ≠ 0 → vect.capacity < (vect.number + size) * vect.length →
      nextPowOf2 (vect.number + size) * vect.length < 4294967296 ∧ grant.isSome)

instance : Decidable (GrowsSafely vect size grant) := inferInstanceAs (Decidable (_ ∧ _))

/-- Room is made, or the vector has no capacity and is left alone. -/
theorem grow_sized (h : Sized vect) (hsize : size ≠ 0) (hsafe : GrowsSafely vect size grant) :
    (grow vect size grant = (-1, vect) ∧ vect.capacity = 0 ∧ 0 < vect.length) ∨
    ∃ vect', grow vect size grant = (0, vect') ∧ Sized vect' ∧ vect'.length = vect.length ∧
      vect'.number = vect.number ∧ (vect.number + size) * vect.length ≤ vect'.capacity := by
  obtain ⟨hlt, hgrowth⟩ := hsafe
  rcases Nat.eq_zero_or_pos vect.length with hzero | hpos
  · refine .inr ⟨vect, ?_, h, rfl, rfl, ?_⟩
    · rw [grow, hzero, Nat.mul_zero, u4_of_lt (by decide), if_neg (Nat.not_lt_zero _)]
    · rw [hzero, Nat.mul_zero]
      exact Nat.zero_le _
  · have hcount : vect.number + size ≤ (vect.number + size) * vect.length := Nat.le_mul_of_pos_right _ hpos
    rw [grow, u4_of_lt (show vect.number + size < 4294967296 by omega), u4_of_lt hlt]
    by_cases hroom : vect.capacity < (vect.number + size) * vect.length
    · rw [if_pos hroom]
      by_cases hcapacity : vect.capacity = 0
      · refine .inl ⟨?_, hcapacity, hpos⟩
        rw [vectRealloc, if_pos hcapacity]
      · right
        rcases hgrowth hcapacity hroom with ⟨hbytes, hgrant⟩
        rcases nextPowOf2_spec (show 0 < vect.number + size by omega) (by omega) with ⟨-, hle, -⟩
        have hpow : nextPowOf2 (vect.number + size) ≤ nextPowOf2 (vect.number + size) * vect.length :=
          Nat.le_mul_of_pos_right _ hpos
        have hround : roundUp (vect.number + size) = nextPowOf2 (vect.number + size) :=
          roundUp_eq (by omega)
        rcases sized_realloc h hcapacity (show nextPowOf2 (vect.number + size) ≠ 0 by omega) hbytes hgrant
          with ⟨vect', hrealloc, hsized, hlength, hcap, hnumber⟩
        refine ⟨vect', by rw [hround, hrealloc], hsized, hlength, by omega, ?_⟩
        rw [hcap]
        exact Nat.mul_le_mul_right _ hle
    · exact .inr ⟨vect, if_neg hroom, h, rfl, rfl, Nat.not_lt.mp hroom⟩

/-! ## The copies -/

/-- The source array holds the elements that the caller names. -/
def Readable (array : Option Bytes) (bytes : ℕ) : Prop := ∀ bytes' ∈ array, bytes ≤ bytes'.length

theorem place_sized (h : Sized vect) (hsize : size ≠ 0) (hpos : pos ≤ vect.number)
    (hroom : (vect.number + size) * vect.length ≤ vect.capacity)
    (harray : Readable array (size * vect.length)) :
    ∃ vect', place vect pos array size = some (0, vect') ∧ Sized vect' := by
  have hcapacity := h.capacity_lt
  have hblock := h.block
  have hsplit : (vect.number + size) * vect.length =
      pos * vect.length + size * vect.length + (vect.number - pos) * vect.length := by
    rw [← Nat.add_mul, ← Nat.add_mul]
    congr 1
    omega
  have hcursor : u4 (pos * vect.length) = pos * vect.length := u4_of_lt (by omega)
  have hbytes : u4 (size * vect.length) = size * vect.length := u4_of_lt (by omega)
  have hmoved : u4 (u4Sub vect.number pos * vect.length) = (vect.number - pos) * vect.length := by
    rw [u4Sub_of_le hpos h.number_lt]
    exact u4_of_lt (by omega)
  have hgap : ∃ data, openGap vect pos size = some (0, data) ∧ allocated data = allocated vect.data ∧
      data.isNone = vect.data.isNone := by
    rw [openGap, hcursor, hbytes, hmoved]
    split
    · refine cpyWithin_sized _ _ _ _ ?_
      rcases Nat.eq_zero_or_pos vect.length with hzero | hlen
      · exact .inl (by rw [hzero, Nat.mul_zero])
      · have hsizeLen : 0 < size * vect.length := Nat.mul_pos (by omega) hlen
        right
        rw [hblock]
        omega
    · exact ⟨vect.data, rfl, rfl, rfl⟩
  rcases hgap with ⟨data, hopen, hdata, hnone⟩
  have hcopy : ∃ data', copyArray vect data pos array size = some (0, data') ∧
      allocated data' = allocated data ∧ data'.isNone = data.isNone := by
    cases array with
    | none => exact ⟨data, rfl, rfl, rfl⟩
    | some array =>
        rw [copyArray, hcursor, hbytes]
        refine cpyInto_sized _ _ _ _ (.inr ⟨?_, harray array rfl⟩)
        rw [hdata, hblock]
        omega
  rcases hcopy with ⟨data', hcopy, hdata', hnone'⟩
  refine ⟨{ vect with data := data', number := u4 (vect.number + size) }, ?_, ?_⟩
  · rw [place, hopen]
    simp only [hcopy, Option.bind_eq_bind, Option.bind_some, ne_eq, not_true, if_false]
  · refine ⟨u4_lt _, hcapacity, ?_, by rw [hdata', hdata, hblock], fun hnil ↦ ?_⟩
    · have hle : u4 (vect.number + size) ≤ vect.number + size := by
        unfold u4
        exact Nat.mod_le _ _
      exact (Nat.mul_le_mul_right _ hle).trans hroom
    · rw [hnone', hnone] at hnil
      exact h.nil hnil

/-- `lisk_vector_insert` is refused and changes nothing, or succeeds within the block. -/
theorem insert_sized (h : Sized vect) (harray : Readable array (size * vect.length))
    (hsafe : size = 0 ∨ vect.number < pos ∨ GrowsSafely vect size grant) :
    ∃ ret vect', insert vect pos array size grant = some (ret, vect') ∧
      ((ret ≠ 0 ∧ vect' = vect ∧
          (size = 0 ∨ vect.number < pos ∨ (vect.capacity = 0 ∧ 0 < vect.length))) ∨
        (ret = 0 ∧ Sized vect')) := by
  by_cases hrefused : size = 0 ∨ vect.number < pos
  · refine ⟨-1, vect, ?_, .inl ⟨by decide, rfl, by tauto⟩⟩
    rw [insert, if_pos hrefused]
  · have hsize : size ≠ 0 := fun hzero ↦ hrefused (.inl hzero)
    rcases grow_sized h hsize (by tauto) with
      ⟨hgrow, hempty⟩ | ⟨grown, hgrow, hsized, hlength, hnumber, hroom⟩
    · refine ⟨-2, vect, ?_, .inl ⟨by decide, rfl, .inr (.inr hempty)⟩⟩
      simp only [insert, if_neg hrefused, hgrow]
      rfl
    · rw [← hlength, ← hnumber] at hroom
      rw [← hlength] at harray
      have hpos : pos ≤ grown.number := by omega
      rcases place_sized hsized hsize hpos hroom harray with ⟨vect', hplace, hsized'⟩
      refine ⟨0, vect', ?_, .inr ⟨rfl, hsized'⟩⟩
      simp only [insert, if_neg hrefused, hgrow, ne_eq, not_true, if_false, hplace]

/-- `lisk_vector_erase` is refused and changes nothing, or succeeds within the block. -/
theorem erase_sized (h : Sized vect)
    (hsafe : size = 0 ∨ vect.number ≤ pos ∨ vect.number * vect.length = 0 ∨ pos + size < 4294967296) :
    ∃ ret vect', erase vect pos size = some (ret, vect') ∧
      ((ret = none ∧ vect' = vect) ∨ Sized vect') := by
  have hcapacity := h.capacity_lt
  have hnumber := h.number_lt
  have hfits := h.fits
  have hbuf : u4 (vect.number * vect.length) = vect.number * vect.length := u4_of_lt (by omega)
  rw [erase, hbuf]
  split
  · exact ⟨none, vect, rfl, .inl ⟨rfl, rfl⟩⟩
  · rename_i hsize
    split
    · exact ⟨none, vect, rfl, .inl ⟨rfl, rfl⟩⟩
    · split
      · exact ⟨none, vect, rfl, .inl ⟨rfl, rfl⟩⟩
      · rename_i hempty hrange
        have hlt : pos + size < 4294967296 := by tauto
        rw [u4_of_lt hlt] at hrange ⊢
        have hlen : 0 < vect.length := by
          refine Nat.pos_iff_ne_zero.mpr fun hzero ↦ hrange (.inr (.inr ?_))
          rw [hzero, Nat.mul_zero]
        have hsplit : vect.number * vect.length =
            pos * vect.length + size * vect.length + (vect.number - (pos + size)) * vect.length := by
          rw [← Nat.add_mul, ← Nat.add_mul]
          congr 1
          omega
        have hcursor : u4 (pos * vect.length) = pos * vect.length := u4_of_lt (by omega)
        have hbytes : u4 (size * vect.length) = size * vect.length := u4_of_lt (by omega)
        have hmoved : u4 (u4Sub vect.number (pos + size) * vect.length) =
            (vect.number - (pos + size)) * vect.length := by
          rw [u4Sub_of_le (by omega) hnumber]
          exact u4_of_lt (by omega)
        have hsizeLen : 0 < size * vect.length := Nat.mul_pos (by omega) hlen
        have hless : (vect.number - size) * vect.length ≤ vect.capacity :=
          (Nat.mul_le_mul_right _ (Nat.sub_le _ _)).trans hfits
        simp only [hmoved, hcursor, hbytes, u4Sub_of_le (show size ≤ vect.number by omega) hnumber]
        split
        · rcases cpyWithin_sized vect.data (pos * vect.length) (pos * vect.length + size * vect.length)
            ((vect.number - (pos + size)) * vect.length) (.inr (by rw [h.block]; omega)) with
            ⟨data', hcopy, hdata, hnone⟩
          refine ⟨some (pos * vect.length),
            ⟨vect.capacity, vect.number - size, vect.length, data'⟩, ?_, .inr ?_⟩
          · simp only [hcopy, Option.bind_eq_bind, Option.bind_some, ne_eq, not_true, if_false]
          · exact ⟨lt_of_le_of_lt (Nat.sub_le _ _) hnumber, hcapacity, hless, hdata.trans h.block,
              fun hnil ↦ h.nil (hnone ▸ hnil)⟩
        · refine ⟨none, ⟨vect.capacity, vect.number - size, vect.length, vect.data⟩, rfl, .inr ?_⟩
          exact ⟨lt_of_le_of_lt (Nat.sub_le _ _) hnumber, hcapacity, hless, h.block, h.nil⟩

/-! ## Reversing -/

theorem reverseLoop_sized {length tempSize turns lf rg : ℕ} {temp : Bytes} {data : Option Bytes}
    (htemp : length ≤ tempSize) (hrg : rg < count) (hcount : count < 4294967296)
    (hfits : count * length ≤ allocated data) (hlt : allocated data < 4294967296)
    (hnil : data.isNone = true → length = 0) (hturns : rg < lf + turns) (hpos : 0 < turns) :
    ∃ data', reverseLoop length tempSize turns lf rg temp data = some data' ∧
      allocated data' = allocated data ∧ data'.isNone = data.isNone := by
  induction turns generalizing lf rg temp data with
  | zero => omega
  | succ turns ih =>
      rw [reverseLoop]
      by_cases hmore : lf < rg
      · have hend (idx : ℕ) (hidx : idx < count) : idx * length + length ≤ count * length := by
          rw [← Nat.succ_mul]
          exact Nat.mul_le_mul_right _ hidx
        have hlfEnd := hend lf (by omega)
        have hrgEnd := hend rg hrg
        have hlf : u4 (lf * length) = lf * length := u4_of_lt (by omega)
        have hrgMul : u4 (rg * length) = rg * length := u4_of_lt (by omega)
        obtain ⟨temp', hout, hlen⟩ : ∃ temp', cpyOut data (lf * length) length tempSize temp = some temp' ∧
            (length = 0 ∨ length ≤ temp'.length) := by
          rw [cpyOut]
          split
          · exact ⟨temp, rfl, .inl (by omega)⟩
          · cases data with
            | none => exact absurd (hnil rfl) (by omega)
            | some block =>
                rw [allocated_some] at hfits
                refine ⟨(block.drop (lf * length)).take length, ?_, .inr ?_⟩
                · rw [Option.bind_eq_bind, Option.bind_some, if_pos ⟨by omega, htemp⟩]
                · rw [List.length_take, List.length_drop]
                  omega
        have hne : length = 0 ∨ lf * length ≠ rg * length := by
          by_contra hnot
          rw [not_or, not_not] at hnot
          have heq := Nat.eq_of_mul_eq_mul_right (Nat.pos_of_ne_zero hnot.1) hnot.2
          omega
        rcases cpyWithin_sized data (lf * length) (rg * length) length (by omega) with
          ⟨data₁, hwithin, hsize₁, hnone₁⟩
        rcases cpyInto_sized data₁ (rg * length) length temp' (by omega) with
          ⟨data₂, hinto, hsize₂, hnone₂⟩
        rw [hsize₁] at hsize₂
        rw [hnone₁] at hnone₂
        obtain ⟨data', hloop, hsize, hnone⟩ : ∃ data',
            reverseLoop length tempSize turns (lf + 1) (rg - 1) temp' data₂ = some data' ∧
              allocated data' = allocated data₂ ∧ data'.isNone = data₂.isNone :=
          ih (by omega) (hsize₂ ▸ hfits) (hsize₂ ▸ hlt) (hnone₂ ▸ hnil) (by omega) (by omega)
        refine ⟨data', ?_, hsize.trans hsize₂, hnone.trans hnone₂⟩
        rw [if_pos hmore, hlf, hrgMul]
        simp only [hout, hwithin, hinto, Option.bind_eq_bind, Option.bind_some]
        rw [u4_of_lt (by omega), u4Sub_of_le (by omega) (by omega)]
        exact hloop
      · exact ⟨data, by rw [if_neg hmore], rfl, rfl⟩

theorem reverse_sized (h : Sized vect) :
    ∃ ret vect', reverse vect grant = some (ret, vect') ∧
      ((ret ≠ 0 ∧ vect' = vect) ∨ (ret = 0 ∧ Sized vect')) := by
  rw [reverse]
  split
  · exact ⟨-1, vect, rfl, .inl ⟨by decide, rfl⟩⟩
  · rename_i hempty
    split
    · exact ⟨-2, vect, rfl, .inl ⟨by decide, rfl⟩⟩
    · have hnumber := h.number_lt
      have hlast : u4Sub vect.number 1 = vect.number - 1 := u4Sub_of_le (by omega) hnumber
      have htemp : vect.length ≤ if 1024 < vect.length then vect.length else 1024 := by
        split <;> omega
      have hrg : vect.number - 1 < vect.number := by omega
      obtain ⟨data', hloop, hsize, hnone⟩ : ∃ data', reverseLoop vect.length _ (vect.number + 1) 0
          (vect.number - 1) [] vect.data = some data' ∧
            allocated data' = allocated vect.data ∧ data'.isNone = vect.data.isNone :=
        reverseLoop_sized htemp hrg hnumber (h.block ▸ h.fits) (h.block ▸ h.capacity_lt) h.nil
          (by omega) (by omega)
      refine ⟨0, { vect with data := data' }, ?_, .inr ⟨rfl, ?_⟩⟩
      · simp only [hlast, hloop, Option.bind_eq_bind, Option.bind_some]
      · exact ⟨hnumber, h.capacity_lt, h.fits, hsize.trans h.block, fun hnil ↦ h.nil (hnone ▸ hnil)⟩

/-! ## Runs -/

/-- The calls with the answers they get to a request for memory. -/
inductive SizeCall
  | insert (pos : ℕ) (array : Option Bytes) (size : ℕ) (grant : Grant)
  | pushBack (array : Option Bytes) (size : ℕ) (grant : Grant)
  | assign (array : Option Bytes) (size : ℕ) (grant : Grant)
  | erase (pos size : ℕ)
  | popUp
  | popBack
  | reverse (grant : Grant)
  | clear
  | realloc (count : ℕ) (grant : Grant)

namespace SizeCall

def exec (vect : Vect) : SizeCall → Option (Ret × Vect)
  | .insert pos array size grant => (Vector.insert vect pos array size grant).map (Prod.map .code id)
  | .pushBack array size grant => (Vector.pushBack vect array size grant).map (Prod.map .code id)
  | .assign array size grant => (Vector.assign vect array size grant).map (Prod.map .code id)
  | .erase pos size => (Vector.erase vect pos size).map (Prod.map .pointer id)
  | .popUp => (Vector.popUp vect).map (Prod.map .pointer id)
  | .popBack => (Vector.popBack vect).map (Prod.map .pointer id)
  | .reverse grant => (Vector.reverse vect grant).map (Prod.map .code id)
  | .clear => some (.void, Vector.clear vect)
  | .realloc count grant => some (Prod.map .code id (vectRealloc vect count grant))

/-- The arguments are `u4`, and a source array holds the elements that are named. -/
def Args (vect : Vect) : SizeCall → Prop
  | .insert pos array size _ =>
      pos < 4294967296 ∧ size < 4294967296 ∧ Readable array (size * vect.length)
  | .pushBack array size _ | .assign array size _ =>
      size < 4294967296 ∧ Readable array (size * vect.length)
  | .erase pos size => pos < 4294967296 ∧ size < 4294967296
  | .realloc count _ => count < 4294967296
  | .popUp | .popBack | .reverse _ | .clear => True

/-- No sum or product of the call wraps, and the memory that it needs is granted; or it is refused before
that matters. -/
def Safe (vect : Vect) : SizeCall → Prop
  | .insert pos _ size grant => size = 0 ∨ vect.number < pos ∨ GrowsSafely vect size grant
  | .pushBack _ size grant => size = 0 ∨ GrowsSafely vect size grant
  | .assign _ size grant => size = 0 ∨ GrowsSafely (Vector.clear vect) size grant
  | .erase pos size =>
      size = 0 ∨ vect.number ≤ pos ∨ vect.number * vect.length = 0 ∨ pos + size < 4294967296
  | .realloc count grant =>
      vect.capacity = 0 ∨ count = 0 ∨ (count * vect.length < 4294967296 ∧ grant.isSome)
  | .popUp | .popBack | .reverse _ | .clear => True

/-- The call returns an error and changes nothing, or it returns success, the elements fit into the
capacity, and that is the size of the block.  That it returns says that all its copies stay inside of the
block. -/
def Served (vect : Vect) (call : SizeCall) : Prop :=
  ∃ ret vect', call.exec vect = some (ret, vect') ∧
    ((ret.IsError ∧ vect' = vect) ∨ ((∀ value, ret = .code value → value = 0) ∧ Sized vect'))

/-- A call that returns a number. -/
theorem served_of_code {call : SizeCall} {out : Option (ℤ × Vect)}
    (hexec : call.exec vect = out.map (Prod.map .code id))
    (h : ∃ ret vect', out = some (ret, vect') ∧ ((ret ≠ 0 ∧ vect' = vect) ∨ (ret = 0 ∧ Sized vect'))) :
    call.Served vect := by
  rcases h with ⟨ret, vect', rfl, hret⟩
  refine ⟨.code ret, vect', hexec, ?_⟩
  rcases hret with ⟨hne, heq⟩ | ⟨hzero, hsized⟩
  · exact .inl ⟨hne, heq⟩
  · refine .inr ⟨fun value hvalue ↦ ?_, hsized⟩
    cases hvalue
    exact hzero

/-- A call that returns a pointer. -/
theorem served_of_pointer {call : SizeCall} {out : Option (Option ℕ × Vect)}
    (hexec : call.exec vect = out.map (Prod.map .pointer id))
    (h : ∃ ret vect', out = some (ret, vect') ∧ ((ret = none ∧ vect' = vect) ∨ Sized vect')) :
    call.Served vect := by
  rcases h with ⟨ret, vect', rfl, hret⟩
  refine ⟨.pointer ret, vect', hexec, ?_⟩
  rcases hret with hrefused | hsized
  · exact .inl hrefused
  · exact .inr ⟨fun _ hvalue ↦ (by cases hvalue), hsized⟩

theorem served_insert (h : Sized vect) (hargs : (insert pos array size grant).Args vect)
    (hsafe : (insert pos array size grant).Safe vect) : (insert pos array size grant).Served vect := by
  refine served_of_code rfl ?_
  rcases insert_sized h hargs.2.2 hsafe with ⟨ret, vect', hinsert, ⟨hne, heq, -⟩ | hdone⟩
  · exact ⟨ret, vect', hinsert, .inl ⟨hne, heq⟩⟩
  · exact ⟨ret, vect', hinsert, .inr hdone⟩

theorem served_pushBack (h : Sized vect) (hargs : (pushBack array size grant).Args vect)
    (hsafe : (pushBack array size grant).Safe vect) : (pushBack array size grant).Served vect := by
  refine served_of_code rfl ?_
  have hsafe' : size = 0 ∨ vect.number < vect.number ∨ GrowsSafely vect size grant :=
    hsafe.imp id .inr
  rcases insert_sized h hargs.2 hsafe' with ⟨ret, vect', hinsert, ⟨hne, heq, -⟩ | hdone⟩
  · exact ⟨ret, vect', hinsert, .inl ⟨hne, heq⟩⟩
  · exact ⟨ret, vect', hinsert, .inr hdone⟩

/-- An assignment clears the vector first; where it fails there was nothing to clear. -/
theorem served_assign (h : Sized vect) (hargs : (assign array size grant).Args vect)
    (hsafe : (assign array size grant).Safe vect) : (assign array size grant).Served vect := by
  refine served_of_code rfl ?_
  rw [Vector.assign]
  split
  · exact ⟨-1, vect, rfl, .inl ⟨by decide, rfl⟩⟩
  · rename_i hsize
    have hclear := sized_clear h
    have hsafe' : size = 0 ∨ (Vector.clear vect).number < (Vector.clear vect).number ∨
        GrowsSafely (Vector.clear vect) size grant := hsafe.imp id .inr
    rcases insert_sized hclear hargs.2 hsafe' with ⟨ret, vect', hinsert, ⟨hne, heq, hwhy⟩ | hdone⟩
    · have hfits := h.fits
      have hempty : vect.capacity = 0 ∧ 0 < vect.length := by
        rcases hwhy with hzero | hlt | hempty
        · exact absurd hzero hsize
        · exact absurd hlt (lt_irrefl _)
        · exact hempty
      rw [hempty.1, Nat.le_zero, Nat.mul_eq_zero] at hfits
      have hzero : vect.number = 0 := hfits.resolve_right (Nat.pos_iff_ne_zero.mp hempty.2)
      have hsame : Vector.clear vect = vect := by
        rw [Vector.clear, ← hzero]
      exact ⟨ret, vect', hinsert, .inl ⟨hne, heq.trans hsame⟩⟩
    · exact ⟨ret, vect', hinsert, .inr hdone⟩

theorem served_erase (h : Sized vect) (hsafe : (erase pos size).Safe vect) :
    (erase pos size).Served vect :=
  served_of_pointer rfl (erase_sized h hsafe)

theorem served_popUp (h : Sized vect) : popUp.Served vect := by
  refine served_of_pointer rfl ?_
  rw [Vector.popUp]
  split
  · exact ⟨none, vect, rfl, .inl ⟨rfl, rfl⟩⟩
  · exact erase_sized h (.inr (.inr (.inr (by decide))))

theorem served_popBack (h : Sized vect) : popBack.Served vect := by
  have hnumber := h.number_lt
  refine served_of_pointer rfl ?_
  rw [Vector.popBack]
  split
  · exact ⟨none, vect, rfl, .inl ⟨rfl, rfl⟩⟩
  · rename_i hempty
    rw [u4Sub_of_le (show 1 ≤ vect.number by omega) hnumber]
    exact erase_sized h (.inr (.inr (.inr (by omega))))

theorem served_clear (h : Sized vect) : clear.Served vect := by
  exact ⟨.void, Vector.clear vect, rfl, .inr ⟨fun _ hvalue ↦ (by cases hvalue), sized_clear h⟩⟩

theorem served_realloc (h : Sized vect) (hsafe : (realloc count grant).Safe vect) :
    (realloc count grant).Served vect := by
  have hexec : (realloc count grant).exec vect =
      (some (vectRealloc vect count grant)).map (Prod.map .code id) := rfl
  refine served_of_code hexec ?_
  by_cases hcapacity : vect.capacity = 0
  · exact ⟨-1, vect, by rw [vectRealloc, if_pos hcapacity], .inl ⟨by decide, rfl⟩⟩
  · by_cases hcount : count = 0
    · refine ⟨0, uninit vect, ?_, .inr ⟨rfl, sized_uninit h⟩⟩
      rw [vectRealloc, if_neg hcapacity, if_pos hcount]
    · rcases hsafe with h' | h' | ⟨hlt, hgrant⟩
      · exact absurd h' hcapacity
      · exact absurd h' hcount
      · rcases sized_realloc h hcapacity hcount hlt hgrant with ⟨vect', hrealloc, hsized, -⟩
        exact ⟨0, vect', congrArg some hrealloc, .inr ⟨rfl, hsized⟩⟩

/-- A safe call is served. -/
theorem served (h : Sized vect) {call : SizeCall} (hargs : call.Args vect) (hsafe : call.Safe vect) :
    call.Served vect := by
  cases call with
  | insert pos array size grant => exact served_insert h hargs hsafe
  | pushBack array size grant => exact served_pushBack h hargs hsafe
  | assign array size grant => exact served_assign h hargs hsafe
  | erase pos size => exact served_erase h hsafe
  | popUp => exact served_popUp h
  | popBack => exact served_popBack h
  | reverse grant => exact served_of_code rfl (reverse_sized h)
  | clear => exact served_clear h
  | realloc count grant => exact served_realloc h hsafe

end SizeCall

/-- Vectors that `lisk_vector_init` has made, and the calls whose arithmetic is safe. -/
def safeMachine : Machine Vect SizeCall Ret where
  init vect := ∃ number length fill, number < 4294967296 ∧ length < 4294967296 ∧
    init number length (some fill) = (0, some vect)
  ok vect call := call.Args vect ∧ call.Safe vect
  exec := SizeCall.exec

theorem sized_init {number length : ℕ} {fill : ℕ → UInt8}
    (h : init number length (some fill) = (0, some vect)) : Sized vect := by
  unfold init at h
  split at h
  · cases h
  · cases h
    exact ⟨show 0 < 4294967296 by decide, roundUp_lt (u4_lt _),
      (Nat.zero_mul _).trans_le (Nat.zero_le _), by simp, fun h ↦ by cases h⟩

/-- In every run of safe calls the sizes are right, and every further safe call is served. -/
theorem trace_sized {log : List (SizeCall × Ret)} (htrace : safeMachine.Trace vect log) :
    Sized vect ∧ ∀ call : SizeCall, call.Args vect → call.Safe vect → call.Served vect := by
  have hsized : Sized vect := by
    refine htrace.invariant Sized ?_ ?_
    · rintro vect ⟨number, length, fill, -, -, hinit⟩
      exact sized_init hinit
    · intro vect call ret vect' hinv hok hexec
      rcases SizeCall.served hinv hok.1 hok.2 with ⟨ret', vect'', hexec', hout⟩
      obtain ⟨-, rfl⟩ : ret' = ret ∧ vect'' = vect' := by
        have heq := hexec'.symm.trans hexec
        simpa using heq
      rcases hout with ⟨-, rfl⟩ | ⟨-, hsized⟩
      · exact hinv
      · exact hsized
  exact ⟨hsized, fun call hargs hsafe ↦ SizeCall.served hsized hargs hsafe⟩

end CPractice.Vector
