import CPractice.LiskString.Sizes

/-!
# Growth that fails

`REALLOC` assigns its result to the data field before that is tested.  When the system refuses, the
field is `nil` and the old block is lost, while the sizes still describe it.  Only an object without
capacity is left alone, because it is refused before `REALLOC`.
-/

namespace CPractice.LiskString

open Memory PowerOfTwo

/-- A call that adds to an object. -/
inductive GrowCall
  | vectorInsert (vect : Vector.Vect) (pos : ℕ) (array : Option Bytes) (size : ℕ)
  | vectorPushBack (vect : Vector.Vect) (array : Option Bytes) (size : ℕ)
  | stringInsert (str : Text) (pos : ℕ) (buf : Bytes) (bufLen : ℕ)
  | stringAppend (str : Text) (buf : Bytes) (bufLen : ℕ)

/-- The call on a vector gets as far as making room, needs it, and its reallocation fails when memory is
refused. -/
def VectorFails (vect : Vector.Vect) (pos size : ℕ) : Prop :=
  size ≠ 0 ∧ pos ≤ vect.number ∧ vect.capacity < u4 (u4 (vect.number + size) * vect.length) ∧
    (Vector.vectRealloc vect (roundUp (u4 (vect.number + size))) none).1 ≠ 0

@[inherit_doc VectorFails]
def StringFails (str : Text) (pos bufLen : ℕ) : Prop :=
  bufLen ≠ 0 ∧ pos ≤ str.length ∧ str.capacity < u4 (u4 (str.length + bufLen) + 1) ∧
    ∃ ret str', strRealloc str (roundUp (u4 (u4 (str.length + bufLen) + 1))) none = some (ret, str') ∧
      ret ≠ 0

namespace GrowCall

def Fails : GrowCall → Prop
  | .vectorInsert vect pos _ size => VectorFails vect pos size
  | .vectorPushBack vect _ size => VectorFails vect vect.number size
  | .stringInsert str pos _ bufLen => StringFails str pos bufLen
  | .stringAppend str _ bufLen => StringFails str str.length bufLen

/-- The call returns an error and the object is the same as before. -/
def Intact : GrowCall → Prop
  | .vectorInsert vect pos array size =>
      ∃ ret, Vector.insert vect pos array size none = some (ret, vect) ∧ ret ≠ 0
  | .vectorPushBack vect array size =>
      ∃ ret, Vector.pushBack vect array size none = some (ret, vect) ∧ ret ≠ 0
  | .stringInsert str pos buf bufLen =>
      ∃ ret, insert str pos (some buf) bufLen none = some (ret, str) ∧ ret ≠ 0
  | .stringAppend str buf bufLen =>
      ∃ ret, append str (some buf) bufLen none = some (ret, str) ∧ ret ≠ 0

/-- The object has no capacity, or an earlier failure has lost its block already. -/
def Bare : GrowCall → Prop
  | .vectorInsert vect _ _ _ | .vectorPushBack vect _ _ => vect.capacity = 0 ∨ vect.data = none
  | .stringInsert str _ _ _ | .stringAppend str _ _ => str.capacity = 0 ∨ str.data = none

end GrowCall

/-- What is left of a vector after its reallocation has failed. -/
theorem vectRealloc_fails {vect : Vector.Vect} {count : ℕ}
    (h : (Vector.vectRealloc vect count none).1 ≠ 0) :
    Vector.vectRealloc vect count none =
      if vect.capacity = 0 then (-1, vect) else (-2, { vect with data := none }) := by
  rw [Vector.vectRealloc] at h ⊢
  by_cases hcapacity : vect.capacity = 0
  · rw [if_pos hcapacity, if_pos hcapacity]
  · rw [if_neg hcapacity] at h
    rw [if_neg hcapacity, if_neg hcapacity]
    by_cases hcount : count = 0
    · rw [if_pos hcount] at h
      exact absurd rfl h
    · rw [if_neg hcount]
      rfl

theorem strRealloc_fails {str str' : Text} {size : ℕ} {ret : ℤ}
    (h : strRealloc str size none = some (ret, str')) (hret : ret ≠ 0) :
    strRealloc str size none =
      some (if str.capacity = 0 then (-1, str) else (-2, { str with data := none })) := by
  rw [strRealloc] at h ⊢
  by_cases hsize : size = 0
  · rw [if_pos hsize] at h
    cases h
    exact absurd rfl hret
  · rw [if_neg hsize]
    by_cases hcapacity : str.capacity = 0
    · rw [if_pos hcapacity, if_pos hcapacity]
    · rw [if_neg hcapacity, if_neg hcapacity]
      rfl

/-- An insertion whose reallocation fails leaves a vector intact if and only if there is nothing to
lose. -/
theorem vector_intact_iff {vect : Vector.Vect} {pos size : ℕ} {array : Option Bytes}
    (h : VectorFails vect pos size) :
    (∃ ret, Vector.insert vect pos array size none = some (ret, vect) ∧ ret ≠ 0) ↔
      vect.capacity = 0 ∨ vect.data = none := by
  obtain ⟨hsize, hpos, hroom, hfails⟩ := h
  have hrefused : ¬ (size = 0 ∨ vect.number < pos) := by omega
  have hinsert : Vector.insert vect pos array size none =
      some (-2, if vect.capacity = 0 then vect else { vect with data := none }) := by
    rw [Vector.insert, if_neg hrefused, Vector.grow, if_pos hroom, vectRealloc_fails hfails]
    split <;> rfl
  rw [hinsert]
  by_cases hcapacity : vect.capacity = 0
  · rw [if_pos hcapacity]
    exact iff_of_true ⟨-2, rfl, by decide⟩ (.inl hcapacity)
  · rw [if_neg hcapacity]
    constructor
    · rintro ⟨ret, hsome, -⟩
      right
      have hvect := congrArg Vector.Vect.data (Prod.mk.inj (Option.some.inj hsome)).2
      exact hvect.symm
    · intro hdata
      refine ⟨-2, ?_, by decide⟩
      rw [← hdata.resolve_left hcapacity]

@[inherit_doc vector_intact_iff]
theorem string_intact_iff {str : Text} {pos bufLen : ℕ} {buf : Bytes} (h : StringFails str pos bufLen) :
    (∃ ret, insert str pos (some buf) bufLen none = some (ret, str) ∧ ret ≠ 0) ↔
      str.capacity = 0 ∨ str.data = none := by
  obtain ⟨hlen, hpos, hroom, ret, str', hrealloc, hret⟩ := h
  have hrefused : ¬ (bufLen = 0 ∨ str.length < pos) := by omega
  have hinsert : insert str pos (some buf) bufLen none =
      some (-2, if str.capacity = 0 then str else { str with data := none }) := by
    rw [insert, if_neg hrefused, grow, if_pos hroom, strRealloc_fails hrealloc hret]
    split <;> rfl
  rw [hinsert]
  by_cases hcapacity : str.capacity = 0
  · rw [if_pos hcapacity]
    exact iff_of_true ⟨-2, rfl, by decide⟩ (.inl hcapacity)
  · rw [if_neg hcapacity]
    constructor
    · rintro ⟨ret, hsome, -⟩
      right
      have hstr := congrArg Text.data (Prod.mk.inj (Option.some.inj hsome)).2
      exact hstr.symm
    · intro hdata
      refine ⟨-2, ?_, by decide⟩
      rw [← hdata.resolve_left hcapacity]

/-- A call whose reallocation fails leaves its object intact if and only if that has no capacity, or no
block any more. -/
theorem failed_growth_intact_iff {call : GrowCall} (h : call.Fails) : call.Intact ↔ call.Bare := by
  cases call with
  | vectorInsert vect pos array size => exact vector_intact_iff h
  | vectorPushBack vect array size => exact vector_intact_iff h
  | stringInsert str pos buf bufLen => exact string_intact_iff h
  | stringAppend str buf bufLen => exact string_intact_iff h

/-- A vector whose capacity has wrapped to zero: `lisk_vector_init` with `65536` elements of `65536`
bytes. -/
def wrappedVect : Vector.Vect := ⟨0, 0, 65536, some []⟩

theorem failed_growth_intact_iff_wrapped :
    (Vector.init 65536 65536 (some fun _ ↦ 0)).1 = 0 ∧
      (GrowCall.vectorInsert wrappedVect 0 none 1).Intact := by
  have hfails : (GrowCall.vectorInsert wrappedVect 0 none 1).Fails := by
    refine ⟨by decide, by decide, ?_, ?_⟩
    · with_unfolding_all decide
    · with_unfolding_all decide
  exact ⟨by with_unfolding_all rfl, (failed_growth_intact_iff hfails).mpr (.inl rfl)⟩

/-- A string of four characters in a block of eight bytes, and a request to append four more. -/
def fullAppend : GrowCall :=
  .stringAppend ⟨8, 4, some [97, 98, 99, 100, 0, 0, 0, 0]⟩ [101, 102, 103, 104] 4

/-- Without memory the four characters are lost. -/
theorem failed_append_loses : fullAppend.Fails ∧ ¬ fullAppend.Intact := by
  constructor
  · refine ⟨by decide, le_refl _, ?_, -2, ⟨8, 4, none⟩, ?_, by decide⟩
    · with_unfolding_all decide
    · with_unfolding_all rfl
  · rintro ⟨ret, hsome, -⟩
    have hlost : append ⟨8, 4, some [97, 98, 99, 100, 0, 0, 0, 0]⟩ (some [101, 102, 103, 104]) 4 none =
        some (-2, ⟨8, 4, none⟩) := by
      with_unfolding_all rfl
    rw [hlost] at hsome
    exact absurd (congrArg Text.data (Prod.mk.inj (Option.some.inj hsome)).2) (by simp)

end CPractice.LiskString
