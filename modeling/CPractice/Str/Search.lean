import CPractice.Base
import CPractice.Lib.Occurrences

/-!
# `bh_search` of `lisk_string.c`

A Horspool search: the pattern is compared from its end, and after a mismatch it moves on until the
byte of the text under its last position meets the same byte of the pattern (`skip_buf`).  A pointer
into the text is its offset, and a read outside of the text or the pattern is `none`, as is a loop that
does not end.  No move passes over an occurrence, so the first one is found.
-/

namespace CPractice.Str

open Lib

variable {str sub : Bytes} {anchor base : ℕ} {skip : UInt8 → ℕ}

/-! ## The search -/

/-- `skip_buf` after its two loops. -/
def skipBuf (sub : Bytes) (subLen anchor : ℕ) : Option (UInt8 → ℕ) :=
  (List.range anchor).foldlM
    (fun skip idx ↦ (sub[idx]?).map fun byte ↦ Function.update skip byte (u4Sub anchor idx))
    fun _ ↦ subLen

/-- The inner loop from an index down: whether the pattern stands at the offset. -/
def compareFrom (str sub : Bytes) (base : ℕ) : ℕ → Option Bool
  | 0 => do
      let a ← str[base]?
      let b ← sub[0]?
      some (decide (a = b))
  | idx + 1 => do
      let a ← str[base + (idx + 1)]?
      let b ← sub[idx + 1]?
      if a = b then compareFrom str sub base idx else some false

def searchLoop (str sub : Bytes) (skip : UInt8 → ℕ) (subLen anchor : ℕ) :
    ℕ → ℕ → ℕ → Option (Option ℕ)
  | 0, _, _ => none
  | turns + 1, base, strLen =>
      if subLen ≤ strLen then do
        let found ← compareFrom str sub base anchor
        if found then some (some base)
        else do
          let byte ← str[base + anchor]?
          searchLoop str sub skip subLen anchor turns (base + skip byte) (u4Sub strLen (skip byte))
      else some none

/-- `bh_search` from an offset of the text on; `none` inside stands for `nil`. -/
def bhSearch (str : Bytes) (base strLen : ℕ) (sub : Bytes) (subLen : ℕ) : Option (Option ℕ) :=
  if subLen ≤ 0 ∨ strLen < subLen then some none
  else do
    let anchor := u4Sub subLen 1
    let skip ← skipBuf sub subLen anchor
    searchLoop str sub skip subLen anchor (strLen + 1) base strLen

/-! ## The skip table -/

/-- The table after some bytes of the pattern: it never moves on by nothing, or further than to the
next place where a byte of the pattern meets the same byte. -/
structure Skips (sub : Bytes) (anchor count : ℕ) (skip : UInt8 → ℕ) : Prop where
  pos : ∀ byte, 1 ≤ skip byte
  le : ∀ byte, skip byte ≤ anchor + 1
  near : ∀ idx < count, ∀ byte, sub[idx]? = some byte → skip byte ≤ anchor - idx

theorem Skips.step {count : ℕ} {byte : UInt8} (h : Skips sub anchor count skip) (hcount : count < anchor)
    (hbyte : sub[count]? = some byte) :
    Skips sub anchor (count + 1) (Function.update skip byte (anchor - count)) := by
  refine ⟨?_, ?_, ?_⟩
  · intro other
    by_cases heq : other = byte
    · rw [heq, Function.update_self]
      omega
    · rw [Function.update_of_ne heq]
      exact h.pos other
  · intro other
    by_cases heq : other = byte
    · rw [heq, Function.update_self]
      omega
    · rw [Function.update_of_ne heq]
      exact h.le other
  · intro idx hidx other hother
    by_cases heq : other = byte
    · rw [heq, Function.update_self]
      omega
    · rw [Function.update_of_ne heq]
      have hne : idx ≠ count := by
        rintro rfl
        rw [hbyte] at hother
        exact heq (Option.some.inj hother).symm
      exact h.near idx (by omega) other hother

/-- The two loops build the table. -/
theorem skipBuf_spec (hsub : sub.length = anchor + 1) (hlt : anchor < 4294967296) :
    ∃ skip, skipBuf sub (anchor + 1) anchor = some skip ∧ Skips sub anchor anchor skip := by
  suffices h : ∀ count ≤ anchor, ∃ skip,
      (List.range count).foldlM
        (fun skip idx ↦ (sub[idx]?).map fun byte ↦ Function.update skip byte (u4Sub anchor idx))
        (fun _ ↦ anchor + 1) = some skip ∧ Skips sub anchor count skip from
    h anchor (le_refl _)
  intro count
  induction count with
  | zero =>
      intro _
      exact ⟨_, rfl, fun _ ↦ Nat.le_add_left 1 anchor, fun _ ↦ le_refl _, fun _ h ↦ absurd h (by omega)⟩
  | succ count ih =>
      intro hle
      rcases ih (by omega) with ⟨skip, hfold, hskips⟩
      have hget : sub[count]? = some (sub.get ⟨count, by omega⟩) := List.getElem?_eq_getElem _
      refine ⟨_, ?_, hskips.step hle hget⟩
      rw [List.range_succ, List.foldlM_append, hfold]
      simp only [List.foldlM_cons, List.foldlM_nil, hget, Option.map_some, Option.bind_eq_bind,
        Option.bind_some, Option.pure_def, u4Sub_of_le (Nat.le_of_lt hle) hlt]

/-! ## One alignment -/

theorem compareFrom_spec {idx : ℕ} (hsub : idx < sub.length) (hstr : base + idx < str.length) :
    ∃ found, compareFrom str sub base idx = some found ∧
      (found = true ↔ ∀ j ≤ idx, str[base + j]? = sub[j]?) := by
  induction idx with
  | zero =>
      obtain ⟨a, ha⟩ : ∃ a, str[base]? = some a := ⟨_, List.getElem?_eq_getElem hstr⟩
      obtain ⟨b, hb⟩ : ∃ b, sub[0]? = some b := ⟨_, List.getElem?_eq_getElem hsub⟩
      refine ⟨decide (a = b), ?_, ?_⟩
      · simp only [compareFrom, ha, hb, Option.bind_eq_bind, Option.bind_some]
      · simp only [decide_eq_true_eq, Nat.le_zero, forall_eq, Nat.add_zero, ha, hb, Option.some_inj]
  | succ idx ih =>
      obtain ⟨a, ha⟩ : ∃ a, str[base + (idx + 1)]? = some a := ⟨_, List.getElem?_eq_getElem hstr⟩
      obtain ⟨b, hb⟩ : ∃ b, sub[idx + 1]? = some b := ⟨_, List.getElem?_eq_getElem hsub⟩
      simp only [compareFrom, ha, hb, Option.bind_eq_bind, Option.bind_some]
      by_cases heq : a = b
      · rw [if_pos heq]
        rcases ih (by omega) (by omega) with ⟨found, hfound, hiff⟩
        refine ⟨found, hfound, hiff.trans ?_⟩
        constructor
        · intro hall j hj
          rcases Nat.eq_or_lt_of_le hj with rfl | hlt
          · rw [ha, hb, heq]
          · exact hall j (by omega)
        · intro hall j hj
          exact hall j (by omega)
      · rw [if_neg heq]
        refine ⟨false, rfl, iff_of_false (by decide) ?_⟩
        intro hall
        have hlast := hall (idx + 1) (le_refl _)
        rw [ha, hb] at hlast
        exact heq (Option.some.inj hlast)

/-- The pattern does not occur where the table moves past it. -/
theorem Skips.not_occursAt (h : Skips sub anchor anchor skip) (hsub : sub.length = anchor + 1)
    {byte : UInt8} (hbyte : str[base + anchor]? = some byte) {j : ℕ} (hj : base < j)
    (hlt : j < base + skip byte) : ¬ OccursAt sub str j := by
  intro hoccurs
  have hle := h.le byte
  -- The byte under the last position stands in the pattern in front of that position.
  have hget := hoccurs.getElem? (show base + anchor - j < sub.length by omega)
  rw [show j + (base + anchor - j) = base + anchor by omega, hbyte] at hget
  have hnear := h.near (base + anchor - j) (by omega) byte hget.symm
  omega

/-! ## The whole search -/

/-- The loop, when nothing occurs in front of the alignment it has reached. -/
theorem searchLoop_spec (hskips : Skips sub anchor anchor skip) (hsub : sub.length = anchor + 1)
    (hlt : str.length < 4294967296) {turns start strLen : ℕ} (hbase : base + strLen = str.length)
    (hstart : start ≤ base) (hnone : ∀ j, start ≤ j → j < base → ¬ OccursAt sub str j)
    (hturns : strLen < turns) :
    searchLoop str sub skip (anchor + 1) anchor turns base strLen =
      some (firstFrom sub str start) := by
  have hne : sub ≠ [] := by
    intro hnil
    rw [hnil] at hsub
    cases hsub
  induction turns generalizing base strLen with
  | zero => cases hturns
  | succ turns ih =>
      rw [searchLoop]
      by_cases hfits : anchor + 1 ≤ strLen
      · rw [if_pos hfits]
        rcases compareFrom_spec (show anchor < sub.length by omega)
          (show base + anchor < str.length by omega) with ⟨found, hfound, hiff⟩
        have hhere : found = true ↔ OccursAt sub str base := by
          rw [hiff]
          constructor
          · intro hall
            exact occursAt_of_getElem? fun j hj ↦ hall j (by omega)
          · intro hoccurs j hj
            exact hoccurs.getElem? (by omega)
        simp only [hfound, Option.bind_eq_bind, Option.bind_some]
        cases found with
        | true => rw [if_pos rfl, firstFrom_eq_some_iff.mpr ⟨hstart, hhere.mp rfl, hnone⟩]
        | false =>
            have hget : str[base + anchor]? = some (str.get ⟨base + anchor, by omega⟩) :=
              List.getElem?_eq_getElem _
            set byte := str.get ⟨base + anchor, by omega⟩
            have hpos := hskips.pos byte
            have hle := hskips.le byte
            rw [if_neg (by decide), hget, Option.bind_some, u4Sub_of_le (by omega) (by omega)]
            apply ih
            · omega
            · omega
            · intro j hj hjlt
              rcases Nat.lt_trichotomy j base with hlt | rfl | hgt
              · exact hnone j hj hlt
              · exact fun hoccurs ↦ absurd (hhere.mpr hoccurs) (by decide)
              · exact hskips.not_occursAt hsub hget hgt hjlt
            · omega
      · rw [if_neg hfits, firstFrom_eq_none_iff.mpr]
        intro j hj hoccurs
        by_cases hbefore : j < base
        · exact hnone j hj hbefore hoccurs
        · have hle := hoccurs.add_length_le hne
          omega

/-- `bh_search` from an offset on, with the lengths of the rest of the text and of the pattern. -/
theorem bhSearch_eq (hsub : sub ≠ []) (hlt : str.length < 4294967296) (hbase : base ≤ str.length) :
    bhSearch str base (str.length - base) sub sub.length = some (firstFrom sub str base) := by
  have hpos := List.length_pos_of_ne_nil hsub
  rw [bhSearch]
  by_cases hshort : str.length - base < sub.length
  · rw [if_pos (.inr hshort), firstFrom_of_length_lt hsub (by omega)]
  · obtain ⟨anchor, hanchor⟩ : ∃ anchor, sub.length = anchor + 1 := ⟨sub.length - 1, by omega⟩
    rcases skipBuf_spec hanchor (by omega) with ⟨skip, hskip, hskips⟩
    have hone : u4Sub (anchor + 1) 1 = anchor := by
      rw [u4Sub_of_le (by omega) (by omega)]
      omega
    rw [if_neg (by omega)]
    simp only [hanchor, hone, hskip, Option.bind_eq_bind, Option.bind_some]
    exact searchLoop_spec hskips hanchor hlt (by omega) (le_refl _) (fun j hj hjlt ↦ absurd hjlt (by omega))
      (Nat.lt_succ_self _)

/-- `bh_search` ends, reads nothing outside of the text and the pattern, and returns the first
occurrence, or `nil` if there is none. -/
theorem bhSearch_exact (hsub : sub ≠ []) (hlt : str.length < 4294967296) :
    ∃ found, bhSearch str 0 str.length sub sub.length = some found ∧
      (∀ i, found = some i ↔ OccursAt sub str i ∧ ∀ j < i, ¬ OccursAt sub str j) ∧
      (found = none ↔ ∀ i, ¬ OccursAt sub str i) := by
  refine ⟨leftmost sub str, ?_, fun i ↦ leftmost_eq_some_iff, leftmost_eq_none_iff⟩
  have hsearch := bhSearch_eq hsub hlt (Nat.zero_le _)
  rw [Nat.sub_zero] at hsearch
  rw [hsearch, firstFrom_zero]

theorem bhSearch_exact_small :
    ∃ found, bhSearch [97, 0, 98, 0, 98, 200] 0 6 [98, 200] 2 = some found ∧ found = some 4 := by
  have hsub : ([98, 200] : Bytes) ≠ [] := by decide
  have hlt : ([97, 0, 98, 0, 98, 200] : Bytes).length < 4294967296 := by decide
  rcases bhSearch_exact hsub hlt with ⟨found, hsearch, hsome, -⟩
  exact ⟨found, hsearch, (hsome 4).mpr (by decide)⟩

end CPractice.Str
