import CPractice.Str.Search
import CPractice.Str.Buffer
import Mathlib.Data.Nat.ModEq

/-!
# `_strstr` and `_strstr_r` of `lisk_string.c`

`_strstr` keeps the two pointers of its last call and a cursor behind its last hit in static
variables; a call with the same pointers goes on from the cursor.  The cursor is only followed as long as
it points into the string, so the enumeration gets stuck behind an occurrence that ends the string.
`_strstr_r` searches forward from the end of each hit and keeps the last one.
-/

namespace CPractice.Str

open Lib

variable {str pat : CStr}

/-- `bh_search` in the rest of a string, as all callers write it: both lengths come from `strlen` and
are cut to `u4`. -/
def searchFrom (str : CStr) (start : ℕ) (pat : CStr) : Option (Option ℕ) :=
  bhSearch str.bytes start (u4 (str.strlen - start)) pat.bytes (u4 pat.strlen)

theorem searchFrom_eq {start : ℕ} (hpat : pat.bytes ≠ []) (hlt : str.strlen < 4294967296)
    (hshort : pat.strlen < str.strlen) (hstart : start ≤ str.strlen) :
    searchFrom str start pat = some (firstFrom pat.bytes str.bytes start) := by
  rw [searchFrom, u4_of_lt (by omega), u4_of_lt (by omega)]
  exact bhSearch_eq hpat hlt hstart

/-! ## `_strstr` -/

/-- The static variables, `none` for `nil`. -/
structure Statics where
  lastStr : Option ℕ
  lastPat : Option ℕ
  cursor : Option ℕ
deriving DecidableEq

/-- The static variables before the first call. -/
def Statics.init : Statics := ⟨none, none, none⟩

/-- The last call had the same two pointers. -/
def Keyed (st : Statics) (str pat : CStr) : Prop :=
  st.lastStr = some str.addr ∧ st.lastPat = some pat.addr

instance (st : Statics) (str pat : CStr) : Decidable (Keyed st str pat) :=
  inferInstanceAs (Decidable (_ ∧ _))

/-- `_strstr` of two strings that are not `nil`. -/
def strstrOn (st : Statics) (str pat : CStr) : Option (Option ℕ × Statics) :=
  if str.strlen ≤ pat.strlen then some (none, st)
  else if Keyed st str pat then
    match st.cursor with
    | none => some (none, st)
    | some cursor =>
        if cursor < str.addr ∨ str.addr + str.strlen - 1 < cursor then some (none, st)
        else do
          let ret ← searchFrom str (cursor - str.addr) pat
          match ret with
          | some hit =>
              some (some (str.addr + hit), { st with cursor := some (str.addr + hit + pat.strlen) })
          | none => some (none, ⟨none, none, none⟩)
  else do
    let ret ← searchFrom str 0 pat
    some (ret.map (str.addr + ·),
      ⟨some str.addr, some pat.addr, ret.map (str.addr + · + pat.strlen)⟩)

/-- `_strstr`: the pointer it returns and the static variables behind it. -/
def strstr (st : Statics) : Option CStr → Option CStr → Option (Option ℕ × Statics)
  | some str, some pat => strstrOn st str pat
  | _, _ => some (none, st)

/-- Calls of `_strstr` one after the other. -/
def strstrs (st : Statics) : List (Option CStr × Option CStr) → Option (List (Option ℕ) × Statics)
  | [] => some ([], st)
  | (str, pat) :: calls => do
      let (ret, st') ← strstr st str pat
      let (rets, st'') ← strstrs st' calls
      some (ret :: rets, st'')

/-- The call has the pointers of the two strings. -/
def SamePointers (call : Option CStr × Option CStr) (str pat : CStr) : Prop :=
  call.1.map CStr.addr = some str.addr ∧ call.2.map CStr.addr = some pat.addr

/-- A call on other strings does not leave its statics behind for these. -/
theorem strstr_not_keyed {call : Option CStr × Option CStr} {st st' : Statics} {ret : Option ℕ}
    (hother : ¬ SamePointers call str pat) (hst : ¬ Keyed st str pat)
    (h : strstr st call.1 call.2 = some (ret, st')) : ¬ Keyed st' str pat := by
  rcases call with ⟨_ | other, _ | otherPat⟩
  · cases h
    exact hst
  · cases h
    exact hst
  · cases h
    exact hst
  · simp only [strstr, strstrOn] at h
    split at h
    · cases h
      exact hst
    · split at h
      · rename_i hkeyed
        split at h
        · cases h
          exact hst
        · split at h
          · cases h
            exact hst
          · rcases Option.bind_eq_some_iff.mp h with ⟨found, -, hfound⟩
            cases found with
            | some hit =>
                cases hfound
                exact hst
            | none =>
                cases hfound
                rintro ⟨hstr, -⟩
                cases hstr
      · rcases Option.bind_eq_some_iff.mp h with ⟨found, -, hfound⟩
        cases hfound
        exact hother

theorem strstrs_not_keyed {calls : List (Option CStr × Option CStr)} {st st' : Statics}
    {rets : List (Option ℕ)} (hother : ∀ call ∈ calls, ¬ SamePointers call str pat)
    (hst : ¬ Keyed st str pat) (h : strstrs st calls = some (rets, st')) : ¬ Keyed st' str pat := by
  induction calls generalizing st rets with
  | nil =>
      cases h
      exact hst
  | cons call calls ih =>
      rcases Option.bind_eq_some_iff.mp h with ⟨⟨ret, stMid⟩, hcall, hrest⟩
      rcases Option.bind_eq_some_iff.mp hrest with ⟨⟨rets', stEnd⟩, hcalls, hsome⟩
      cases hsome
      exact ih (fun other hmem ↦ hother other (List.mem_cons_of_mem _ hmem))
        (strstr_not_keyed (hother call List.mem_cons_self) hst hcall) hcalls

/-! ### The calls on one string -/

/-- The occurrences `_strstr` is to return. -/
def hits (str pat : CStr) : List ℕ := occurrences pat.bytes str.bytes

/-- How many occurrences have been returned since the last start.  After the first, the cursor stands
behind the last one returned. -/
def Phase (str pat : CStr) (st : Statics) : ℕ → Prop
  | 0 => ¬ Keyed st str pat ∨ (hits str pat = [] ∧ Keyed st str pat ∧ st.cursor = none)
  | j + 1 => ∃ i, (hits str pat)[j]? = some i ∧ Keyed st str pat ∧
      st.cursor = some (str.addr + (i + pat.strlen))

/-- Behind an occurrence that ends the string `nil` is returned forever. -/
theorem strstrOn_stuck {st : Statics} (hkeyed : Keyed st str pat)
    (hcursor : st.cursor = some (str.addr + str.strlen)) :
    strstrOn st str pat = some (none, st) := by
  unfold strstrOn
  by_cases hlong : str.strlen ≤ pat.strlen
  · rw [if_pos hlong]
  · rw [if_neg hlong, if_pos hkeyed]
    simp only [hcursor]
    rw [if_pos (.inr (by omega))]

section Calls

variable {st : Statics} {i j : ℕ} (hpat : pat.bytes ≠ []) (hlt : str.strlen < 4294967296)
  (hshort : pat.strlen < str.strlen)
include hpat hlt hshort

/-- A call that goes on from the cursor. -/
theorem strstrOn_keyed {start : ℕ} (hkeyed : Keyed st str pat)
    (hcursor : st.cursor = some (str.addr + start)) (hstart : start < str.strlen) :
    strstrOn st str pat =
      match firstFrom pat.bytes str.bytes start with
      | some hit =>
          some (some (str.addr + hit), { st with cursor := some (str.addr + hit + pat.strlen) })
      | none => some (none, ⟨none, none, none⟩) := by
  have hsearch := searchFrom_eq hpat hlt hshort (Nat.le_of_lt hstart)
  rw [strstrOn, if_neg (by omega), if_pos hkeyed]
  simp only [hcursor]
  rw [if_neg (by omega), Nat.add_sub_cancel_left, hsearch]
  rfl

/-- A call that starts from the front. -/
theorem strstrOn_fresh (hkeyed : ¬ Keyed st str pat) :
    strstrOn st str pat =
      some ((firstFrom pat.bytes str.bytes 0).map (str.addr + ·),
        ⟨some str.addr, some pat.addr,
          (firstFrom pat.bytes str.bytes 0).map (str.addr + · + pat.strlen)⟩) := by
  rw [strstrOn, if_neg (by omega), if_neg hkeyed, searchFrom_eq hpat hlt hshort (Nat.zero_le _)]
  rfl

/-- As long as there is a next occurrence, it is returned. -/
theorem strstrOn_next (hphase : Phase str pat st j) (hnext : (hits str pat)[j]? = some i) :
    ∃ st', strstrOn st str pat = some (some (str.addr + i), st') ∧ Phase str pat st' (j + 1) := by
  have hpos := List.length_pos_of_ne_nil hpat
  cases j with
  | zero =>
      rcases hphase with hkeyed | ⟨hnil, -, -⟩
      · have hfirst : firstFrom pat.bytes str.bytes 0 = some i := by
          rw [← occurrencesFrom_getElem?_zero hpat]
          exact hnext
        refine ⟨⟨some str.addr, some pat.addr, some (str.addr + (i + pat.strlen))⟩,
          (strstrOn_fresh hpat hlt hshort hkeyed).trans ?_, i, hnext, ⟨rfl, rfl⟩, rfl⟩
        rw [hfirst, Option.map_some, Option.map_some, Nat.add_assoc]
      · rw [hnil] at hnext
        cases hnext
  | succ j =>
      rcases hphase with ⟨k, hk, hkeyed, hcursor⟩
      have hfirst : firstFrom pat.bytes str.bytes (k + pat.strlen) = some i := by
        rw [CStr.strlen, ← occurrencesFrom_getElem?_succ hpat hk]
        exact hnext
      have hle := (firstFrom_eq_some_iff.mp hfirst).1
      have hend := firstFrom_add_length_le hfirst hpat
      have hstart : k + pat.strlen < str.strlen := by
        unfold CStr.strlen at hle ⊢
        omega
      refine ⟨{ st with cursor := some (str.addr + (i + pat.strlen)) },
        (strstrOn_keyed hpat hlt hshort hkeyed hcursor hstart).trans ?_, i, hnext, hkeyed, rfl⟩
      simp only [hfirst, Nat.add_assoc]

/-- Behind the last occurrence `nil` is returned, and the next call starts over: if the cursor still
points into the string. -/
theorem strstrOn_last (hphase : Phase str pat st j) (hnone : (hits str pat)[j]? = none)
    (hend : ∀ k i, j = k + 1 → (hits str pat)[k]? = some i → i + pat.strlen < str.strlen) :
    ∃ st', strstrOn st str pat = some (none, st') ∧ Phase str pat st' 0 := by
  cases j with
  | zero =>
      have hnil : hits str pat = [] := by
        rw [List.getElem?_eq_none_iff] at hnone
        exact List.eq_nil_of_length_eq_zero (by omega)
      rcases hphase with hkeyed | ⟨-, hkeyed, hcursor⟩
      · have hfirst : firstFrom pat.bytes str.bytes 0 = none := by
          rw [← occurrencesFrom_getElem?_zero hpat]
          exact hnone
        refine ⟨⟨some str.addr, some pat.addr, none⟩,
          (strstrOn_fresh hpat hlt hshort hkeyed).trans ?_, .inr ⟨hnil, ⟨rfl, rfl⟩, rfl⟩⟩
        rw [hfirst, Option.map_none, Option.map_none]
      · refine ⟨st, ?_, .inr ⟨hnil, hkeyed, hcursor⟩⟩
        rw [strstrOn, if_neg (by omega), if_pos hkeyed, hcursor]
  | succ j =>
      rcases hphase with ⟨k, hk, hkeyed, hcursor⟩
      have hfirst : firstFrom pat.bytes str.bytes (k + pat.strlen) = none := by
        rw [CStr.strlen, ← occurrencesFrom_getElem?_succ hpat hk]
        exact hnone
      refine ⟨⟨none, none, none⟩, ?_, .inl ?_⟩
      · rw [strstrOn_keyed hpat hlt hshort hkeyed hcursor (hend j k rfl hk), hfirst]
      · rintro ⟨hstr, -⟩
        cases hstr

/-- The calls follow the occurrences round and round. -/
theorem strstrs_round (hend : ∀ i, (hits str pat).getLast? = some i → i + pat.strlen ≠ str.strlen)
    (hphase : Phase str pat st j) (hj : j ≤ (hits str pat).length) (k : ℕ) :
    ∃ st', strstrs st (List.replicate k (some str, some pat)) =
      some ((List.range k).map fun t ↦
        ((hits str pat)[(j + t) % ((hits str pat).length + 1)]?).map (str.addr + ·), st') := by
  induction k generalizing st j with
  | zero => exact ⟨st, rfl⟩
  | succ k ih =>
      have hmod : j % ((hits str pat).length + 1) = j := Nat.mod_eq_of_lt (by omega)
      -- One call, then the rest of them from the next phase.
      suffices hstep : ∃ st', strstrOn st str pat =
          some (((hits str pat)[j]?).map (str.addr + ·), st') ∧
            Phase str pat st' ((j + 1) % ((hits str pat).length + 1)) by
        rcases hstep with ⟨stMid, hcall, hphase'⟩
        rcases ih hphase' (Nat.le_of_lt_succ (Nat.mod_lt _ (Nat.succ_pos _))) with ⟨stEnd, hcalls⟩
        refine ⟨stEnd, ?_⟩
        simp only [List.replicate_succ, strstrs, strstr, hcall, hcalls, Option.bind_eq_bind,
          Option.bind_some, List.range_succ_eq_map, List.map_cons, List.map_map, Nat.add_zero, hmod]
        congr 3
        apply List.map_congr_left
        intro t _
        simp only [Function.comp_apply, Nat.mod_add_mod]
        rw [show j + 1 + t = j + t.succ by omega]
      cases hnext : (hits str pat)[j]? with
      | some i =>
          have hlen := (List.getElem?_eq_some_iff.mp hnext).1
          rw [Nat.mod_eq_of_lt (by omega)]
          exact strstrOn_next hpat hlt hshort hphase hnext
      | none =>
          have hlen := List.getElem?_eq_none_iff.mp hnext
          rw [show j = (hits str pat).length by omega, Nat.mod_self]
          apply strstrOn_last hpat hlt hshort hphase hnext
          rintro l i rfl hl
          have hlast : (hits str pat).getLast? = some i := by
            rw [List.getLast?_eq_getElem?, ← hl, show (hits str pat).length - 1 = l by omega]
          have hle := (occursAt_of_mem_occurrencesFrom hpat
            (List.mem_of_getElem? hl)).add_length_le hpat
          exact Nat.lt_of_le_of_ne hle (hend i hlast)

/-- Calls bring the cursor from one occurrence to a later one. -/
theorem strstrs_to_phase (hphase : Phase str pat st j) (k : ℕ) (hk : j + k ≤ (hits str pat).length) :
    ∃ rets st', strstrs st (List.replicate k (some str, some pat)) = some (rets, st') ∧
      rets.length = k ∧ Phase str pat st' (j + k) := by
  induction k generalizing st j with
  | zero => exact ⟨[], st, rfl, rfl, hphase⟩
  | succ k ih =>
      have hget := List.getElem?_eq_getElem (show j < (hits str pat).length by omega)
      rcases strstrOn_next hpat hlt hshort hphase hget with ⟨stMid, hcall, hphase'⟩
      rcases ih hphase' (by omega) with ⟨rets, stEnd, hcalls, hlen, hphaseEnd⟩
      refine ⟨some (str.addr + (hits str pat)[j]) :: rets, stEnd, ?_, ?_, ?_⟩
      · simp only [List.replicate_succ, strstrs, strstr, hcall, hcalls, Option.bind_eq_bind,
          Option.bind_some]
      · rw [List.length_cons, hlen]
      · rwa [show j + (k + 1) = j + 1 + k by omega]

end Calls

theorem strstrs_append {st stMid stEnd : Statics} {calls calls' : List (Option CStr × Option CStr)}
    {rets rets' : List (Option ℕ)} (h : strstrs st calls = some (rets, stMid))
    (h' : strstrs stMid calls' = some (rets', stEnd)) :
    strstrs st (calls ++ calls') = some (rets ++ rets', stEnd) := by
  induction calls generalizing st rets with
  | nil =>
      cases h
      exact h'
  | cons call calls ih =>
      rcases Option.bind_eq_some_iff.mp h with ⟨⟨ret, stNext⟩, hcall, hrest⟩
      rcases Option.bind_eq_some_iff.mp hrest with ⟨⟨rets₀, stRest⟩, hcalls, hsome⟩
      cases hsome
      simp only [List.cons_append, strstrs, hcall, ih hcalls, Option.bind_eq_bind, Option.bind_some]

/-- Calls that each return `nil` and leave the static variables alone. -/
theorem strstrs_nil {st : Statics} (h : strstrOn st str pat = some (none, st)) (k : ℕ) :
    strstrs st (List.replicate k (some str, some pat)) = some (List.replicate k none, st) := by
  induction k with
  | zero => rfl
  | succ k ih =>
      simp only [List.replicate_succ, strstrs, strstr, h, ih, Option.bind_eq_bind, Option.bind_some]

/-- Any number of calls returns the occurrences from left to right, then `nil`, and then the same
again. -/
def Enumerates (st : Statics) (str pat : CStr) : Prop :=
  ∀ k, ∃ st', strstrs st (List.replicate k (some str, some pat)) =
    some ((List.range k).map fun t ↦
      ((hits str pat)[t % ((hits str pat).length + 1)]?).map (str.addr + ·), st')

/-- A pattern that is no shorter than the string is not looked for. -/
theorem enumerates_iff_of_le {st : Statics} (hpat : pat.bytes ≠ []) (hlong : str.strlen ≤ pat.strlen) :
    Enumerates st str pat ↔ ∀ i, (hits str pat).getLast? = some i → i + pat.strlen ≠ str.strlen := by
  have hcall : strstrOn st str pat = some (none, st) := by
    rw [strstrOn, if_pos hlong]
  constructor
  · intro h i hlast _
    obtain ⟨first, rest, hhits⟩ := List.exists_cons_of_ne_nil (List.ne_nil_of_mem
      (List.mem_of_getLast? hlast))
    rcases h 1 with ⟨st', hone⟩
    rw [strstrs_nil hcall, Option.some_inj, Prod.mk.injEq, hhits] at hone
    have himpossible := hone.1
    simp at himpossible
  · intro h k
    have hnil : hits str pat = [] := by
      by_contra hne
      have hlast := List.getLast?_eq_getLast_of_ne_nil hne
      have hle := (occursAt_of_mem_occurrencesFrom hpat
        (List.getLast_mem hne)).add_length_le hpat
      have hne' := h _ hlast
      unfold CStr.strlen at hlong hne'
      omega
    refine ⟨st, (strstrs_nil hcall k).trans ?_⟩
    rw [hnil]
    simp

/-- Behind an occurrence that ends the string the calls do not start over. -/
theorem not_enumerates_of_end {st : Statics} {i : ℕ} (hpat : pat.bytes ≠ [])
    (hlt : str.strlen < 4294967296) (hshort : pat.strlen < str.strlen) (hst : ¬ Keyed st str pat)
    (hlast : (hits str pat).getLast? = some i) (hend : i + pat.strlen = str.strlen) :
    ¬ Enumerates st str pat := by
  intro h
  obtain ⟨first, rest, hhits⟩ := List.exists_cons_of_ne_nil (List.ne_nil_of_mem
    (List.mem_of_getLast? hlast))
  have hphase : Phase str pat st 0 := .inl hst
  rcases strstrs_to_phase hpat hlt hshort hphase (hits str pat).length (by omega) with
    ⟨rets, stMid, hcalls, hlen, hphase'⟩
  rw [hhits, List.length_cons, Nat.zero_add] at hphase'
  rcases hphase' with ⟨k, hk, hkeyed, hcursor⟩
  -- The occurrence in front of the cursor is the last one.
  have hki : k = i := by
    rw [List.getLast?_eq_getElem?, hhits, List.length_cons, Nat.add_sub_cancel, ← hhits, hk] at hlast
    exact Option.some.inj hlast
  rw [hki, hend] at hcursor
  have hall := strstrs_append hcalls (strstrs_nil (strstrOn_stuck hkeyed hcursor) 2)
  rw [← List.replicate_add] at hall
  rcases h ((hits str pat).length + 2) with ⟨stEnd, hexpected⟩
  rw [hexpected, Option.some_inj, Prod.mk.injEq] at hall
  have hget := congrArg (fun list ↦ list[(hits str pat).length + 1]?) hall.1
  simp only [List.getElem?_map, List.getElem?_range (show (hits str pat).length + 1 <
      (hits str pat).length + 2 by omega), Option.map_some, Nat.mod_self] at hget
  rw [List.getElem?_append_right (by omega), hlen, Nat.add_sub_cancel_left] at hget
  rw [hhits] at hget
  simp at hget

/-- `"xabyab"`, `"xaby"` and `"ab"` in memory. -/
def xabyab : CStr := .literal 4096 [120, 97, 98, 121, 97, 98] (by decide)

@[inherit_doc xabyab]
def xaby : CStr := .literal 4096 [120, 97, 98, 121] (by decide)

@[inherit_doc xabyab]
def ab : CStr := .literal 8192 [97, 98] (by decide)

/-- The loop of `_strstr_r`, from `start` and with the last hit so far. -/
def strstrRLoop (str pat : CStr) : ℕ → ℕ → Option ℕ → Option (Option ℕ)
  | 0, _, _ => none
  | turns + 1, start, lastRet =>
      if start < str.strlen then do
        let ret ← searchFrom str start pat
        match ret with
        | none => some lastRet
        | some hit => strstrRLoop str pat turns (hit + pat.strlen) (some hit)
      else some lastRet

def strstrR : Option CStr → Option CStr → Option (Option ℕ)
  | some str, some pat =>
      if str.strlen ≤ pat.strlen then some none
      else (strstrRLoop str pat (str.strlen + 1) 0 none).map (·.map (str.addr + ·))
  | _, _ => some none

theorem strstrRLoop_eq {turns start : ℕ} {lastRet : Option ℕ} (hpat : pat.bytes ≠ [])
    (hlt : str.strlen < 4294967296) (hshort : pat.strlen < str.strlen)
    (hstart : start ≤ str.strlen) (hturns : str.strlen < start + turns) :
    strstrRLoop str pat turns start lastRet =
      some ((occurrencesFrom pat.bytes str.bytes start).getLast?.or lastRet) := by
  have hpos := List.length_pos_of_ne_nil hpat
  induction turns generalizing start lastRet with
  | zero => omega
  | succ turns ih =>
      rw [strstrRLoop]
      by_cases hinside : start < str.strlen
      · rw [if_pos hinside, searchFrom_eq hpat hlt hshort hstart]
        cases hfirst : firstFrom pat.bytes str.bytes start with
        | none =>
            rw [occurrencesFrom_none hfirst]
            rfl
        | some hit =>
            have hle := (firstFrom_eq_some_iff.mp hfirst).1
            have hend : hit + pat.strlen ≤ str.strlen := firstFrom_add_length_le hfirst hpat
            have hmore : str.strlen < hit + pat.strlen + turns := by
              unfold CStr.strlen at hturns ⊢
              omega
            simp only [Option.bind_eq_bind, Option.bind_some]
            rw [ih hend hmore, occurrencesFrom_some hpat hfirst, List.getLast?_cons, Option.or_some,
              Option.some_or]
            rfl
      · have hnone := firstFrom_of_length_lt hpat (show str.bytes.length < start + pat.bytes.length by
          unfold CStr.strlen at hinside
          omega)
        rw [if_neg hinside, occurrencesFrom_none hnone]
        rfl

/-- `_strstr_r` returns the last of the occurrences that a search from hit to hit meets. -/
theorem strstrR_eq (hpat : pat.bytes ≠ []) (hlt : str.strlen < 4294967296)
    (hshort : pat.strlen < str.strlen) :
    strstrR (some str) (some pat) = some ((hits str pat).getLast?.map (str.addr + ·)) := by
  rw [strstrR, if_neg (by omega), strstrRLoop_eq hpat hlt hshort (Nat.zero_le _) (by omega),
    Option.or_none]
  rfl

/-- The rightmost occurrence, overlapping ones included. -/
def IsRightmost (str pat : CStr) (i : ℕ) : Prop :=
  OccursAt pat.bytes str.bytes i ∧ ∀ j, i < j → ¬ OccursAt pat.bytes str.bytes j

/-- What the header says of `_strstr_r`. -/
def FindsLast (str pat : CStr) : Prop :=
  ∃ ret, strstrR (some str) (some pat) = some ret ∧
    (∀ i, ret = some (str.addr + i) ↔ IsRightmost str pat i) ∧
    (ret = none ↔ ∀ i, ¬ OccursAt pat.bytes str.bytes i)

theorem IsRightmost.unique {i j : ℕ} (hi : IsRightmost str pat i) (hj : IsRightmost str pat j) :
    i = j := by
  rcases Nat.lt_trichotomy i j with hlt | heq | hgt
  · exact absurd hj.1 (hi.2 j hlt)
  · exact heq
  · exact absurd hi.1 (hj.2 i hgt)

theorem not_occursAt_of_length_eq (hlen : pat.strlen = str.strlen) (hne : pat.bytes ≠ str.bytes)
    (i : ℕ) : ¬ OccursAt pat.bytes str.bytes i := by
  intro hoccurs
  have hdrop : (str.bytes.drop i).length ≤ pat.bytes.length := by
    unfold CStr.strlen at hlen
    rw [List.length_drop]
    omega
  have heq := hoccurs.eq_of_length_le hdrop
  have hall := (List.drop_suffix i str.bytes).eq_of_length (heq ▸ hlen)
  exact hne (heq.trans hall)

/-- A pattern as long as the string is not looked for. -/
theorem findsLast_iff_of_length_eq (hlen : pat.strlen = str.strlen) :
    FindsLast str pat ↔ pat.bytes ≠ str.bytes := by
  have hcode : strstrR (some str) (some pat) = some none := by
    rw [strstrR, if_pos (by omega)]
  constructor
  · rintro ⟨ret, hret, -, hnone⟩ heq
    rw [hcode, Option.some_inj] at hret
    refine hnone.mp hret.symm 0 ?_
    rw [heq]
    exact List.prefix_rfl
  · intro hne
    have hnot := not_occursAt_of_length_eq hlen hne
    refine ⟨none, hcode, fun i ↦ ?_, iff_of_true rfl hnot⟩
    exact iff_of_false (fun h ↦ by cases h) fun h ↦ hnot i h.1

/-- The last hit is the rightmost occurrence if no occurrence begins inside of it. -/
theorem findsLast_of_not_inside (hpat : pat.bytes ≠ []) (hlt : str.strlen < 4294967296)
    (hshort : pat.strlen < str.strlen)
    (hinside : ∀ i, (hits str pat).getLast? = some i →
      ∀ j, i < j → j < i + pat.strlen → ¬ OccursAt pat.bytes str.bytes j) :
    FindsLast str pat := by
  have hcode := strstrR_eq hpat hlt hshort
  cases hlast : (hits str pat).getLast? with
  | none =>
      rw [List.getLast?_eq_none_iff] at hlast
      have hfirst : firstFrom pat.bytes str.bytes 0 = none := by
        rw [← occurrencesFrom_getElem?_zero hpat]
        exact congrArg (fun list ↦ list[0]?) hlast
      have hnot : ∀ i, ¬ OccursAt pat.bytes str.bytes i :=
        fun i ↦ firstFrom_eq_none_iff.mp hfirst i (Nat.zero_le _)
      rw [hlast] at hcode
      refine ⟨none, hcode, fun i ↦ ?_, iff_of_true rfl hnot⟩
      exact iff_of_false (fun h ↦ by cases h) fun h ↦ hnot i h.1
  | some i =>
      have hright : IsRightmost str pat i := by
        refine ⟨occursAt_of_mem_occurrencesFrom hpat (List.mem_of_getLast? hlast), fun j hj ↦ ?_⟩
        rcases Nat.lt_or_ge j (i + pat.strlen) with hin | hbehind
        · exact hinside i hlast j hj hin
        · exact firstFrom_eq_none_iff.mp (firstFrom_of_getLast? hpat hlast) j hbehind
      rw [hlast] at hcode
      refine ⟨some (str.addr + i), hcode, fun j ↦ ?_, ?_⟩
      · rw [Option.some_inj, Nat.add_left_cancel_iff]
        exact ⟨fun heq ↦ heq ▸ hright, hright.unique⟩
      · exact iff_of_false (fun h ↦ by cases h) fun h ↦ h i hright.1

/-- `_strstr_r` finds the rightmost occurrence if and only if the pattern is not the string itself and
no occurrence begins inside of the last one that the search from hit to hit meets. -/
theorem strstrR_findsLast_iff (hpat : pat.bytes ≠ []) (hle : pat.strlen ≤ str.strlen)
    (hlt : str.strlen < 4294967296) :
    FindsLast str pat ↔
      pat.bytes ≠ str.bytes ∧
        ∀ i, (occurrences pat.bytes str.bytes).getLast? = some i →
          ∀ j, i < j → j < i + pat.strlen → ¬ OccursAt pat.bytes str.bytes j := by
  rcases Nat.lt_or_eq_of_le hle with hshort | hlen
  · constructor
    · rintro ⟨ret, hret, hsome, -⟩
      refine ⟨?_, fun i hlast j hj _ ↦ ?_⟩
      · intro heq
        unfold CStr.strlen at hshort
        rw [heq] at hshort
        omega
      · rw [strstrR_eq hpat hlt hshort, Option.some_inj, hits, hlast] at hret
        exact ((hsome i).mp hret.symm).2 j hj
    · rintro ⟨-, hinside⟩
      exact findsLast_of_not_inside hpat hlt hshort hinside
  · rw [findsLast_iff_of_length_eq hlen]
    refine ⟨fun hne ↦ ⟨hne, fun i hlast ↦ ?_⟩, And.left⟩
    exact absurd (occursAt_of_mem_occurrencesFrom hpat (List.mem_of_getLast? hlast))
      (not_occursAt_of_length_eq hlen hne i)

theorem strstrR_findsLast_iff_xabyab : FindsLast xabyab ab := by
  have hcond : ab.bytes ≠ xabyab.bytes ∧
      ∀ i, (occurrences ab.bytes xabyab.bytes).getLast? = some i →
        ∀ j, i < j → j < i + ab.strlen → ¬ OccursAt ab.bytes xabyab.bytes j := by
    refine ⟨by decide, fun i hi j hj hlt ↦ ?_⟩
    rw [show (occurrences ab.bytes xabyab.bytes).getLast? = some 4 by decide] at hi
    cases hi
    have hj' : j = 5 := by
      have hlen : ab.strlen = 2 := rfl
      omega
    rw [hj']
    decide
  exact (strstrR_findsLast_iff (by decide) (by decide) (by decide)).mpr hcond

/-- `"aaa"` and `"aa"` in memory. -/
def aaa : CStr := .literal 4096 [97, 97, 97] (by decide)

@[inherit_doc aaa]
def aa : CStr := .literal 8192 [97, 97] (by decide)

/-- In `"aaa"` the first `"aa"` is returned, not the second one. -/
theorem strstrR_misses_overlap : ¬ FindsLast aaa aa := by
  rintro ⟨ret, hret, hsome, -⟩
  have hcode : strstrR (some aaa) (some aa) = some (some 4096) := by decide +kernel
  rw [hcode, Option.some_inj] at hret
  have hright := (hsome 0).mp hret.symm
  exact hright.2 1 (by decide) (by decide)

end CPractice.Str
