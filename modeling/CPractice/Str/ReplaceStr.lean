import CPractice.Str.Strstr

/-!
# `_replace_str` of `lisk_string.c`

The function walks over the occurrences that `_strstr` returns and copies what stands between them.  The
replacement is only written together with such a piece, so at the front of the string and directly
behind another occurrence it is left out.  As `_strstr` goes on from its static cursor, the walk begins
in the middle if the last search for the same two pointers was not finished.
-/

namespace CPractice.Str

open Lib

/-! ## The function -/

/-- `while (IS_NNL(_strstr(str, pattern)));` -/
def drain (str pat : CStr) : ℕ → Statics → Option Statics
  | 0, _ => none
  | turns + 1, st => do
      let (sub, st) ← strstr st (some str) (some pat)
      if sub.isSome then drain str pat turns st else some st

/-- The loop from a pointer into the string on.  `limit` is `dst_len` after it was lowered, and an empty
`rep` is the flag for deletion. -/
def replaceLoop (str pat : CStr) (rep : Bytes) (limit : ℕ) :
    ℕ → Statics → ℕ → Bytes → Option (Bytes × Statics)
  | 0, _, _, _ => none
  | turns + 1, st, start, dst =>
      let strEnd := str.addr + str.strlen
      if start < strEnd then do
        let (sub, st) ← strstr st (some str) (some pat)
        match sub with
        | none =>
            if limit < (cstr dst).length + (strEnd - start) then some (dst, st)
            else do
              let dst ← strncat dst (str.bytes.drop (start - str.addr)) (strEnd - start)
              some (dst, st)
        | some sub =>
            if start < sub then
              if limit < (cstr dst).length + (sub - start) then do
                let st ← drain str pat (str.strlen + 2) st
                some (dst, st)
              else do
                let dst ← strncat dst (str.bytes.drop (start - str.addr)) (sub - start)
                if rep = [] then replaceLoop str pat rep limit turns st (sub + pat.strlen) dst
                else if limit < (cstr dst).length + rep.length then do
                  let st ← drain str pat (str.strlen + 2) st
                  some (dst, st)
                else do
                  let dst ← strncat dst rep rep.length
                  replaceLoop str pat rep limit turns st (sub + pat.strlen) dst
            else replaceLoop str pat rep limit turns st (sub + pat.strlen) dst
      else some (dst, st)

/-- `_replace_str`: the value returned, the destination and the static variables of `_strstr`. -/
def replaceStr (st : Statics) (str pat rep : Option CStr) (dst : Option Bytes) (dstLen : ℤ) :
    Option (ℤ × Option Bytes × Statics) :=
  match str, pat with
  | some str, some pat =>
      if dst = none ∨ str.strlen ≤ pat.strlen ∨ dstLen < 2 ∨ sizeT dstLen < str.strlen then
        some (-1, dst, st)
      else do
        let dst ← clear dst dstLen
        let (dst, st) ← replaceLoop str pat (text rep) (dstLen - 1).toNat (str.strlen + 1) st str.addr dst
        some (0, some dst, st)
  | _, _ => some (-1, dst, st)

/-! ## What it is for and what it writes -/

variable {α : Type*}

/-- The text from a position on with every piece of the length `count` at one of the positions
replaced. -/
def replaced (text rep : List α) (count : ℕ) : ℕ → List ℕ → List α
  | start, [] => text.drop start
  | start, i :: rest => (text.take i).drop start ++ rep ++ replaced text rep count (i + count) rest

/-- The same without the replacements that no piece of the text stands in front of. -/
def written (text rep : List α) (count : ℕ) : ℕ → List ℕ → List α
  | start, [] => text.drop start
  | start, i :: rest =>
      if start < i then (text.take i).drop start ++ rep ++ written text rep count (i + count) rest
      else written text rep count (i + count) rest

/-- Something stands in front of each of the positions. -/
def Separated (count : ℕ) : ℕ → List ℕ → Prop
  | _, [] => True
  | start, i :: rest => start < i ∧ Separated count (i + count) rest

section Written

variable {body rep : List α} {count start : ℕ} {positions : List ℕ}

theorem written_cons {i : ℕ} {rest : List ℕ} :
    written body rep count start (i :: rest) =
      (if start < i then (body.take i).drop start ++ rep else []) ++
        written body rep count (i + count) rest := by
  rw [written]
  split <;> rfl

theorem written_eq (h : rep = [] ∨ Separated count start positions) :
    written body rep count start positions = replaced body rep count start positions := by
  induction positions generalizing start with
  | nil => rfl
  | cons i rest ih =>
      rw [written, replaced]
      by_cases hlt : start < i
      · rw [if_pos hlt, ih (h.imp id And.right)]
      · have hrep : rep = [] := h.resolve_right fun hsep ↦ hlt hsep.1
        have hnil : (body.take i).drop start = [] := by
          rw [List.drop_eq_nil_iff, List.length_take]
          omega
        rw [if_neg hlt, ih (.inl hrep), hnil, hrep, List.nil_append, List.nil_append]

theorem length_written_le (body rep : List α) (count start : ℕ) (positions : List ℕ) :
    (written body rep count start positions).length ≤
      (replaced body rep count start positions).length := by
  induction positions generalizing start with
  | nil => exact le_refl _
  | cons i rest ih =>
      have hrest := ih (i + count)
      rw [written, replaced]
      split
      · simp only [List.length_append]
        omega
      · simp only [List.length_append]
        omega

theorem length_written_lt (hrep : rep ≠ []) (h : ¬ Separated count start positions) :
    (written body rep count start positions).length <
      (replaced body rep count start positions).length := by
  have hpos := List.length_pos_of_ne_nil hrep
  induction positions generalizing start with
  | nil => exact absurd trivial h
  | cons i rest ih =>
      rw [written, replaced]
      by_cases hlt : start < i
      · have hrest := ih fun hsep ↦ h ⟨hlt, hsep⟩
        rw [if_pos hlt]
        simp only [List.length_append]
        omega
      · have hrest := length_written_le body rep count (i + count) rest
        rw [if_neg hlt]
        simp only [List.length_append]
        omega

theorem mem_of_mem_replaced {a : α} (h : a ∈ replaced body rep count start positions) :
    a ∈ body ∨ a ∈ rep := by
  induction positions generalizing start with
  | nil => exact .inl (List.mem_of_mem_drop h)
  | cons i rest ih =>
      rw [replaced] at h
      simp only [List.mem_append] at h
      rcases h with (hbody | hrep) | hrest
      · exact .inl (List.mem_of_mem_take (List.mem_of_mem_drop hbody))
      · exact .inr hrep
      · exact ih hrest

end Written

/-! ## The walk -/

/-- The destination with a string in it. -/
def buffer (limit : ℕ) (s : Bytes) : Bytes := filled s (limit + 1 - s.length) []

theorem cstr_buffer {limit : ℕ} {s : Bytes} (hs : 0 ∉ s) (hle : s.length ≤ limit) :
    cstr (buffer limit s) = s :=
  cstr_filled hs (by omega)

theorem strncat_buffer {limit count : ℕ} {s src : Bytes} (hs : 0 ∉ s)
    (hle : s.length + (src.take count).length ≤ limit) :
    strncat (buffer limit s) src count = some (buffer limit (s ++ src.take count)) := by
  have hcongr : src.take count = (src.take count).take (src.take count).length :=
    List.take_length.symm
  rw [strncat_congr hcongr, buffer, strncat_eq hs (by omega), buffer, List.length_append,
    Nat.sub_sub]

variable {str pat : CStr} {st : Statics} {start : ℕ}

/-- The next call of `_strstr` goes on from a position of the string. -/
def Follows (str pat : CStr) (st : Statics) (start : ℕ) : Prop :=
  start < str.strlen →
    ∃ st', strstrOn st str pat = some ((firstFrom pat.bytes str.bytes start).map (str.addr + ·), st') ∧
      ∀ i, firstFrom pat.bytes str.bytes start = some i →
        Keyed st' str pat ∧ st'.cursor = some (str.addr + (i + pat.strlen))

section Walk

variable (hpat : pat.bytes ≠ []) (hlt : str.strlen < 4294967296) (hshort : pat.strlen < str.strlen)
include hpat hlt hshort

theorem follows_of_not_keyed (hst : ¬ Keyed st str pat) : Follows str pat st 0 := by
  intro _
  refine ⟨_, strstrOn_fresh hpat hlt hshort hst, fun i hi ↦ ⟨⟨rfl, rfl⟩, ?_⟩⟩
  simp only [hi, Option.map_some, Nat.add_assoc]

theorem follows_of_keyed (hst : Keyed st str pat) (hcursor : st.cursor = some (str.addr + start)) :
    Follows str pat st start := by
  intro hstart
  have hcall := strstrOn_keyed hpat hlt hshort hst hcursor hstart
  cases hfirst : firstFrom pat.bytes str.bytes start with
  | none =>
      rw [hfirst] at hcall
      exact ⟨_, hcall, fun i hi ↦ by cases hi⟩
  | some i =>
      rw [hfirst] at hcall
      refine ⟨_, hcall, fun j hj ↦ ?_⟩
      cases hj
      refine ⟨hst, ?_⟩
      simp only [Nat.add_assoc]

/-- If the pattern does not occur at all, the static variables do not matter. -/
theorem follows_of_hits_nil (hnil : hits str pat = []) : Follows str pat st 0 := by
  have hnone : ∀ from', firstFrom pat.bytes str.bytes from' = none := by
    have hfirst : firstFrom pat.bytes str.bytes 0 = none := by
      rw [← occurrencesFrom_getElem?_zero hpat]
      exact congrArg (fun list ↦ list[0]?) hnil
    intro from'
    rw [firstFrom_eq_none_iff] at hfirst ⊢
    exact fun j _ ↦ hfirst j (Nat.zero_le _)
  by_cases hst : Keyed st str pat
  · intro _
    suffices hcall : ∃ st', strstrOn st str pat = some (none, st') by
      rcases hcall with ⟨st', hcall⟩
      rw [hnone 0]
      exact ⟨st', hcall, fun i hi ↦ by cases hi⟩
    cases hcursor : st.cursor with
    | none =>
        refine ⟨st, ?_⟩
        rw [strstrOn, if_neg (by omega), if_pos hst, hcursor]
    | some cursor =>
        by_cases hinside : str.addr ≤ cursor ∧ cursor < str.addr + str.strlen
        · have hcursor' : st.cursor = some (str.addr + (cursor - str.addr)) := by
            rw [hcursor, Nat.add_sub_cancel' hinside.1]
          have hcall := strstrOn_keyed hpat hlt hshort hst hcursor' (by omega)
          rw [hnone] at hcall
          exact ⟨_, hcall⟩
        · refine ⟨st, ?_⟩
          rw [strstrOn, if_neg (by omega), if_pos hst, hcursor]
          simp only
          rw [if_pos (by omega)]
  · exact follows_of_not_keyed hpat hlt hshort hst

omit hpat hlt hshort in
/-- One turn that finds an occurrence. -/
theorem replaceLoop_hit {turns limit i : ℕ} {st' : Statics} {s rep : Bytes}
    (hcall : strstrOn st str pat = some (some (str.addr + i), st')) (hstart : start < str.strlen)
    (hi : i ≤ str.strlen) (hs : 0 ∉ s)
    (hroom : (s ++ if start < i then (str.bytes.take i).drop start ++ rep else []).length ≤ limit) :
    replaceLoop str pat rep limit (turns + 1) st (str.addr + start) (buffer limit s) =
      replaceLoop str pat rep limit turns st' (str.addr + (i + pat.strlen))
        (buffer limit (s ++ if start < i then (str.bytes.take i).drop start ++ rep else [])) := by
  rw [replaceLoop]
  simp only [show str.addr + start < str.addr + str.strlen by omega, if_true, strstr, hcall,
    Option.bind_eq_bind, Option.bind_some, Nat.add_sub_cancel_left, Nat.add_sub_add_left,
    Nat.add_lt_add_iff_left, Nat.add_assoc]
  by_cases hpiece : start < i
  · simp only [if_pos hpiece] at hroom ⊢
    set piece := (str.bytes.take i).drop start with hpieceDef
    have hslice : (str.bytes.drop start).take (i - start) = piece := by
      rw [hpieceDef, List.drop_take]
    have hlen : piece.length = i - start := by
      unfold CStr.strlen at hi
      rw [hpieceDef, List.length_drop, List.length_take]
      omega
    have hnulFree : 0 ∉ s ++ piece := nul_free_append hs fun hmem ↦
      str.nul_free (List.mem_of_mem_take (List.mem_of_mem_drop hmem))
    simp only [List.length_append] at hroom
    rw [cstr_buffer hs (by omega), if_neg (by omega),
      strncat_buffer hs (by rw [hslice]; omega), hslice, Option.bind_some]
    by_cases hdel : rep = []
    · rw [if_pos hdel, hdel, List.append_nil]
    · rw [if_neg hdel, cstr_buffer hnulFree (by rw [List.length_append]; omega), List.length_append,
        if_neg (by omega), strncat_buffer hnulFree (by
          rw [List.take_length, List.length_append]
          omega), List.take_length, Option.bind_some, List.append_assoc]
  · simp only [if_neg hpiece, List.append_nil]

/-- The loop appends what is written from its position on, if there is room for that. -/
theorem replaceLoop_eq {turns limit : ℕ} {s rep : Bytes} (hst : Follows str pat st start)
    (hstart : start ≤ str.strlen) (hturns : str.strlen < start + turns) (hs : 0 ∉ s) (hrep : 0 ∉ rep)
    (hroom : s.length + (written str.bytes rep pat.strlen start
      (occurrencesFrom pat.bytes str.bytes start)).length ≤ limit) :
    ∃ st', replaceLoop str pat rep limit turns st (str.addr + start) (buffer limit s) =
      some (buffer limit (s ++ written str.bytes rep pat.strlen start
        (occurrencesFrom pat.bytes str.bytes start)), st') := by
  have hpos : 0 < pat.strlen := List.length_pos_of_ne_nil hpat
  induction turns generalizing st start s with
  | zero => omega
  | succ turns ih =>
      by_cases hinside : start < str.strlen
      · rcases hst hinside with ⟨st', hcall, hnext⟩
        cases hfirst : firstFrom pat.bytes str.bytes start with
        | none =>
            -- The rest of the string is copied.
            have hrest : (str.bytes.drop start).take (str.strlen - start) = str.bytes.drop start :=
              List.take_of_length_le (by rw [List.length_drop]; rfl)
            have hlen : (str.bytes.drop start).length = str.strlen - start := List.length_drop
            rw [occurrencesFrom_none hfirst, written] at hroom ⊢
            refine ⟨st', ?_⟩
            rw [replaceLoop]
            simp only [show str.addr + start < str.addr + str.strlen by omega, if_true, strstr, hcall,
              hfirst, Option.map_none, Option.bind_eq_bind, Option.bind_some, Nat.add_sub_cancel_left,
              Nat.add_sub_add_left]
            rw [cstr_buffer hs (by omega), if_neg (by omega),
              strncat_buffer hs (by rw [hrest]; exact hroom), hrest]
            rfl
        | some i =>
            rcases hnext i hfirst with ⟨hkeyed, hcursor⟩
            have hle := (firstFrom_eq_some_iff.mp hfirst).1
            have hend : i + pat.strlen ≤ str.strlen := firstFrom_add_length_le hfirst hpat
            have hocc : occurrencesFrom pat.bytes str.bytes start =
                i :: occurrencesFrom pat.bytes str.bytes (i + pat.strlen) :=
              occurrencesFrom_some hpat hfirst
            rw [hocc, written_cons, List.length_append] at hroom
            rw [hfirst] at hcall
            have hnulFree : 0 ∉ s ++ if start < i then (str.bytes.take i).drop start ++ rep else [] := by
              refine nul_free_append hs ?_
              split
              · refine nul_free_append (fun hmem ↦ ?_) hrep
                exact str.nul_free (List.mem_of_mem_take (List.mem_of_mem_drop hmem))
              · exact List.not_mem_nil
            rcases ih (follows_of_keyed hpat hlt hshort hkeyed hcursor) hend (by omega) hnulFree (by
              rw [List.length_append]
              omega) with ⟨stEnd, hloop⟩
            refine ⟨stEnd, ?_⟩
            rw [replaceLoop_hit hcall hinside (by omega) hs (by rw [List.length_append]; omega), hloop,
              hocc, written_cons, List.append_assoc]
      · have hnone := firstFrom_of_length_lt hpat (show str.bytes.length < start + pat.bytes.length by
          unfold CStr.strlen at *
          omega)
        have hdrop : str.bytes.drop start = [] := List.drop_eq_nil_iff.mpr (Nat.not_lt.mp hinside)
        refine ⟨st, ?_⟩
        rw [replaceLoop, if_neg (by omega), occurrencesFrom_none hnone, written, hdrop, List.append_nil]

end Walk

/-! ## Calls one after the other -/

/-- A call of one of the two functions that read and write the static variables. -/
inductive StrCall
  | strstr (str pat : Option CStr)
  | replaceStr (str pat rep : Option CStr) (dst : Option Bytes) (dstLen : ℤ)

def StrCall.run (st : Statics) : StrCall → Option Statics
  | .strstr str pat => (Str.strstr st str pat).map Prod.snd
  | .replaceStr str pat rep dst dstLen => (Str.replaceStr st str pat rep dst dstLen).map (·.2.2)

def runCalls (st : Statics) (calls : List StrCall) : Option Statics := calls.foldlM StrCall.run st

/-- The string with all occurrences of the pattern replaced. -/
def replacedText (str pat : CStr) (rep : Option CStr) : Bytes :=
  replaced str.bytes (text rep) pat.strlen 0 (occurrences pat.bytes str.bytes)

/-- The call returns zero and the destination holds the string with all occurrences replaced. -/
def Replaces (st : Statics) (str pat : CStr) (rep : Option CStr) (dst : Bytes) : Prop :=
  ∃ dst' st', replaceStr st (some str) (some pat) rep (some dst) dst.length = some (0, some dst', st') ∧
    ∃ rest, dst' = replacedText str pat rep ++ 0 :: rest

variable {rep : Option CStr} {dst : Bytes}

theorem nul_free_replacedText : 0 ∉ replacedText str pat rep := by
  intro h
  rcases mem_of_mem_replaced h with hstr | hrep
  · exact str.nul_free hstr
  · exact nul_free_text rep hrep

/-- A destination that passes the test and has room for the whole result. -/
theorem replaceStr_eq (hpat : pat.bytes ≠ []) (hshort : pat.strlen < str.strlen)
    (hst : ¬ Keyed st str pat ∨ occurrences pat.bytes str.bytes = []) (hlt : dst.length < 2147483648)
    (hroom : (replacedText str pat rep).length + 1 ≤ dst.length) (htwo : 2 ≤ dst.length)
    (hstr : str.strlen ≤ dst.length) :
    ∃ st', replaceStr st (some str) (some pat) rep (some dst) dst.length =
      some (0, some (buffer (dst.length - 1)
        (written str.bytes (text rep) pat.strlen 0 (occurrences pat.bytes str.bytes))), st') := by
  have hlen : str.strlen < 4294967296 := by omega
  have hfollows : Follows str pat st 0 := by
    rcases hst with hkeyed | hnil
    · exact follows_of_not_keyed hpat hlen hshort hkeyed
    · exact follows_of_hits_nil hpat hlen hshort hnil
  have hle := length_written_le str.bytes (text rep) pat.strlen 0 (occurrences pat.bytes str.bytes)
  have hclear : clear (some dst) dst.length = some (buffer (dst.length - 1) []) := by
    rw [clear_eq (by omega) (le_refl _) (by omega), List.drop_length, buffer, List.length_nil,
      show dst.length - 1 + 1 - 0 = dst.length by omega]
  have hturns : str.strlen < 0 + (str.strlen + 1) := by omega
  have hfits : ([] : Bytes).length + (written str.bytes (text rep) pat.strlen 0
      (occurrencesFrom pat.bytes str.bytes 0)).length ≤ dst.length - 1 := by
    unfold replacedText at hroom
    rw [List.length_nil, Nat.zero_add]
    exact hle.trans (by omega)
  rcases replaceLoop_eq hpat hlen hshort hfollows (Nat.zero_le _) hturns List.not_mem_nil
    (nul_free_text rep) hfits with ⟨st', hloop⟩
  have hlimit : ((dst.length : ℤ) - 1).toNat = dst.length - 1 := by omega
  refine ⟨st', ?_⟩
  rw [replaceStr, if_neg, hclear, hlimit]
  · simp only [Option.bind_eq_bind, Option.bind_some]
    rw [show str.addr + 0 = str.addr from rfl] at hloop
    rw [hloop]
    rfl
  · rw [sizeT_natCast (by omega)]
    rintro (h | h | h | h)
    · cases h
    · omega
    · omega
    · omega

/-- A destination that the test refuses. -/
theorem replaceStr_refused (hlt : dst.length < 2147483648)
    (h : dst.length < 2 ∨ dst.length < str.strlen) :
    replaceStr st (some str) (some pat) rep (some dst) dst.length = some (-1, some dst, st) := by
  rw [replaceStr, if_pos]
  rw [sizeT_natCast (by omega)]
  rcases h with h | h
  · exact .inr (.inr (.inl (by omega)))
  · exact .inr (.inr (.inr h))

/-- After any calls, with a destination long enough for the result: if the static variables do not stand
for these two pointers or there is no occurrence, then all occurrences are replaced if and only if the
destination is also no shorter than two bytes and the string, and nothing is put in for them or
something stands in front of each. -/
theorem replaceStr_replaces_iff {calls : List StrCall} (_hcalls : runCalls .init calls = some st)
    (hpat : pat.bytes ≠ []) (hshort : pat.strlen < str.strlen) (hlt : dst.length < 2147483648)
    (hroom : (replacedText str pat rep).length + 1 ≤ dst.length)
    (hst : ¬ Keyed st str pat ∨ occurrences pat.bytes str.bytes = []) :
    Replaces st str pat rep dst ↔
      2 ≤ dst.length ∧ str.strlen ≤ dst.length ∧
        (text rep = [] ∨ Separated pat.strlen 0 (occurrences pat.bytes str.bytes)) := by
  constructor
  · rintro ⟨dst', st', hcode, rest, hdst⟩
    have hpasses : 2 ≤ dst.length ∧ str.strlen ≤ dst.length := by
      by_contra hnot
      rw [replaceStr_refused hlt (by omega)] at hcode
      cases hcode
    refine ⟨hpasses.1, hpasses.2, ?_⟩
    by_contra hbad
    rw [not_or] at hbad
    rcases replaceStr_eq hpat hshort hst hlt hroom hpasses.1 hpasses.2 with ⟨st'', hcode'⟩
    rw [hcode'] at hcode
    cases hcode
    -- What is written is shorter, so its terminator would stand inside of the result.
    have hlen : (written str.bytes (text rep) pat.strlen 0
        (occurrences pat.bytes str.bytes)).length < (replacedText str pat rep).length :=
      length_written_lt hbad.1 hbad.2
    generalize written str.bytes (text rep) pat.strlen 0 (occurrences pat.bytes str.bytes) = code
      at hdst hlen
    obtain ⟨zeros, hzeros⟩ : ∃ zeros, buffer (dst.length - 1) code = code ++ 0 :: zeros :=
      filled_eq (by omega)
    rw [hzeros] at hdst
    have hget := congrArg (fun bytes ↦ bytes[code.length]?) hdst
    simp only [List.getElem?_append_right (le_refl code.length), Nat.sub_self,
      List.getElem?_cons_zero, List.getElem?_append_left hlen] at hget
    exact nul_free_replacedText (List.mem_of_getElem? hget.symm)
  · rintro ⟨htwo, hstr, hrep⟩
    rcases replaceStr_eq hpat hshort hst hlt hroom htwo hstr with ⟨st', hcode⟩
    rw [written_eq hrep] at hcode
    rcases filled_eq (show 0 < dst.length - 1 + 1 - (replacedText str pat rep).length by omega) with
      ⟨rest, hrest⟩
    exact ⟨_, st', hcode, rest, hrest⟩

/-- `"abxaby"` and `"c"` in memory. -/
def abxaby : CStr := .literal 4096 [97, 98, 120, 97, 98, 121] (by decide)

@[inherit_doc abxaby]
def repC : CStr := .literal 12288 [99] (by decide)

theorem replaceStr_replaces_iff_xabyab :
    Replaces .init xabyab ab (some repC) [9, 9, 9, 9, 9, 9, 9] := by
  have hkeyed : ¬ Keyed .init xabyab ab := by decide
  have hcalls : runCalls .init [] = some .init := rfl
  have hseparated : Separated ab.strlen 0 (occurrences ab.bytes xabyab.bytes) := by
    rw [show occurrences ab.bytes xabyab.bytes = [1, 4] by decide]
    exact ⟨by decide, by decide, trivial⟩
  exact (replaceStr_replaces_iff hcalls (by decide) (by decide) (by decide) (by decide)
    (.inl hkeyed)).mpr ⟨by decide, by decide, .inr hseparated⟩

/-- The `"ab"` at the front of `"abxaby"` is dropped and not replaced. -/
theorem replaceStr_drops_front :
    ¬ Replaces .init abxaby ab (some repC) [9, 9, 9, 9, 9, 9, 9] := by
  rintro ⟨dst, st, hcode, rest, hdst⟩
  have hrun : (replaceStr .init (some abxaby) (some ab) (some repC) (some [9, 9, 9, 9, 9, 9, 9]) 7).map
      (fun out ↦ out.2.1) = some (some [120, 99, 121, 0, 0, 0, 0]) := by decide +kernel
  have hcode' : (some (0, some dst, st) : Option (ℤ × Option Bytes × Statics)).map
      (fun out ↦ out.2.1) = some (some [120, 99, 121, 0, 0, 0, 0]) := by
    rw [← hrun, ← hcode]
    rfl
  rw [Option.map_some, Option.some_inj, Option.some_inj] at hcode'
  rw [hcode', show replacedText abxaby ab (some repC) = [99, 120, 99, 121] by decide] at hdst
  cases hdst

end CPractice.Str
