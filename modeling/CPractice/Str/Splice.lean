import CPractice.Str.Buffer

/-!
# `_insert`, `_merge`, `_replace` and `_delete` of `lisk_string.c`

Each function compares the length of the destination with a minimum of its own and builds the result
with `strncat`.  The minimum of `_insert` is a `size_t`, those of `_merge` and `_replace` are cut to an
`n4`; `_merge` of two strings that are not empty hands the destination on to `_insert` with its length
already lowered by one, so a destination that just fits is refused.
-/

namespace CPractice.Str

/-! ## The functions -/

/-- The value returned and the destination; `none` if there is a write outside of it. -/
abbrev Written := Option (ℤ × Option Bytes)

def insert (str : Option CStr) (pos : ℤ) (subStr : Option CStr) (dst : Option Bytes) (dstLen : ℤ) :
    Written :=
  match str, subStr with
  | some str, some subStr =>
      if str.strlen = 0 ∨ pos < 0 ∨ str.strlen < sizeT pos ∨ subStr.strlen = 0 ∨
          sizeT dstLen < u8 (str.strlen + subStr.strlen + 1) then some (-1, dst)
      else do
        let dst ← clear dst dstLen
        let dst ← strncat dst str.bytes (sizeT pos)
        let dst ← strncat dst subStr.bytes subStr.strlen
        let dst ← strncat dst (str.bytes.drop pos.toNat) (str.strlen - sizeT pos)
        some (0, some dst)
  | _, _ => some (-1, dst)

def merge (first second : Option CStr) (dst : Option Bytes) (dstLen : ℤ) : Written :=
  let flag1 := text first = []
  let flag2 := text second = []
  let minDstLen := n4 (n4 (1 + (text first).length) + (text second).length)
  if (flag1 ∧ flag2) ∨ dst = none ∨ dstLen < minDstLen then some (-1, dst)
  else do
    let dst ← clear dst dstLen
    if ¬ flag1 ∧ flag2 then do
      let dst ← strncat dst (text first) (text first).length
      some (0, some dst)
    else if flag1 ∧ ¬ flag2 then do
      let dst ← strncat dst (text second) (text second).length
      some (0, some dst)
    else insert first (n4 (text first).length) second (some dst) (dstLen - 1)

/-- The minimum that `_replace` computes. -/
def replaceMin (str : CStr) (len : ℤ) (rep : Option CStr) : ℤ :=
  let minDstLen := n4 (1 + str.strlen)
  if 0 < len then
    match rep with
    | some rep => n4 (n4 (minDstLen - len) + rep.strlen)
    | none => n4 (minDstLen - len)
  else minDstLen

def replace (str : Option CStr) (pos len : ℤ) (rep : Option CStr) (dst : Option Bytes) (dstLen : ℤ) :
    Written :=
  match str with
  | none => some (-1, dst)
  | some str =>
      if str.strlen = 0 ∨ pos < 0 ∨ str.strlen - 1 < sizeT pos ∨ len ≤ 0 ∨
          str.strlen < sizeT (n4 (pos + len)) ∨ dst = none ∨ dstLen < replaceMin str len rep then
        some (-1, dst)
      else do
        let dst ← clear dst dstLen
        let dst ← strncat dst str.bytes (sizeT pos)
        let dst ← if text rep ≠ [] then strncat dst (text rep) (text rep).length else some dst
        let dst ← strncat dst (str.bytes.drop (pos + len).toNat) (str.strlen - sizeT (n4 (pos + len)))
        some (0, some dst)

def delete (str : Option CStr) (pos len : ℤ) (dst : Option Bytes) (dstLen : ℤ) : Written :=
  replace str pos len none dst dstLen

/-! ## The calls and what they are for -/

inductive SpliceCall
  | insert (str : CStr) (pos : ℤ) (subStr : CStr)
  | merge (first second : Option CStr)
  | replace (str : CStr) (pos len : ℤ) (rep : Option CStr)
  | delete (str : CStr) (pos len : ℤ)

namespace SpliceCall

/-- The call on a destination, with its length. -/
def run (dst : Bytes) : SpliceCall → Written
  | .insert str pos subStr => Str.insert (some str) pos (some subStr) (some dst) dst.length
  | .merge first second => Str.merge first second (some dst) dst.length
  | .replace str pos len rep => Str.replace (some str) pos len rep (some dst) dst.length
  | .delete str pos len => Str.delete (some str) pos len (some dst) dst.length

/-- The spliced string. -/
def result : SpliceCall → Bytes
  | .insert str pos subStr => str.bytes.take pos.toNat ++ subStr.bytes ++ str.bytes.drop pos.toNat
  | .merge first second => text first ++ text second
  | .replace str pos len rep =>
      str.bytes.take pos.toNat ++ text rep ++ str.bytes.drop (pos + len).toNat
  | .delete str pos len => str.bytes.take pos.toNat ++ str.bytes.drop (pos + len).toNat

/-- Positions and lengths are in range, and `_merge` does not get `nil` twice. -/
def InRange : SpliceCall → Prop
  | .insert str pos _ => 0 ≤ pos ∧ pos < 2147483648 ∧ pos ≤ str.strlen
  | .merge first second => first ≠ none ∨ second ≠ none
  | .replace str pos len _ | .delete str pos len =>
      0 ≤ pos ∧ pos < 2147483648 ∧ 0 < len ∧ len < 2147483648 ∧ pos + len ≤ str.strlen

/-- The call returns zero if and only if the result and its terminator fit, and then the destination
holds the result. -/
def Exact (call : SpliceCall) (dst : Bytes) : Prop :=
  ∃ ret dst', call.run dst = some (ret, some dst') ∧
    (ret = 0 ↔ call.result.length + 1 ≤ dst.length) ∧
    (ret = 0 → ∃ rest, dst' = call.result ++ 0 :: rest)

end SpliceCall

/-! ## Writing and refusing -/

/-- The part of a call that writes: the destination is cleared and the pieces are appended. -/
def write (dst : Option Bytes) (dstLen : ℤ) (pieces : List Bytes) : Written := do
  let dst ← clear dst dstLen
  let dst ← strncatAll dst pieces
  some (0, some dst)

theorem write_eq {dst : Bytes} {len : ℕ} {pieces : List Bytes} (hpieces : ∀ piece ∈ pieces, 0 ∉ piece)
    (hle : len ≤ dst.length) (hlt : len < 2147483648) (hfits : pieces.flatten.length + 1 ≤ len) :
    ∃ rest, write (some dst) len pieces = some (0, some (pieces.flatten ++ 0 :: rest)) := by
  obtain ⟨rest, hrest⟩ : ∃ rest, filled pieces.flatten (len - pieces.flatten.length) (dst.drop len) =
      pieces.flatten ++ 0 :: rest := filled_eq (by omega)
  refine ⟨rest, ?_⟩
  rw [write, clear_eq (by omega) hle (by omega), Option.bind_eq_bind, Option.bind_some,
    strncatAll_eq List.not_mem_nil hpieces (by omega), List.nil_append, hrest]
  rfl

theorem write_none {dst : Bytes} {pieces : List Bytes} (hpieces : ∀ piece ∈ pieces, 0 ∉ piece)
    (hlt : dst.length < 2147483648) (hfits : dst.length < pieces.flatten.length + 1) :
    write (some dst) dst.length pieces = none := by
  rcases Nat.eq_zero_or_pos dst.length with hzero | hpos
  · have hclear : clear (some dst) dst.length = none := by
      rw [hzero]
      exact clear_zero dst
    rw [write, hclear]
    rfl
  · rw [write, clear_eq hpos (le_refl _) (by omega), Option.bind_eq_bind, Option.bind_some,
      List.drop_length, strncatAll_none List.not_mem_nil hpieces hpos (by omega)]
    rfl

namespace SpliceCall

variable {call : SpliceCall} {dst : Bytes}

/-- A call that writes is exact if and only if its result fits. -/
theorem exact_of_write {pieces : List Bytes} (hpieces : ∀ piece ∈ pieces, 0 ∉ piece)
    (hresult : pieces.flatten = call.result) (hlt : dst.length < 2147483648)
    (hrun : call.run dst = write (some dst) dst.length pieces) :
    call.Exact dst ↔ call.result.length + 1 ≤ dst.length := by
  constructor
  · rintro ⟨ret, dst', hrun', -, -⟩
    by_contra hfits
    rw [hrun, write_none hpieces hlt (by rw [hresult]; omega)] at hrun'
    cases hrun'
  · intro hfits
    rcases write_eq hpieces (le_refl dst.length) hlt (by rw [hresult]; exact hfits) with ⟨rest, hwrite⟩
    refine ⟨0, _, hrun.trans hwrite, iff_of_true rfl hfits, fun _ ↦ ⟨rest, ?_⟩⟩
    rw [hresult]

/-- A call that refuses is exact if and only if its result does not fit. -/
theorem exact_of_refused {dst' : Bytes} (hrun : call.run dst = some (-1, some dst')) :
    call.Exact dst ↔ dst.length < call.result.length + 1 := by
  constructor
  · rintro ⟨ret, dst'', hrun', hfits, -⟩
    rw [hrun] at hrun'
    cases hrun'
    rw [← Nat.not_le, ← hfits]
    decide
  · intro hfits
    refine ⟨-1, dst', hrun, iff_of_false (by decide) (by omega), fun h ↦ absurd h (by decide)⟩

end SpliceCall

/-! ## `_insert` -/

/-- The pieces that `_insert` writes. -/
def insertPieces (str subStr : CStr) (pos : ℕ) : List Bytes :=
  [str.bytes.take pos, subStr.bytes, str.bytes.drop pos]

theorem nul_free_insertPieces {str subStr : CStr} {pos : ℕ} {piece : Bytes}
    (h : piece ∈ insertPieces str subStr pos) : 0 ∉ piece := by
  simp only [insertPieces, List.mem_cons, List.not_mem_nil, or_false] at h
  rcases h with rfl | rfl | rfl
  · exact fun hmem ↦ str.nul_free (List.mem_of_mem_take hmem)
  · exact subStr.nul_free
  · exact fun hmem ↦ str.nul_free (List.mem_of_mem_drop hmem)

theorem insert_write {str subStr : CStr} {pos len : ℕ} {dst : Option Bytes} (hstr : str.bytes ≠ [])
    (hsub : subStr.bytes ≠ []) (hpos : pos ≤ str.strlen) (hlt : len < 2147483648)
    (hfits : str.strlen + subStr.strlen + 1 ≤ len) :
    insert (some str) pos (some subStr) dst len =
      write dst len (insertPieces str subStr pos) := by
  have hstrPos := List.length_pos_of_ne_nil hstr
  have hsubPos := List.length_pos_of_ne_nil hsub
  have hsize : sizeT (pos : ℤ) = pos := sizeT_natCast (by omega)
  rw [insert, if_neg]
  · have hfirst (dst : Bytes) : strncat dst str.bytes pos =
        strncat dst (str.bytes.take pos) (str.bytes.take pos).length :=
      strncat_congr List.take_length.symm
    have hlast (dst : Bytes) : strncat dst (str.bytes.drop pos) (str.strlen - pos) =
        strncat dst (str.bytes.drop pos) (str.bytes.drop pos).length := by
      rw [List.length_drop]
      rfl
    simp only [hsize, Int.toNat_natCast, hfirst, hlast, write, insertPieces, strncatAll,
      List.foldlM_cons, List.foldlM_nil, Option.bind_eq_bind, Option.bind_assoc, Option.pure_def,
    Option.bind_some]
    rfl
  · rw [hsize, sizeT_natCast (by omega), u8_of_lt (by omega)]
    unfold CStr.strlen at *
    omega

/-- `_insert` refuses what does not fit, at any position. -/
theorem insert_refused {str subStr : CStr} {pos : ℤ} {len : ℕ} {dst : Option Bytes}
    (hlt : len < 2147483648) (hfits : len < str.strlen + subStr.strlen + 1) :
    insert (some str) pos (some subStr) dst len = some (-1, dst) := by
  have hstrLt := str.strlen_lt
  have hsubLt := subStr.strlen_lt
  rw [insert, if_pos]
  rw [sizeT_natCast (by omega), u8_of_lt (by omega)]
  exact .inr (.inr (.inr (.inr hfits)))

/-- `_insert` refuses empty strings. -/
theorem insert_refused_of_empty {str subStr : CStr} {pos dstLen : ℤ} {dst : Option Bytes}
    (hempty : str.bytes = [] ∨ subStr.bytes = []) :
    insert (some str) pos (some subStr) dst dstLen = some (-1, dst) := by
  rw [insert, if_pos]
  rcases hempty with hstr | hsub
  · exact .inl (List.length_eq_zero_iff.mpr hstr)
  · exact .inr (.inr (.inr (.inl (List.length_eq_zero_iff.mpr hsub))))

/-! ## `_merge` -/

theorem merge_min (first second : Option CStr) :
    n4 (n4 (1 + (text first).length) + (text second).length) =
      n4 ((SpliceCall.merge first second).result.length + 1) := by
  rw [n4_n4_add, SpliceCall.result, List.length_append]
  congr 1
  push_cast
  omega

/-- A destination of at least the minimum is cleared. -/
theorem merge_passes {first second : Option CStr} {dst : Bytes}
    (hsome : text first ≠ [] ∨ text second ≠ [])
    (hmin : n4 ((SpliceCall.merge first second).result.length + 1) ≤ dst.length) :
    merge first second (some dst) dst.length =
      (clear (some dst) dst.length).bind fun cleared ↦
        if ¬ text first = [] ∧ text second = [] then
          (strncat cleared (text first) (text first).length).bind fun dst ↦ some (0, some dst)
        else if text first = [] ∧ ¬ text second = [] then
          (strncat cleared (text second) (text second).length).bind fun dst ↦ some (0, some dst)
        else insert first (n4 (text first).length) second (some cleared) (dst.length - 1) := by
  rw [← merge_min] at hmin
  rw [merge, if_neg]
  · rfl
  rintro (⟨hfirst, hsecond⟩ | hnil | hlt)
  · rcases hsome with h | h
    · exact h hfirst
    · exact h hsecond
  · cases hnil
  · omega

/-- With one string empty, `_merge` copies the other one. -/
theorem merge_write {first second : Option CStr} {dst : Bytes}
    (hone : text first = [] ∨ text second = []) (hsome : text first ≠ [] ∨ text second ≠ [])
    (hmin : n4 ((SpliceCall.merge first second).result.length + 1) ≤ dst.length) :
    merge first second (some dst) dst.length =
      write (some dst) dst.length [text first ++ text second] := by
  rw [merge_passes hsome hmin]
  rcases hone with hfirst | hsecond
  · have hsecond : text second ≠ [] := hsome.resolve_left fun h ↦ h hfirst
    simp only [hfirst, hsecond, write, strncatAll, List.foldlM_cons, List.foldlM_nil, not_true,
      if_false, not_false_eq_true, and_self, if_true, List.nil_append,
      Option.bind_eq_bind, Option.bind_assoc, Option.pure_def, Option.bind_some]
  · have hfirst : text first ≠ [] := hsome.resolve_right fun h ↦ h hsecond
    simp only [hfirst, hsecond, write, strncatAll, List.foldlM_cons, List.foldlM_nil, not_false_eq_true,
      and_self, if_true, List.append_nil, Option.bind_eq_bind, Option.bind_assoc, Option.pure_def,
      Option.bind_some]

theorem merge_refused {first second : Option CStr} {dst : Bytes}
    (hmin : (dst.length : ℤ) < n4 ((SpliceCall.merge first second).result.length + 1)) :
    merge first second (some dst) dst.length = some (-1, some dst) := by
  rw [← merge_min] at hmin
  rw [merge, if_pos (.inr (.inr hmin))]

/-- With neither string empty, `_merge` calls `_insert` on one byte less. -/
theorem merge_insert {first second : CStr} {dst : Bytes} (hfirst : first.bytes ≠ [])
    (hsecond : second.bytes ≠ []) (hpos : 0 < dst.length) (hlt : dst.length < 2147483648)
    (hmin : n4 ((SpliceCall.merge (some first) (some second)).result.length + 1) ≤ dst.length) :
    merge (some first) (some second) (some dst) dst.length =
      insert (some first) (n4 first.strlen) (some second) (some (filled [] dst.length []))
        (dst.length - 1 : ℕ) := by
  have htext : text (some first) ≠ [] := hfirst
  have htext' : text (some second) ≠ [] := hsecond
  have hlen : (dst.length : ℤ) - 1 = (dst.length - 1 : ℕ) := by omega
  rw [merge_passes (.inl htext) hmin, clear_eq hpos (le_refl _) (by omega), List.drop_length]
  simp only [htext, htext', Option.bind_some, and_false, false_and, if_false,
    not_false_eq_true, hlen]
  rfl

/-- An empty destination that passes the wrapped minimum is written in front of its first byte. -/
theorem merge_empty {first second : Option CStr} {dst : Bytes}
    (hsome : text first ≠ [] ∨ text second ≠ []) (hzero : dst.length = 0)
    (hmin : n4 ((SpliceCall.merge first second).result.length + 1) ≤ dst.length) :
    merge first second (some dst) dst.length = none := by
  have hclear : clear (some dst) dst.length = none := by
    rw [hzero]
    exact clear_zero dst
  rw [merge_passes hsome hmin, hclear]
  rfl

/-! ## `_replace` and `_delete` -/

theorem length_result_replace {str : CStr} {pos len : ℤ} {rep : Option CStr}
    (hrange : (SpliceCall.replace str pos len rep).InRange) :
    ((SpliceCall.replace str pos len rep).result.length : ℤ) =
      str.strlen - len + (text rep).length := by
  obtain ⟨hpos, -, hlen, -, hend⟩ := hrange
  unfold CStr.strlen at *
  simp only [SpliceCall.result, List.length_append, List.length_take, List.length_drop]
  omega

theorem replaceMin_eq {str : CStr} {pos len : ℤ} {rep : Option CStr}
    (hrange : (SpliceCall.replace str pos len rep).InRange) :
    replaceMin str len rep = n4 ((SpliceCall.replace str pos len rep).result.length + 1) := by
  rw [length_result_replace hrange]
  simp only [replaceMin, if_pos hrange.2.2.1]
  cases rep with
  | none =>
      simp only [n4_n4_sub]
      congr 1
      simp only [text, Option.map_none, Option.getD_none, List.length_nil]
      omega
  | some rep =>
      simp only [n4_n4_sub, n4_n4_add]
      congr 1
      simp only [text, Option.map_some, Option.getD_some, CStr.strlen]
      omega

/-- The pieces that `_replace` writes: an empty replacement is left out. -/
def replacePieces (str : CStr) (pos len : ℤ) (rep : Option CStr) : List Bytes :=
  if text rep ≠ [] then [str.bytes.take pos.toNat, text rep, str.bytes.drop (pos + len).toNat]
  else [str.bytes.take pos.toNat, str.bytes.drop (pos + len).toNat]

theorem flatten_replacePieces (str : CStr) (pos len : ℤ) (rep : Option CStr) :
    (replacePieces str pos len rep).flatten = (SpliceCall.replace str pos len rep).result := by
  rw [replacePieces, SpliceCall.result]
  split
  · simp
  · rename_i hnil
    rw [not_not.mp hnil]
    simp

theorem nul_free_replacePieces {str : CStr} {pos len : ℤ} {rep : Option CStr} {piece : Bytes}
    (h : piece ∈ replacePieces str pos len rep) : 0 ∉ piece := by
  have htake : 0 ∉ str.bytes.take pos.toNat := fun hmem ↦ str.nul_free (List.mem_of_mem_take hmem)
  have hdrop : 0 ∉ str.bytes.drop (pos + len).toNat :=
    fun hmem ↦ str.nul_free (List.mem_of_mem_drop hmem)
  have hrep := nul_free_text rep
  unfold replacePieces at h
  split at h
  · simp only [List.mem_cons, List.not_mem_nil, or_false] at h
    rcases h with rfl | rfl | rfl
    · exact htake
    · exact hrep
    · exact hdrop
  · simp only [List.mem_cons, List.not_mem_nil, or_false] at h
    rcases h with rfl | rfl
    · exact htake
    · exact hdrop

theorem replace_write {str : CStr} {pos len : ℤ} {rep : Option CStr} {dst : Bytes}
    (hrange : (SpliceCall.replace str pos len rep).InRange) (hsum : pos + len < 2147483648)
    (hmin : n4 ((SpliceCall.replace str pos len rep).result.length + 1) ≤ dst.length) :
    replace (some str) pos len rep (some dst) dst.length =
      write (some dst) dst.length (replacePieces str pos len rep) := by
  rw [← replaceMin_eq hrange] at hmin
  obtain ⟨hpos, hposLt, hlen, hlenLt, hend⟩ := hrange
  obtain ⟨front, rfl⟩ := Int.eq_ofNat_of_zero_le hpos
  obtain ⟨behind, hbehind⟩ := Int.eq_ofNat_of_zero_le (show 0 ≤ (front : ℤ) + len by omega)
  have hsizePos : sizeT (front : ℤ) = front := sizeT_natCast (by omega)
  have hsizeEnd : sizeT (n4 (front + len)) = behind := by
    rw [n4_of_lt (by omega) hsum, hbehind]
    exact sizeT_natCast (by omega)
  rw [replace, if_neg]
  · have hfirst (dst : Bytes) : strncat dst str.bytes front =
        strncat dst (str.bytes.take front) (str.bytes.take front).length :=
      strncat_congr List.take_length.symm
    have hlast (dst : Bytes) : strncat dst (str.bytes.drop behind) (str.strlen - behind) =
        strncat dst (str.bytes.drop behind) (str.bytes.drop behind).length := by
      rw [List.length_drop]
      rfl
    rw [hsizePos, hsizeEnd, hbehind]
    simp only [Int.toNat_natCast, hfirst, hlast, write, replacePieces, hbehind]
    by_cases hrep : text rep ≠ []
    · simp only [if_pos hrep, strncatAll, List.foldlM_cons, List.foldlM_nil, Option.bind_eq_bind,
        Option.bind_assoc, Option.pure_def, Option.bind_some]
    · simp only [if_neg hrep, strncatAll, List.foldlM_cons, List.foldlM_nil, Option.bind_eq_bind,
        Option.bind_assoc, Option.pure_def, Option.bind_some]
  · rw [hsizePos, hsizeEnd]
    unfold CStr.strlen at *
    rintro (h | h | h | h | h | h | h)
    · omega
    · omega
    · omega
    · omega
    · omega
    · cases h
    · omega

theorem replace_refused {str : CStr} {pos len : ℤ} {rep : Option CStr} {dst : Bytes}
    (hrange : (SpliceCall.replace str pos len rep).InRange)
    (h : 2147483648 ≤ pos + len ∨
      (dst.length : ℤ) < n4 ((SpliceCall.replace str pos len rep).result.length + 1)) :
    replace (some str) pos len rep (some dst) dst.length = some (-1, some dst) := by
  have hlt := str.strlen_lt
  rw [← replaceMin_eq hrange] at h
  obtain ⟨hpos, hposLt, hlen, hlenLt, hend⟩ := hrange
  rw [replace, if_pos]
  rcases h with hsum | hmin
  · have hneg := n4_of_le hsum (by omega)
    have hbig : 18446744071562067968 ≤ sizeT (n4 (pos + len)) := sizeT_of_neg (by omega) (by omega)
    right; right; right; right; left
    omega
  · right; right; right; right; right; right
    exact hmin

/-! ## When a call is exact -/

namespace SpliceCall

/-- The condition on a call and the length of its destination.  `_insert` needs strings that are not
empty, `_merge` one of them, and `_merge` of two such strings must not get the exact length; the rest is
about results of 2 GiB and more, whose minimum does not fit into an `n4`. -/
def Served (call : SpliceCall) (dstLen : ℕ) : Prop :=
  match call with
  | .insert str _ subStr =>
      (str.bytes ≠ [] ∧ subStr.bytes ≠ []) ∨ dstLen < call.result.length + 1
  | .merge first second =>
      if text first ≠ [] ∧ text second ≠ [] then
        dstLen ≠ call.result.length + 1 ∧ (dstLen = 0 → 0 < n4 (call.result.length + 1))
      else if text first = [] ∧ text second = [] then dstLen < call.result.length + 1
      else n4 (call.result.length + 1) ≤ dstLen → call.result.length + 1 ≤ dstLen
  | .replace _ pos len _ | .delete _ pos len =>
      (call.result.length + 1 ≤ dstLen → pos + len < 2147483648) ∧
        (pos + len < 2147483648 → n4 (call.result.length + 1) ≤ dstLen →
          call.result.length + 1 ≤ dstLen)

variable {dst : Bytes}

/-- A minimum that fits into an `n4` is the length of the result and its terminator. -/
theorem n4_le_of_fits {call : SpliceCall} (hlt : dst.length < 2147483648)
    (hfits : call.result.length + 1 ≤ dst.length) :
    n4 (call.result.length + 1) ≤ dst.length := by
  rw [n4_of_lt (by omega) (by omega)]
  omega

theorem insert_exact {str subStr : CStr} {pos : ℤ} (hrange : (insert str pos subStr).InRange)
    (hstr : str.bytes ≠ []) (hsub : subStr.bytes ≠ []) (hlt : dst.length < 2147483648) :
    (insert str pos subStr).Exact dst := by
  obtain ⟨hpos, -, hend⟩ := hrange
  obtain ⟨front, rfl⟩ := Int.eq_ofNat_of_zero_le hpos
  have hresult : (insert str front subStr).result.length = str.strlen + subStr.strlen := by
    unfold CStr.strlen at *
    simp only [result, List.length_append, List.length_take, List.length_drop]
    omega
  by_cases hfits : str.strlen + subStr.strlen + 1 ≤ dst.length
  · have hrun : (insert str front subStr).run dst =
        write (some dst) dst.length (insertPieces str subStr front) :=
      insert_write hstr hsub (by omega) hlt hfits
    have hflat : (insertPieces str subStr front).flatten = (insert str front subStr).result := by
      simp [insertPieces, result]
    rw [exact_of_write (fun _ ↦ nul_free_insertPieces) hflat hlt hrun, hresult]
    exact hfits
  · have hrun : (insert str front subStr).run dst = some (-1, some dst) :=
      insert_refused hlt (by omega)
    exact (exact_of_refused hrun).mpr (by rw [hresult]; omega)

theorem merge_one_exact_iff {first second : Option CStr} (hsome : text first ≠ [] ∨ text second ≠ [])
    (hone : text first = [] ∨ text second = []) (hlt : dst.length < 2147483648) :
    (merge first second).Exact dst ↔
      (n4 ((merge first second).result.length + 1) ≤ dst.length →
        (merge first second).result.length + 1 ≤ dst.length) := by
  by_cases hmin : n4 ((merge first second).result.length + 1) ≤ dst.length
  · have hrun : (merge first second).run dst = write (some dst) dst.length [text first ++ text second] :=
      merge_write hone hsome hmin
    rw [exact_of_write ?_ ?_ hlt hrun]
    · exact ⟨fun h _ ↦ h, fun h ↦ h hmin⟩
    · intro piece hpiece
      rw [List.mem_singleton.mp hpiece]
      exact nul_free_append (nul_free_text first) (nul_free_text second)
    · simp [result]
  · have hrun : (merge first second).run dst = some (-1, some dst) := merge_refused (by omega)
    rw [exact_of_refused hrun]
    refine iff_of_true ?_ fun h ↦ absurd h hmin
    by_contra hfits
    exact hmin (n4_le_of_fits hlt (by omega))

theorem replace_exact_iff {str : CStr} {pos len : ℤ} {rep : Option CStr}
    (hrange : (replace str pos len rep).InRange) (hlt : dst.length < 2147483648) :
    (replace str pos len rep).Exact dst ↔ (replace str pos len rep).Served dst.length := by
  rw [Served]
  by_cases hsum : pos + len < 2147483648
  · by_cases hmin : n4 ((replace str pos len rep).result.length + 1) ≤ dst.length
    · rw [exact_of_write (fun _ ↦ nul_free_replacePieces) (flatten_replacePieces _ _ _ _) hlt
        (replace_write hrange hsum hmin)]
      exact ⟨fun h ↦ ⟨fun _ ↦ hsum, fun _ _ ↦ h⟩, fun h ↦ h.2 hsum hmin⟩
    · have hrun : (replace str pos len rep).run dst = some (-1, some dst) :=
        replace_refused hrange (.inr (by omega))
      rw [exact_of_refused hrun]
      refine iff_of_true ?_ ⟨fun _ ↦ hsum, fun _ h ↦ absurd h hmin⟩
      by_contra hfits
      exact hmin (n4_le_of_fits hlt (by omega))
  · have hrun : (replace str pos len rep).run dst = some (-1, some dst) :=
      replace_refused hrange (.inl (by omega))
    rw [exact_of_refused hrun]
    refine ⟨fun h ↦ ⟨fun hfits ↦ by omega, fun h ↦ absurd h hsum⟩, fun h ↦ ?_⟩
    by_contra hfits
    exact hsum (h.1 (by omega))

/-- With both strings there, one byte more than the result and its terminator is needed. -/
theorem merge_both_exact_iff {first second : CStr} (hfirst : first.bytes ≠ [])
    (hsecond : second.bytes ≠ []) (hlt : dst.length < 2147483648) :
    (merge (some first) (some second)).Exact dst ↔
      dst.length ≠ (merge (some first) (some second)).result.length + 1 ∧
        (dst.length = 0 → 0 < n4 ((merge (some first) (some second)).result.length + 1)) := by
  have hresult : (merge (some first) (some second)).result = first.bytes ++ second.bytes := rfl
  have htotal : (merge (some first) (some second)).result.length = first.strlen + second.strlen := by
    rw [hresult, List.length_append]
    rfl
  by_cases hmin : n4 ((merge (some first) (some second)).result.length + 1) ≤ dst.length
  · rcases Nat.eq_zero_or_pos dst.length with hzero | hpos
    · have hrun : (merge (some first) (some second)).run dst = none :=
        merge_empty (.inl hfirst) hzero hmin
      refine iff_of_false ?_ ?_
      · rintro ⟨ret, dst', hrun', -, -⟩
        rw [hrun] at hrun'
        cases hrun'
      · rintro ⟨-, hwrap⟩
        have hpositive := hwrap hzero
        omega
    · have hrun : (merge (some first) (some second)).run dst = _ :=
        merge_insert hfirst hsecond hpos hlt hmin
      by_cases hfits : first.strlen + second.strlen + 1 ≤ dst.length - 1
      · have hlen : dst.length - 1 ≤ (filled [] dst.length []).length := by
          simp [filled]
        have hflat : (insertPieces first second first.strlen).flatten =
            first.bytes ++ second.bytes := by
          simp [insertPieces, CStr.strlen]
        rcases write_eq (fun _ ↦ nul_free_insertPieces) hlen (by omega) (by
          rw [hflat, ← hresult, htotal]
          exact hfits) with ⟨rest, hwrite⟩
        rw [n4_of_lt (by omega) (by omega), insert_write hfirst hsecond (le_refl _) (by omega) hfits,
          hwrite, hflat] at hrun
        refine iff_of_true ⟨0, _, hrun, iff_of_true rfl (by omega), fun _ ↦ ⟨rest, rfl⟩⟩ (by omega)
      · rw [insert_refused (by omega) (by omega)] at hrun
        rw [exact_of_refused hrun]
        omega
  · have hrun : (merge (some first) (some second)).run dst = some (-1, some dst) :=
      merge_refused (by omega)
    have hnot : ¬ (merge (some first) (some second)).result.length + 1 ≤ dst.length :=
      fun hfits ↦ hmin (n4_le_of_fits hlt hfits)
    rw [exact_of_refused hrun]
    omega

/-- A call in range is exact if and only if it meets the condition. -/
theorem exact_iff_served {call : SpliceCall} (hrange : call.InRange) (hlt : dst.length < 2147483648) :
    call.Exact dst ↔ call.Served dst.length := by
  cases call with
  | insert str pos subStr =>
      rw [Served]
      by_cases hempty : str.bytes ≠ [] ∧ subStr.bytes ≠ []
      · exact iff_of_true (insert_exact hrange hempty.1 hempty.2 hlt) (.inl hempty)
      · have hrun : (insert str pos subStr).run dst = some (-1, some dst) :=
          insert_refused_of_empty (by tauto)
        rw [exact_of_refused hrun]
        exact ⟨.inr, fun h ↦ h.resolve_left hempty⟩
  | merge first second =>
      rw [Served]
      split
      · rename_i hboth
        rcases first with _ | first
        · exact absurd rfl hboth.1
        · rcases second with _ | second
          · exact absurd rfl hboth.2
          · exact merge_both_exact_iff hboth.1 hboth.2 hlt
      · rename_i hone
        split
        · rename_i hempty
          have hrun : (merge first second).run dst = some (-1, some dst) := by
            rw [run, Str.merge, if_pos (.inl hempty)]
          exact exact_of_refused hrun
        · rename_i hsome
          exact merge_one_exact_iff (by tauto) (by tauto) hlt
  | replace str pos len rep => exact replace_exact_iff hrange hlt
  | delete str pos len =>
      -- `_delete` is `_replace` with `nil`.
      have hresult : (replace str pos len none).result = (delete str pos len).result := by
        simp [result, text]
      have hreplace : (replace str pos len none).Exact dst ↔ _ := replace_exact_iff hrange hlt
      unfold Exact Served at hreplace ⊢
      rw [hresult] at hreplace
      exact hreplace

/-- `"ab"` and `"c"` in memory. -/
def abStr : CStr := .literal 4096 [97, 98] (by decide)

@[inherit_doc abStr]
def cStr : CStr := .literal 8192 [99] (by decide)

theorem exact_iff_served_replace :
    (replace abStr 1 1 (some cStr)).Exact [9, 9, 9] := by
  have hrange : (replace abStr 1 1 (some cStr)).InRange := by
    refine ⟨by decide, by decide, by decide, by decide, ?_⟩
    decide
  refine (exact_iff_served hrange (by decide)).mpr ⟨fun _ ↦ by decide, fun _ _ ↦ by decide⟩

/-- Three characters and a terminator do not go into four bytes. -/
theorem merge_refuses_exact_fit : ¬ (merge (some abStr) (some cStr)).Exact [9, 9, 9, 9] := by
  rintro ⟨ret, dst, hrun, hfits, -⟩
  have hcode : (merge (some abStr) (some cStr)).run [9, 9, 9, 9] = some (-1, some [0, 0, 0, 0]) := by
    decide +kernel
  rw [hcode] at hrun
  cases hrun
  exact absurd (hfits.mpr (by decide)) (by decide)

end SpliceCall

end CPractice.Str
