import CPractice.Lib.Trimming
import CPractice.Memory
import CPractice.Str.Buffer

/-!
# `str_trim_l`, `str_trim_r` and `str_trim` of `lisk_string.c`

A string is trimmed in its own buffer, with its length read into an `n4`.  `str_trim` keeps every
character that is not a space, so it removes the spaces between others as well.
-/

namespace CPractice.Str

open Lib Memory

/-! ## The functions -/

/-- `_is_space`. -/
def isSpace (c : UInt8) : ℤ := if c ∈ [32, 12, 9, 13, 10, 11] then 0 else -1

/-- `strlen` of a buffer, as an `n4`. -/
def bufLen (buf : Bytes) : Option ℤ := if 0 ∈ buf then some (n4 (cstr buf).length) else none

/-- The loop of `str_trim_r`, with `idx + 1`. -/
def trimRLoop : ℕ → Bytes → Option Bytes
  | 0, buf => some buf
  | idx + 1, buf => do
      let c ← buf[idx]?
      if isSpace c ≠ 0 then some buf
      else do
        let buf ← store buf idx 0
        trimRLoop idx buf

/-- `str_trim_r`; the pointer may be `nil`. -/
def strTrimR : Option Bytes → Option (Option Bytes)
  | none => some none
  | some buf => do
      let len ← bufLen buf
      if len ≤ 0 then (store buf 0 0).map some else (trimRLoop len.toNat buf).map some

/-- The loop of `str_trim_l`, with `len - idx`. -/
def trimLLoop (buf : Bytes) : ℕ → ℕ → Option ℕ
  | 0, idx => some idx
  | left + 1, idx => do
      let c ← buf[idx]?
      if isSpace c ≠ 0 then some idx else trimLLoop buf left (idx + 1)

/-- `str_trim_l`. -/
def strTrimL : Option Bytes → Option (Option Bytes)
  | none => some none
  | some buf => do
      let len ← bufLen buf
      if len ≤ 0 then (store buf 0 0).map some
      else do
        let idx ← trimLLoop buf len.toNat 0
        if len ≤ idx then (store buf 0 0).map some
        else if 0 < idx then do
          let buf ← moveWithin buf 0 idx (sizeT (n4 (n4 (len + 1) - idx)))
          let buf ← store buf (n4 (n4 (len + 1) - idx)) 0
          some (some buf)
        else some (some buf)

/-- The loop of `str_trim`, with `len - idx`. -/
def trimLoop : ℕ → ℕ → ℕ → Bytes → Option (ℕ × Bytes)
  | 0, _, cursor, buf => some (cursor, buf)
  | left + 1, idx, cursor, buf => do
      let c ← buf[idx]?
      if isSpace c ≠ 0 then do
        let buf ← store buf cursor c
        trimLoop left (idx + 1) (cursor + 1) buf
      else trimLoop left (idx + 1) cursor buf

/-- `str_trim`. -/
def strTrim : Option Bytes → Option (Option Bytes)
  | none => some none
  | some buf => do
      let len ← bufLen buf
      if len ≤ 0 then (store buf 0 0).map some
      else do
        let (cursor, buf) ← trimLoop len.toNat 0 0 buf
        (store buf cursor 0).map some

/-! ## The length, once it is read -/

section Length

variable {buf : Bytes} {len : ℤ}

theorem strTrimR_some (h : bufLen buf = some len) :
    strTrimR (some buf) =
      if len ≤ 0 then (store buf 0 0).map some else (trimRLoop len.toNat buf).map some := by
  rw [strTrimR, h]
  rfl

theorem strTrimL_some (h : bufLen buf = some len) :
    strTrimL (some buf) =
      if len ≤ 0 then (store buf 0 0).map some
      else (trimLLoop buf len.toNat 0).bind fun idx ↦
        if len ≤ idx then (store buf 0 0).map some
        else if 0 < idx then do
          let buf ← moveWithin buf 0 idx (sizeT (n4 (n4 (len + 1) - idx)))
          let buf ← store buf (n4 (n4 (len + 1) - idx)) 0
          some (some buf)
        else some (some buf) := by
  rw [strTrimL, h]
  rfl

theorem strTrim_some (h : bufLen buf = some len) :
    strTrim (some buf) =
      if len ≤ 0 then (store buf 0 0).map some
      else (trimLoop len.toNat 0 0 buf).bind fun out ↦ (store out.2 out.1 0).map some := by
  rw [strTrim, h]
  rfl

end Length

/-! ## The strings that they leave -/

/-- A space, as a property. -/
def space (c : UInt8) : Bool := isSpace c = 0

/-- The number of characters that the functions look at: the length as an `n4`. -/
def seen (s : Bytes) : ℕ := (n4 s.length).toNat

def cutR (s : Bytes) : Bytes :=
  let front := s.take (seen s)
  if front ≠ [] ∧ front.rdropWhile space = front then s else front.rdropWhile space

def cutL (s : Bytes) : Bytes :=
  let rest := (s.take (seen s)).dropWhile space
  if rest = [] then []
  else if rest = s.take (seen s) then s
  else rest ++ (s.drop (seen s)).take 1

def cut (s : Bytes) : Bytes := (s.take (seen s)).filter (fun c ↦ !space c)

/-! ## Buffers with a string -/

section Buffers

variable {s front pre kept gap rest tail : Bytes} {c : UInt8}

theorem bufLen_eq (hs : 0 ∉ s) : bufLen (s ++ 0 :: tail) = some (n4 s.length) := by
  rw [bufLen, if_pos (by simp), cstr_append hs]

theorem get_at : (front ++ c :: rest)[front.length]? = some c := by simp

theorem store_at (front rest : Bytes) (c byte : UInt8) :
    store (front ++ c :: rest) (front.length : ℕ) byte = some (front ++ byte :: rest) := by
  rw [store, if_pos]
  · rw [Int.toNat_natCast, List.set_append_right _ _ (le_refl _), Nat.sub_self, List.set_cons_zero]
  · rw [List.length_append, List.length_cons]
    omega

theorem isSpace_ne_zero_iff (c : UInt8) : isSpace c ≠ 0 ↔ space c = false := by
  rw [space, decide_eq_false_iff_not]

/-- The spaces at the end are overwritten, from the last one on. -/
theorem trimRLoop_eq (front rest : Bytes) :
    ∃ gap, (front.rdropWhile space ++ gap).length = front.length ∧ (∀ c ∈ gap, c = 0) ∧
      trimRLoop front.length (front ++ rest) = some (front.rdropWhile space ++ gap ++ rest) := by
  induction front using List.reverseRecOn generalizing rest with
  | nil => exact ⟨[], rfl, by simp, rfl⟩
  | append_singleton front c ih =>
      rw [List.length_append, List.length_singleton, List.append_assoc, List.singleton_append,
        trimRLoop, get_at, Option.bind_eq_bind, Option.bind_some]
      by_cases hc : space c = true
      · rcases ih (0 :: rest) with ⟨gap, hlength, hzero, hloop⟩
        refine ⟨gap ++ [0], ?_, ?_, ?_⟩
        · rw [List.rdropWhile_concat_pos space _ c hc, ← List.append_assoc, List.length_append, hlength]
          rfl
        · simpa [or_imp, forall_and] using hzero
        · rw [if_neg (by simp [isSpace_ne_zero_iff, hc]), store_at, Option.bind_eq_bind,
            Option.bind_some, hloop, List.rdropWhile_concat_pos space _ c hc]
          simp
      · refine ⟨[], ?_, by simp, ?_⟩
        · rw [List.rdropWhile_concat_neg space _ c hc]
          simp
        · rw [if_pos ((isSpace_ne_zero_iff c).mpr (by simpa using hc)),
            List.rdropWhile_concat_neg space _ c hc]
          simp

/-- The first character that is not a space. -/
theorem trimLLoop_eq (pre front rest : Bytes) :
    trimLLoop (pre ++ front ++ rest) front.length pre.length =
      some (pre.length + (front.takeWhile space).length) := by
  induction front generalizing pre with
  | nil => rfl
  | cons c front ih =>
      have hbuf : pre ++ c :: front ++ rest = pre ++ c :: (front ++ rest) := by simp
      rw [List.length_cons, trimLLoop, hbuf, get_at, Option.bind_eq_bind, Option.bind_some]
      by_cases hc : space c = true
      · have hrest := ih (pre ++ [c])
        rw [List.length_append, List.length_singleton, List.append_assoc, List.append_assoc,
          List.singleton_append] at hrest
        rw [if_neg (by simp [isSpace_ne_zero_iff, hc]), hrest, List.takeWhile_cons_of_pos hc,
          List.length_cons]
        congr 1
        omega
      · rw [if_pos ((isSpace_ne_zero_iff c).mpr (by simpa using hc)), List.takeWhile_cons_of_neg hc]
        rfl

/-- The characters that are not spaces are moved together; the others leave a gap. -/
theorem trimLoop_eq (kept gap front rest : Bytes) :
    ∃ gap', (front.filter (fun c ↦ !space c) ++ gap').length = (gap ++ front).length ∧
      trimLoop front.length (kept.length + gap.length) kept.length (kept ++ gap ++ front ++ rest) =
        some (kept.length + (front.filter (fun c ↦ !space c)).length,
          kept ++ front.filter (fun c ↦ !space c) ++ gap' ++ rest) := by
  induction front generalizing kept gap with
  | nil => exact ⟨gap, by simp, by simp [trimLoop]⟩
  | cons c front ih =>
      have hbuf : kept ++ gap ++ c :: front ++ rest = (kept ++ gap) ++ c :: (front ++ rest) := by simp
      have hget : (kept ++ gap ++ c :: front ++ rest)[kept.length + gap.length]? = some c := by
        rw [hbuf, ← List.length_append]
        exact get_at
      rw [List.length_cons, trimLoop, hget, Option.bind_eq_bind, Option.bind_some]
      by_cases hc : space c = true
      · rcases ih kept (gap ++ [c]) with ⟨gap', hlength, hloop⟩
        refine ⟨gap', ?_, ?_⟩
        · rw [List.filter_cons_of_neg (by simp [hc]), hlength]
          simp
        · rw [if_neg (by simp [isSpace_ne_zero_iff, hc]), List.filter_cons_of_neg (by simp [hc]),
            ← hloop]
          simp [Nat.add_assoc]
      · -- the character goes to the place behind those that are kept, which may be its own
        obtain ⟨gap₁, hgap, hstore⟩ : ∃ gap₁, gap₁.length = gap.length ∧
            store (kept ++ gap ++ c :: front ++ rest) (kept.length : ℕ) c =
              some ((kept ++ [c]) ++ gap₁ ++ front ++ rest) := by
          cases gap with
          | nil => exact ⟨[], rfl, by simpa using store_at kept (front ++ rest) c c⟩
          | cons e gap =>
              refine ⟨gap ++ [c], by simp, ?_⟩
              have hstore := store_at kept (gap ++ c :: (front ++ rest)) e c
              simpa using hstore
        rcases ih (kept ++ [c]) gap₁ with ⟨gap', hlength, hloop⟩
        refine ⟨gap', ?_, ?_⟩
        · rw [List.filter_cons_of_pos (by simp [hc]), List.cons_append, List.length_cons, hlength,
            List.length_append, List.length_append, List.length_cons, hgap]
          omega
        · rw [if_pos ((isSpace_ne_zero_iff c).mpr (by simpa using hc)), hstore, Option.bind_eq_bind,
            Option.bind_some, List.filter_cons_of_pos (by simp [hc])]
          rw [List.length_append, List.length_singleton, hgap] at hloop
          rw [show kept.length + gap.length + 1 = kept.length + 1 + gap.length by omega, hloop]
          simp [Nat.add_assoc, Nat.add_comm 1]

/-- The loop from the first character on. -/
theorem trimLoop_first (front rest : Bytes) :
    ∃ gap, trimLoop front.length 0 0 (front ++ rest) =
      some ((front.filter (fun c ↦ !space c)).length, front.filter (fun c ↦ !space c) ++ (gap ++ rest)) := by
  rcases trimLoop_eq [] [] front rest with ⟨gap, -, hloop⟩
  exact ⟨gap, by simpa using hloop⟩

end Buffers

/-! ## What the functions leave -/

theorem seen_le (s : Bytes) : seen s ≤ s.length := by
  unfold seen n4 Int.bmod
  dsimp only
  split <;> omega

theorem seen_of_lt {s : Bytes} (h : s.length < 2147483648) : seen s = s.length := by
  rw [seen, n4_of_lt (by omega) (by omega), Int.toNat_natCast]

/-- The functions see few characters of a string that is too long. -/
theorem seen_long {s : Bytes} (h : 2147483648 ≤ s.length) :
    seen s < 2147483648 ∧ seen s + 1 < s.length := by
  unfold seen n4 Int.bmod
  dsimp only
  split <;> omega

section Functions

variable {s : Bytes}

theorem store_first (s tail : Bytes) :
    ∃ tail', (store (s ++ 0 :: tail) 0 0).map some = some (some (0 :: tail')) := by
  cases s with
  | nil => exact ⟨tail, congrArg (Option.map some) (store_at [] tail 0 0)⟩
  | cons c s => exact ⟨s ++ 0 :: tail, congrArg (Option.map some) (store_at [] (s ++ 0 :: tail) c 0)⟩

/-- The string as what is seen and what is not. -/
theorem seen_split (h : ¬ n4 s.length ≤ 0) :
    s = s.take (seen s) ++ s.drop (seen s) ∧ (s.take (seen s)).length = (n4 s.length).toNat ∧
      (n4 s.length : ℤ) = (s.take (seen s)).length ∧ s.take (seen s) ≠ [] := by
  have hle := seen_le s
  have hlength : (s.take (seen s)).length = (n4 s.length).toNat := by
    rw [List.length_take, Nat.min_eq_left hle, seen]
  refine ⟨(List.take_append_drop _ s).symm, hlength, by omega, ?_⟩
  rw [← List.length_pos_iff]
  omega

theorem seen_eq_zero (h : n4 s.length ≤ 0) : s.take (seen s) = [] := by
  rw [seen, Int.toNat_of_nonpos h, List.take_zero]

theorem strTrimR_eq (hs : 0 ∉ s) (tail : Bytes) :
    ∃ tail', strTrimR (some (s ++ 0 :: tail)) = some (some (cutR s ++ 0 :: tail')) := by
  rw [strTrimR_some (bufLen_eq hs)]
  by_cases hlen : n4 s.length ≤ 0
  · rw [if_pos hlen, cutR, seen_eq_zero hlen]
    exact store_first s tail
  · rcases seen_split hlen with ⟨hsplit, hlength, -, hne⟩
    rcases trimRLoop_eq (s.take (seen s)) (s.drop (seen s) ++ 0 :: tail) with
      ⟨gap, hgap, hzero, hloop⟩
    rw [← List.append_assoc, ← hsplit, hlength] at hloop
    rw [if_neg hlen, hloop, cutR]
    rw [List.length_append] at hgap
    cases gap with
    | nil =>
        have hself : (s.take (seen s)).rdropWhile space = s.take (seen s) :=
          (List.rdropWhile_prefix space _).eq_of_length (by simpa using hgap)
        rw [if_pos ⟨hne, hself⟩]
        refine ⟨tail, ?_⟩
        rw [List.append_nil, ← List.append_assoc, hself, ← hsplit]
        rfl
    | cons c gap =>
        have hshort : (s.take (seen s)).rdropWhile space ≠ s.take (seen s) := by
          intro hself
          rw [hself, List.length_cons] at hgap
          omega
        rw [if_neg (fun h ↦ hshort h.2), hzero c List.mem_cons_self]
        exact ⟨gap ++ (s.drop (seen s) ++ 0 :: tail), by simp⟩

/-- The part of `str_trim_l` behind its loop, where it moves the rest of what is seen to the front, with
the byte behind it. -/
theorem moveFront_eq {spaces rest back : Bytes} (hspaces : 0 < spaces.length) (hback : back ≠ [])
    (hlt : spaces.length + rest.length < 2147483648) :
    ∃ tail', (do
      let buf ← moveWithin (spaces ++ rest ++ back) 0 spaces.length
        (sizeT (n4 (n4 (((spaces.length + rest.length : ℕ) : ℤ) + 1) - (spaces.length : ℕ))))
      let buf ← store buf (n4 (n4 (((spaces.length + rest.length : ℕ) : ℤ) + 1) - (spaces.length : ℕ))) 0
      some (some buf)) = some (some (rest ++ back.take 1 ++ 0 :: tail')) := by
  rcases List.exists_cons_of_ne_nil hback with ⟨d, more, rfl⟩
  have hsize : n4 (n4 (((spaces.length + rest.length : ℕ) : ℤ) + 1) - (spaces.length : ℕ)) =
      ((rest.length + 1 : ℕ) : ℤ) := by
    rw [n4_n4_sub, show (((spaces.length + rest.length : ℕ) : ℤ) + 1 - (spaces.length : ℕ)) =
      ((rest.length + 1 : ℕ) : ℤ) by omega]
    exact n4_of_lt (by omega) (by omega)
  obtain ⟨e, z, hz⟩ : ∃ e z, (spaces ++ rest ++ d :: more).drop (rest.length + 1) = e :: z := by
    apply List.exists_cons_of_ne_nil
    rw [ne_eq, List.drop_eq_nil_iff]
    simp only [List.length_append, List.length_cons]
    omega
  have hmove : moveWithin (spaces ++ rest ++ d :: more) 0 spaces.length (rest.length + 1) =
      some ((rest ++ [d]) ++ e :: z) := by
    rw [moveWithin, if_pos]
    · rw [Nat.zero_add, hz, List.append_assoc spaces, List.drop_left, List.take_length_add_append]
      simp
    · simp only [List.length_append, List.length_cons]
      omega
  have hstore := store_at (rest ++ [d]) z e 0
  rw [List.length_append, List.length_singleton] at hstore
  refine ⟨z, ?_⟩
  rw [hsize, sizeT_natCast (by omega), hmove, Option.bind_eq_bind, Option.bind_some, hstore]
  rfl

theorem strTrimL_eq (hs : 0 ∉ s) (tail : Bytes) :
    ∃ tail', strTrimL (some (s ++ 0 :: tail)) = some (some (cutL s ++ 0 :: tail')) := by
  rw [strTrimL_some (bufLen_eq hs)]
  by_cases hlen : n4 s.length ≤ 0
  · rw [if_pos hlen, cutL, seen_eq_zero hlen]
    exact store_first s tail
  · rcases seen_split hlen with ⟨hsplit, hlength, hlen_eq, -⟩
    have hlt : n4 s.length < 2147483648 := by
      unfold n4 Int.bmod
      dsimp only
      split <;> omega
    have hparts : s.take (seen s) =
        (s.take (seen s)).takeWhile space ++ (s.take (seen s)).dropWhile space :=
      List.takeWhile_append_dropWhile.symm
    have hloop := trimLLoop_eq [] (s.take (seen s)) (s.drop (seen s) ++ 0 :: tail)
    rw [List.nil_append, ← List.append_assoc, ← hsplit, hlength, List.length_nil, Nat.zero_add]
      at hloop
    have hsum := congrArg List.length hparts
    rw [List.length_append] at hsum
    rw [if_neg hlen, hloop, Option.bind_some, cutL]
    by_cases hnil : (s.take (seen s)).dropWhile space = []
    · rw [hnil, List.length_nil] at hsum
      rw [if_pos (by omega), if_pos hnil]
      exact store_first s tail
    · have hpos := List.length_pos_iff.mpr hnil
      rw [if_neg (by omega), if_neg hnil]
      by_cases hfirst : 0 < ((s.take (seen s)).takeWhile space).length
      · have hself : (s.take (seen s)).dropWhile space ≠ s.take (seen s) := by
          intro h
          rw [h] at hsum
          omega
        have hback : s.drop (seen s) ++ 0 :: tail ≠ [] := by simp
        rcases moveFront_eq hfirst hback (show ((s.take (seen s)).takeWhile space).length +
          ((s.take (seen s)).dropWhile space).length < 2147483648 by omega) with ⟨tail', hmove⟩
        rw [← hparts, ← List.append_assoc, ← hsplit, ← hsum, ← hlen_eq] at hmove
        rw [if_pos hfirst, if_neg hself]
        refine ⟨if s.drop (seen s) = [] then 0 :: tail' else tail', ?_⟩
        refine hmove.trans ?_
        cases hd : s.drop (seen s) with
        | nil => simp
        | cons c back => simp
      · have hspaces : (s.take (seen s)).takeWhile space = [] := List.length_eq_zero_iff.mp (by omega)
        rw [hspaces, List.nil_append] at hparts
        rw [if_neg hfirst, if_pos hparts.symm]
        exact ⟨tail, rfl⟩

theorem strTrim_eq (hs : 0 ∉ s) (tail : Bytes) :
    ∃ tail', strTrim (some (s ++ 0 :: tail)) = some (some (cut s ++ 0 :: tail')) := by
  rw [strTrim_some (bufLen_eq hs)]
  by_cases hlen : n4 s.length ≤ 0
  · rw [if_pos hlen, cut, seen_eq_zero hlen]
    exact store_first s tail
  · rcases seen_split hlen with ⟨hsplit, hlength, -, -⟩
    rcases trimLoop_first (s.take (seen s)) (s.drop (seen s) ++ 0 :: tail) with ⟨gap, hloop⟩
    obtain ⟨e, z, hz⟩ : ∃ e z, gap ++ (s.drop (seen s) ++ 0 :: tail) = e :: z :=
      List.exists_cons_of_ne_nil (by simp)
    rw [hz, ← List.append_assoc, ← hsplit, hlength] at hloop
    refine ⟨z, ?_⟩
    rw [if_neg hlen, hloop, Option.bind_some]
    dsimp only
    rw [store_at, Option.map_some, cut]

end Functions

/-! ## One after the other -/

/-- A function leaves this string in the buffer of a string. -/
structure Leaves (f : Option Bytes → Option (Option Bytes)) (g : Bytes → Bytes) : Prop where
  eq : ∀ {s : Bytes}, 0 ∉ s → ∀ tail,
    ∃ tail', f (some (s ++ 0 :: tail)) = some (some (g s ++ 0 :: tail'))
  nul_free : ∀ {s : Bytes}, 0 ∉ s → 0 ∉ g s

theorem leaves_trimR : Leaves strTrimR cutR where
  eq hs tail := strTrimR_eq hs tail
  nul_free := by
    intro s hs hmem
    unfold cutR at hmem
    dsimp only at hmem
    split at hmem
    · exact hs hmem
    · exact hs (List.mem_of_mem_take ((List.rdropWhile_prefix space _).subset hmem))

theorem leaves_trimL : Leaves strTrimL cutL where
  eq hs tail := strTrimL_eq hs tail
  nul_free := by
    intro s hs hmem
    unfold cutL at hmem
    dsimp only at hmem
    split at hmem
    · cases hmem
    · split at hmem
      · exact hs hmem
      · rcases List.mem_append.mp hmem with hmem | hmem
        · exact hs (List.mem_of_mem_take ((List.dropWhile_sublist space).subset hmem))
        · exact hs (List.mem_of_mem_drop (List.mem_of_mem_take hmem))

theorem leaves_trim : Leaves strTrim cut where
  eq hs tail := strTrim_eq hs tail
  nul_free hs hmem := hs (List.mem_of_mem_take (List.mem_filter.mp hmem).1)

/-- The string in the buffer of a string after functions have been called on it; a write outside of the
buffer is `none`. -/
def after (fs : List (Option Bytes → Option (Option Bytes))) (s : Bytes) : Option Bytes :=
  (fs.foldlM (fun buf (f : Option Bytes → Option (Option Bytes)) ↦ f buf) (some (s ++ [0]))).map
    fun buf ↦ cstr (buf.getD [])

section After

variable {f f' : Option Bytes → Option (Option Bytes)} {g g' : Bytes → Bytes} {s : Bytes}

theorem after_one (h : Leaves f g) (hs : 0 ∉ s) : after [f] s = some (g s) := by
  rcases h.eq hs [] with ⟨tail, heq⟩
  simp only [after, List.foldlM_cons, heq, Option.bind_eq_bind, Option.bind_some, List.foldlM_nil,
    Option.pure_def, Option.map_some, Option.getD_some, cstr_append (h.nul_free hs)]

theorem after_two (h : Leaves f g) (h' : Leaves f' g') (hs : 0 ∉ s) :
    after [f, f'] s = some (g' (g s)) := by
  rcases h.eq hs [] with ⟨tail, heq⟩
  rcases h'.eq (h.nul_free hs) tail with ⟨tail', heq'⟩
  simp only [after, List.foldlM_cons, heq, heq', Option.bind_eq_bind, Option.bind_some,
    List.foldlM_nil, Option.pure_def, Option.map_some, Option.getD_some,
    cstr_append (h'.nul_free (h.nul_free hs))]

end After

/-! ## What is seen of a string -/

section Seen

variable {s : Bytes}

/-- The functions see the whole string. -/
theorem cuts_whole (h : seen s = s.length) :
    cutL s = s.dropWhile space ∧ cutR s = s.rdropWhile space ∧ cut s = s.filter (fun c ↦ !space c) := by
  have htake : s.take (seen s) = s := by rw [h, List.take_length]
  refine ⟨?_, ?_, by rw [cut, htake]⟩
  · have hdrop : s.drop (seen s) = [] := by rw [h, List.drop_length]
    simp only [cutL, htake, hdrop, List.take_nil, List.append_nil]
    split
    · rename_i hnil
      exact hnil.symm
    · split
      · rename_i hself
        exact hself.symm
      · rfl
  · simp only [cutR, htake]
    split
    · rename_i hself
      exact hself.2.symm
    · rfl

theorem cuts_spaces (h : ∀ c ∈ s, space c = true) : cutL s = [] ∧ cutR s = [] ∧ cut s = [] := by
  have hfront : ∀ c ∈ s.take (seen s), space c = true := fun c hc ↦ h c (List.mem_of_mem_take hc)
  have hR : (s.take (seen s)).rdropWhile space = [] := List.rdropWhile_eq_nil_iff.mpr hfront
  have hL : (s.take (seen s)).dropWhile space = [] := List.dropWhile_eq_nil_iff.mpr hfront
  refine ⟨if_pos hL, ?_, ?_⟩
  · simp only [cutR, hR]
    exact if_neg fun h ↦ h.1 h.2.symm
  · rw [cut, List.filter_eq_nil_iff]
    intro c hc
    simp [hfront c hc]

/-- The string begins with a character that is not a space. -/
def StartsPlain (s : Bytes) : Prop := ∃ c rest, s = c :: rest ∧ space c = false

theorem StartsPlain.dropWhile_eq (h : StartsPlain s) : s.dropWhile space = s := by
  rcases h with ⟨c, rest, rfl, hc⟩
  exact List.dropWhile_cons_of_neg (by simp [hc])

theorem startsPlain_of_dropWhile (hne : s ≠ []) (h : s.dropWhile space = s) : StartsPlain s := by
  rcases List.exists_cons_of_ne_nil hne with ⟨c, rest, rfl⟩
  exact ⟨c, rest, rfl, head_dropWhile h⟩

theorem startsPlain_take_iff (s : Bytes) (n : ℕ) : StartsPlain (s.take n) ↔ StartsPlain s ∧ 0 < n := by
  unfold StartsPlain
  cases n with
  | zero => simp
  | succ n =>
      cases s with
      | nil => simp
      | cons c s => simp

/-- A string that is too long is trimmed right on the left side just if there is nothing to trim, or
nothing else. -/
theorem cutL_long (h : 2147483648 ≤ s.length) :
    cutL s = s.dropWhile space ↔ (∀ c ∈ s, space c = true) ∨ (StartsPlain s ∧ 0 < seen s) := by
  have hlong := (seen_long h).2
  have hback : (s.drop (seen s)).length = s.length - seen s := List.length_drop
  have hsplit : s.take (seen s) ++ s.drop (seen s) = s := List.take_append_drop _ s
  rw [← startsPlain_take_iff, cutL]
  generalize s.take (seen s) = front at *
  generalize s.drop (seen s) = back at *
  by_cases hnil : front.dropWhile space = []
  · rw [if_pos hnil]
    have hnot : ¬ StartsPlain front := by
      intro hstart
      rw [hstart.dropWhile_eq] at hnil
      rcases hstart with ⟨c, rest, heq, -⟩
      rw [hnil] at heq
      cases heq
    rw [eq_comm, List.dropWhile_eq_nil_iff]
    exact (or_iff_left hnot).symm
  · rw [if_neg hnil]
    obtain ⟨c, hc, hspace⟩ : ∃ c ∈ front, space c = false := by
      simpa [List.dropWhile_eq_nil_iff] using hnil
    have hall : ¬ ∀ c ∈ s, space c = true := by
      intro hspaces
      rw [hspaces c (hsplit ▸ List.mem_append_left back hc)] at hspace
      cases hspace
    have hdrop := dropWhile_append_of_mem (b := back) ⟨c, hc, hspace⟩
    by_cases hself : front.dropWhile space = front
    · rw [if_pos hself]
      have hstart := startsPlain_of_dropWhile (List.ne_nil_of_mem hc) hself
      rw [hself, hsplit] at hdrop
      exact iff_of_true hdrop.symm (.inr hstart)
    · rw [if_neg hself]
      refine iff_of_false ?_ ?_
      · intro heq
        rw [← hsplit, hdrop, List.append_cancel_left_eq] at heq
        have hlength := congrArg List.length heq
        rw [List.length_take] at hlength
        omega
      · rintro (hspaces | hstart)
        · exact hall hspaces
        · exact hself hstart.dropWhile_eq

/-- What is cut off behind the last character seen is all spaces, and so is that character. -/
def EndsSeen (s : Bytes) : Prop := 0 < seen s ∧ ∀ c ∈ s.drop (seen s - 1), space c = true

theorem cutR_of_endsSeen (h : EndsSeen s) :
    cutR s = s.rdropWhile space ∧ (cutR s).length < seen s ∧
      s.filter (fun c ↦ !space c) = cut s := by
  rcases h with ⟨hpos, hspaces⟩
  have hle := seen_le s
  obtain ⟨front, c, back, rfl, hfront⟩ : ∃ front c back, s = front ++ c :: back ∧
      front.length = seen s - 1 := by
    obtain ⟨c, back, hdrop⟩ := List.exists_cons_of_ne_nil (l := s.drop (seen s - 1)) (by
      rw [ne_eq, List.drop_eq_nil_iff]
      omega)
    refine ⟨s.take (seen s - 1), c, back, ?_, ?_⟩
    · rw [← hdrop, List.take_append_drop]
    · rw [List.length_take]
      omega
  rw [← hfront, List.drop_left, List.forall_mem_cons] at hspaces
  have htake : (front ++ c :: back).take (seen (front ++ c :: back)) = front ++ [c] := by
    rw [show seen (front ++ c :: back) = front.length + 1 by omega, List.take_length_add_append]
    rfl
  have hlast := List.rdropWhile_concat_pos space front c hspaces.1
  have hshort : (front.rdropWhile space).length ≤ front.length :=
    (List.rdropWhile_prefix space front).length_le
  have hcut : cutR (front ++ c :: back) = front.rdropWhile space := by
    simp only [cutR, htake, hlast]
    refine if_neg fun h ↦ ?_
    have hlength := congrArg List.length h.2
    rw [List.length_append, List.length_singleton] at hlength
    omega
  refine ⟨?_, by rw [hcut]; omega, ?_⟩
  · rw [hcut, List.append_cons, rdropWhile_append_of_forall hspaces.2, hlast]
  · have hback : back.filter (fun c ↦ !space c) = [] := by
      rw [List.filter_eq_nil_iff]
      intro d hd
      simp [hspaces.2 d hd]
    rw [cut, htake, List.append_cons, List.filter_append, hback, List.append_nil]

/-- A string that is too long and trimmed right on the right side ends seen, unless the last character
that is seen is not a space. -/
theorem cutR_long (h : 2147483648 ≤ s.length) (hpos : 0 < seen s) (hne : cutR s ≠ s)
    (hcut : cutR s = s.rdropWhile space) : EndsSeen s := by
  have hlong := (seen_long h).2
  have hlength : (s.take (seen s)).length = seen s := by
    rw [List.length_take]
    omega
  have hself : ¬ (s.take (seen s) ≠ [] ∧ (s.take (seen s)).rdropWhile space = s.take (seen s)) := by
    intro hself
    exact hne (if_pos hself)
  have hcut' : (s.take (seen s)).rdropWhile space = s.rdropWhile space := by
    rw [← hcut]
    exact (if_neg hself).symm
  have hprefix := List.rdropWhile_prefix space (s.take (seen s))
  have hlt : (s.rdropWhile space).length < (s.take (seen s)).length := by
    rw [← hcut']
    refine lt_of_le_of_ne hprefix.length_le fun heq ↦ hself ⟨?_, hprefix.eq_of_length heq⟩
    rw [← List.length_pos_iff]
    omega
  rcases exists_rdropWhile space s with ⟨back, hback, hspaces⟩
  refine ⟨hpos, fun c hc ↦ hspaces c ?_⟩
  have hcount : (s.rdropWhile space).length ≤ seen s - 1 := by omega
  generalize seen s - 1 = count at hc hcount
  rw [hback, List.drop_append, List.drop_eq_nil_of_le hcount, List.nil_append] at hc
  exact List.mem_of_mem_drop hc

/-- The strings for which all the functions cut right, and again on what they left. -/
def CutsOuter (s : Bytes) : Prop :=
  cutL s = s.dropWhile space ∧ cutR s = s.rdropWhile space ∧ cut s = cutL (cutR s) ∧
    cutL (cutL s) = cutL s ∧ cutR (cutR s) = cutR s ∧ cut (cut s) = cut s

theorem filter_filter_space (s : Bytes) :
    (s.filter (fun c ↦ !space c)).filter (fun c ↦ !space c) = s.filter (fun c ↦ !space c) := by
  rw [List.filter_filter]
  simp

theorem length_trimmed (s : Bytes) :
    (s.dropWhile space).length ≤ s.length ∧ (s.rdropWhile space).length ≤ s.length ∧
      (s.filter (fun c ↦ !space c)).length ≤ s.length :=
  ⟨(List.dropWhile_sublist space).length_le, (List.rdropWhile_prefix space s).length_le,
    List.length_filter_le _ _⟩

theorem cutsOuter_short (h : s.length < 2147483648) : CutsOuter s ↔ ¬ HasInner space s := by
  have hlengths := length_trimmed s
  have hs := cuts_whole (seen_of_lt h)
  have hL := cuts_whole (s := s.dropWhile space) (seen_of_lt (by omega))
  have hR := cuts_whole (s := s.rdropWhile space) (seen_of_lt (by omega))
  have hF := cuts_whole (s := s.filter (fun c ↦ !space c)) (seen_of_lt (by omega))
  rw [CutsOuter, hs.1, hs.2.1, hs.2.2, hL.1, hR.1, hR.2.1, hF.2.2, List.dropWhile_idempotent,
    List.rdropWhile_idempotent, filter_filter_space, ← filter_eq_trim_iff, trim]
  simp

theorem cutsOuter_spaces (h : ∀ c ∈ s, space c = true) : CutsOuter s := by
  rcases cuts_spaces h with ⟨hL, hR, hT⟩
  rcases cuts_spaces (s := []) (by simp) with ⟨hL', hR', hT'⟩
  rw [CutsOuter, hL, hR, hT, hL', hR', hT', List.dropWhile_eq_nil_iff.mpr h,
    List.rdropWhile_eq_nil_iff.mpr h]
  simp

theorem not_hasInner_spaces (h : ∀ c ∈ s, space c = true) : ¬ HasInner space s := by
  rintro ⟨before, c, rest, rfl, -, ⟨d, hd, hspace⟩, -⟩
  rw [h d (List.mem_append_left _ hd)] at hspace
  cases hspace

theorem cutsOuter_long (h : 2147483648 ≤ s.length) :
    CutsOuter s ↔
      ¬ HasInner space s ∧ ((∀ c ∈ s, space c = true) ∨ (StartsPlain s ∧ EndsSeen s)) := by
  have hlong := seen_long h
  constructor
  · rintro ⟨hL, hR, hboth, -⟩
    rcases (cutL_long h).mp hL with hspaces | ⟨hstart, hpos⟩
    · exact ⟨not_hasInner_spaces hspaces, .inl hspaces⟩
    · have hself : cutL s = s := hL.trans hstart.dropWhile_eq
      have hseen : (cut s).length ≤ seen s :=
        (List.length_filter_le _ _).trans (List.length_take_le _ _)
      have hne : cutR s ≠ s := by
        intro heq
        rw [heq, hself] at hboth
        rw [hboth] at hseen
        omega
      have hends := cutR_long h hpos hne hR
      rcases cutR_of_endsSeen hends with ⟨-, hlt, hfilter⟩
      have hshort := cuts_whole (s := cutR s) (seen_of_lt (by omega))
      refine ⟨?_, .inr ⟨hstart, hends⟩⟩
      rw [← filter_eq_trim_iff, hfilter, hboth, hshort.1, hR, trim]
  · rintro ⟨hinner, hspaces | ⟨hstart, hends⟩⟩
    · exact cutsOuter_spaces hspaces
    · have hL := (cutL_long h).mpr (.inr ⟨hstart, hends.1⟩)
      have hself : cutL s = s := hL.trans hstart.dropWhile_eq
      rcases cutR_of_endsSeen hends with ⟨hR, hlt, hfilter⟩
      have hshort := cuts_whole (s := cutR s) (seen_of_lt (by omega))
      have hboth : cut s = cutL (cutR s) := by
        rw [← hfilter, (filter_eq_trim_iff space s).mpr hinner, hshort.1, hR, trim]
      have hlength : (cut s).length ≤ seen s :=
        (List.length_filter_le _ _).trans (List.length_take_le _ _)
      have hshort' := cuts_whole (s := cut s) (seen_of_lt (by omega))
      refine ⟨hL, hR, hboth, by rw [hself, hself], ?_, ?_⟩
      · rw [hshort.2.1, hR, List.rdropWhile_idempotent]
      · rw [hshort'.2.2, cut, filter_filter_space]

end Seen

/-! ## The outer spaces -/

/-- Trimming removes the outer spaces: on the left side, on the right side, and on both as on one after
the other.  Trimming again changes nothing, and nothing is written outside of the buffer. -/
structure TrimsOuter (s : Bytes) : Prop where
  left : after [strTrimL] s = some (s.dropWhile space)
  right : after [strTrimR] s = some (s.rdropWhile space)
  both : ∃ t, after [strTrim] s = some t ∧ after [strTrimR, strTrimL] s = some t
  idempotent : ∀ f ∈ [strTrimL, strTrimR, strTrim], ∃ t, after [f] s = some t ∧ after [f, f] s = some t

theorem trimsOuter_iff_cuts {s : Bytes} (hs : 0 ∉ s) : TrimsOuter s ↔ CutsOuter s := by
  have hL := after_one leaves_trimL hs
  have hR := after_one leaves_trimR hs
  have hT := after_one leaves_trim hs
  have hRL := after_two leaves_trimR leaves_trimL hs
  have hLL := after_two leaves_trimL leaves_trimL hs
  have hRR := after_two leaves_trimR leaves_trimR hs
  have hTT := after_two leaves_trim leaves_trim hs
  constructor
  · rintro ⟨left, right, ⟨t, hone, htwo⟩, idempotent⟩
    rw [hL, Option.some_inj] at left
    rw [hR, Option.some_inj] at right
    rw [hT, Option.some_inj] at hone
    rw [hRL, Option.some_inj] at htwo
    simp only [List.forall_mem_cons, hL, hR, hT, hLL, hRR, hTT, Option.some_inj, exists_eq_left']
      at idempotent
    exact ⟨left, right, hone.trans htwo.symm, idempotent.1, idempotent.2.1, idempotent.2.2.1⟩
  · rintro ⟨left, right, both, againL, againR, again⟩
    refine ⟨by rw [hL, left], by rw [hR, right], ⟨_, hT, by rw [hRL, both]⟩, ?_⟩
    simp only [List.forall_mem_cons, hL, hR, hT, hLL, hRR, hTT, Option.some_inj, exists_eq_left']
    exact ⟨againL, againR, again, by simp⟩

/-- For every string: the outer spaces are removed just if no space stands between two other characters,
and the string is shorter than `2 ^ 31`, or it is all spaces, or it begins with another character and
everything from the last character that is seen on is spaces. -/
theorem trims_outer_iff (s : CStr) :
    TrimsOuter s.bytes ↔
      ¬ HasInner space s.bytes ∧
        (s.strlen < 2147483648 ∨ (∀ c ∈ s.bytes, space c = true) ∨
          (StartsPlain s.bytes ∧ EndsSeen s.bytes)) := by
  rw [trimsOuter_iff_cuts s.nul_free]
  by_cases hlt : s.bytes.length < 2147483648
  · rw [cutsOuter_short hlt]
    exact (and_iff_left (.inl hlt)).symm
  · rw [cutsOuter_long (not_lt.mp hlt)]
    exact and_congr_right' (or_iff_right hlt).symm

/-- `str_trim` makes `ab` of `a b`. -/
theorem trim_inner_space :
    after [strTrim] [97, 32, 98] = some [97, 98] ∧
      after [strTrimR, strTrimL] [97, 32, 98] = some [97, 32, 98] ∧ ¬ TrimsOuter [97, 32, 98] := by
  have hone : after [strTrim] [97, 32, 98] = some [97, 98] := by with_unfolding_all decide
  have htwo : after [strTrimR, strTrimL] [97, 32, 98] = some [97, 32, 98] := by with_unfolding_all decide
  refine ⟨hone, htwo, fun h ↦ ?_⟩
  rcases h.both with ⟨t, ht, ht'⟩
  rw [hone] at ht
  rw [htwo, ← ht] at ht'
  cases ht'

end CPractice.Str
