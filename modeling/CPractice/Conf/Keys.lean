import CPractice.Conf.Lines

/-!
# What the dictionary answers

The dictionary has one string for a section, a key and an index, the three concatenated, and keeps
the first text that is stored under it.  So a question is answered by the first line that stores a
text under its string, which need not be the line that assigns the key in the section.
-/

namespace CPractice.Conf

open Aof (isSpace isDigit digitsValue decimal isDigit_of_mem_decimal decimal_ne_nil
  digitsValue_decimal isSpace_of_isDigit not_sign_of_isDigit)

/-! ## Assignments -/

/-- A line that assigns a value to a key inside a section. -/
structure Assignment where
  sectionName : Bytes
  key : Bytes
  value : Bytes
  deriving DecidableEq

/-- The name in a section header. -/
def headerName (line : Bytes) : Bytes := (sdsTrimSpace line).dropLast.tail

/-- The assignments of a file, from a section on. -/
def assignments : Bytes → List Bytes → List Assignment
  | _, [] => []
  | sectionName, line :: lines =>
      match classify line with
      | .header _ => assignments (headerName line) lines
      | .assign key value => ⟨sectionName, key, value⟩ :: assignments sectionName lines
      | .nothing => assignments sectionName lines

/-- The section and the key that a question is about. -/
def asked (key0 key1 : Bytes) : Bytes × Bytes :=
  if key1 = [] then (defaultFirstKey, key0) else (key0, key1)

/-- An assignment of the key inside the section. -/
def Assignment.IsFor (a : Assignment) (question : Bytes × Bytes) : Prop :=
  a.sectionName = question.1 ∧ a.key = question.2

instance (a : Assignment) (question : Bytes × Bytes) : Decidable (a.IsFor question) :=
  inferInstanceAs (Decidable (_ ∧ _))

/-- The first line that assigns the key inside the section. -/
def firstFor (as : List Assignment) (question : Bytes × Bytes) : Option Assignment :=
  as.find? fun a ↦ decide (a.IsFor question)

/-- The assignments in front of this line. -/
def beforeFor (as : List Assignment) (question : Bytes × Bytes) : List Assignment :=
  as.takeWhile fun a ↦ decide (¬ a.IsFor question)

/-- The non-empty pieces of a value with commas.  A value without a comma is no array. -/
def pieces (value : Bytes) : List Bytes :=
  if arrayDelim ∈ value then (value.splitOn arrayDelim).filter (· ≠ []) else []

/-- The non-empty pieces in front of a comma. -/
def frontPieces (value : Bytes) : List Bytes :=
  (value.splitOn arrayDelim).dropLast.filter (· ≠ [])

/-! ## What a line stores -/

/-- The string of the section, of which at most 1023 characters are kept, and the key. -/
def Assignment.stem (a : Assignment) : Bytes := a.sectionName.take 1023 ++ a.key

/-- The entries of an array: its pieces by index, and their number. -/
def arrayEntries (stem : Bytes) (elements : List Bytes) : Dict :=
  (elements.mapIdx fun idx piece ↦ (stem ++ decimal idx, piece)) ++
    [(stem ++ suffix, decimal elements.length)]

/-- The texts that a line stores.  Its value is taken for an array only if a piece stands in front of
a comma. -/
def Assignment.stores (a : Assignment) : Dict :=
  (a.stem, a.value) ::
    if frontPieces a.value = [] then [] else arrayEntries a.stem (pieces a.value)

/-- The line stores a text under a string. -/
def Assignment.StoresUnder (a : Assignment) (word : Bytes) : Prop := word ∈ a.stores.map Prod.fst

/-- The first line of a list that stores a text under a string stores this one. -/
def FirstStores (as : List Assignment) (word text : Bytes) : Prop :=
  ∃ front a behind, as = front ++ a :: behind ∧ (∀ b ∈ front, ¬ b.StoresUnder word) ∧
    dictFind a.stores word = some text

/-- The first text that a list of lines stores under a string. -/
def stored (as : List Assignment) (word : Bytes) : Option Bytes :=
  dictFind (as.flatMap Assignment.stores) word

/-! ## The dictionary -/

theorem dictFind_append (dt dt' : Dict) (word : Bytes) :
    dictFind (dt ++ dt') word = (dictFind dt word).or (dictFind dt' word) := by
  rw [dictFind, List.find?_append, Option.map_or]
  rfl

theorem dictFind_cons (entry : Bytes × Bytes) (dt : Dict) (word : Bytes) :
    dictFind (entry :: dt) word = if entry.1 = word then some entry.2 else dictFind dt word := by
  rw [dictFind, List.find?_cons]
  by_cases h : entry.1 = word
  · simp [h]
  · simp [h, dictFind]

theorem dictFind_dictAdd (dt : Dict) (entry : Bytes × Bytes) (word : Bytes) :
    dictFind (dictAdd dt entry) word = (dictFind dt word).or (dictFind [entry] word) := by
  rw [dictAdd]
  split
  · next hthere =>
      by_cases hword : entry.1 = word
      · rw [hword] at hthere
        rcases Option.isSome_iff_exists.mp hthere with ⟨text, htext⟩
        rw [htext, Option.some_or]
      · rw [dictFind_cons, if_neg hword]
        exact (Option.or_none).symm
  · exact dictFind_append dt [entry] word

/-- The dictionary answers with the first text added under a string. -/
theorem dictFind_foldl (entries dt : Dict) (word : Bytes) :
    dictFind (entries.foldl dictAdd dt) word = (dictFind dt word).or (dictFind entries word) := by
  induction entries generalizing dt with
  | nil => exact (Option.or_none).symm
  | cons entry entries ih =>
      rw [List.foldl_cons, ih, dictFind_dictAdd, Option.or_assoc, ← dictFind_append]
      rfl

theorem stored_append (as bs : List Assignment) (word : Bytes) :
    stored (as ++ bs) word = (stored as word).or (stored bs word) := by
  rw [stored, List.flatMap_append, dictFind_append]
  rfl

theorem stored_cons (a : Assignment) (as : List Assignment) (word : Bytes) :
    stored (a :: as) word = (dictFind a.stores word).or (stored as word) := by
  rw [stored, List.flatMap_cons, dictFind_append]
  rfl

theorem dictFind_eq_none_iff (dt : Dict) (word : Bytes) :
    dictFind dt word = none ↔ word ∉ dt.map Prod.fst := by
  induction dt with
  | nil => simp [dictFind]
  | cons entry dt ih =>
      rw [dictFind_cons, List.map_cons, List.mem_cons, not_or, ← ih]
      by_cases h : entry.1 = word
      · simp [h]
      · simp [h, Ne.symm h]

theorem stored_eq_none_iff (as : List Assignment) (word : Bytes) :
    stored as word = none ↔ ∀ b ∈ as, ¬ b.StoresUnder word := by
  induction as with
  | nil => simp [stored, dictFind]
  | cons a as ih =>
      rw [stored_cons, Option.or_eq_none_iff, ih, dictFind_eq_none_iff, List.forall_mem_cons]
      rfl

theorem stored_eq_some_iff (as : List Assignment) (word text : Bytes) :
    stored as word = some text ↔ FirstStores as word text := by
  constructor
  · intro h
    induction as with
    | nil => cases h
    | cons a as ih =>
        rw [stored_cons] at h
        cases ha : dictFind a.stores word with
        | some text' =>
            rw [ha, Option.some_or] at h
            exact ⟨[], a, as, rfl, by simp, ha.trans h⟩
        | none =>
            rw [ha, Option.none_or] at h
            rcases ih h with ⟨front, b, behind, rfl, hfront, hb⟩
            refine ⟨a :: front, b, behind, rfl, ?_, hb⟩
            rw [List.forall_mem_cons]
            exact ⟨(dictFind_eq_none_iff _ _).mp ha, hfront⟩
  · rintro ⟨front, a, behind, rfl, hfront, ha⟩
    rw [stored_append, (stored_eq_none_iff front word).mpr hfront, Option.none_or, stored_cons, ha,
      Option.some_or]

/-! ## Arrays -/

theorem frontPieces_of_not_mem {value : Bytes} (h : arrayDelim ∉ value) : frontPieces value = [] := by
  rw [frontPieces, List.splitOn_eq_singleton h]
  rfl

theorem frontPieces_line {seg : Bytes} (hseg : arrayDelim ∉ seg) (rest : Bytes) :
    frontPieces (seg ++ arrayDelim :: rest) =
      if seg = [] then frontPieces rest else seg :: frontPieces rest := by
  rcases splitOn_line hseg rest with ⟨next, parts, hrest, hsplit⟩
  rw [frontPieces, frontPieces, hsplit, hrest, List.dropLast_cons_cons, List.filter_cons]
  by_cases h : seg = []
  · simp [h]
  · simp [h]

/-- What stands behind the last comma. -/
def lastPart (value : Bytes) : Bytes := (value.splitOn arrayDelim).getLastD []

theorem lastPart_line {seg : Bytes} (hseg : arrayDelim ∉ seg) (rest : Bytes) :
    lastPart (seg ++ arrayDelim :: rest) = lastPart rest := by
  rcases splitOn_line hseg rest with ⟨next, parts, hrest, hsplit⟩
  rw [lastPart, lastPart, hsplit, hrest]
  rfl

/-- The loop adds the pieces in front of a comma, and leaves what is behind the last one. -/
theorem arrayLoop_eq (key : Bytes) {turns : ℕ} (idx : ℕ) {value : Bytes}
    (hturns : value.length ≤ turns) :
    arrayLoop key turns idx value =
      ((frontPieces value).mapIdx fun i piece ↦ (key ++ decimal (idx + i), piece),
        idx + (frontPieces value).length, lastPart value) := by
  induction turns generalizing idx value with
  | zero =>
      obtain rfl := List.length_eq_zero_iff.mp (Nat.le_zero.mp hturns)
      rfl
  | succ turns ih =>
      rw [arrayLoop]
      rcases split_cases arrayDelim value with hmem | ⟨seg, rest, hseg, rfl⟩
      · rw [if_pos hmem, frontPieces_of_not_mem hmem, lastPart, List.splitOn_eq_singleton hmem]
        rfl
      · rw [List.length_append, List.length_cons] at hturns
        rw [if_neg (by simp), frontPieces_line hseg, lastPart_line hseg]
        by_cases hnil : seg = []
        · subst hnil
          rw [List.nil_append, List.head?_cons, if_pos rfl, if_pos rfl]
          exact ih idx (by simpa using hturns)
        · have hhead : (seg ++ arrayDelim :: rest).head? ≠ some arrayDelim := by
            rcases List.exists_cons_of_ne_nil hnil with ⟨c, tail, rfl⟩
            rintro heq
            exact hseg (by simp [Option.some.inj heq])
          have hdrop : (seg ++ arrayDelim :: rest).drop (seg.length + 1) = rest := by
            rw [← List.drop_drop, List.drop_left]
            rfl
          rw [if_neg hhead, if_neg hnil]
          simp only [takeWhile_line hseg, hdrop, ih (idx + 1) (show rest.length ≤ turns by omega),
            List.mapIdx_cons, List.length_cons, Nat.add_zero, Nat.add_assoc, Nat.add_comm 1]

/-- The pieces are those in front of a comma and what is behind the last one. -/
theorem pieces_eq {value : Bytes} (hfront : frontPieces value ≠ []) :
    pieces value = frontPieces value ++ if lastPart value = [] then [] else [lastPart value] := by
  have hmem : arrayDelim ∈ value := by
    by_contra hmem
    exact hfront (frontPieces_of_not_mem hmem)
  have hlast := List.dropLast_append_getLast (List.splitOn_ne_nil arrayDelim value)
  have hpart : lastPart value =
      (value.splitOn arrayDelim).getLast (List.splitOn_ne_nil arrayDelim value) := by
    rw [lastPart, List.getLastD_eq_getLast?, List.getLast?_eq_getLast_of_ne_nil]
    rfl
  rw [pieces, if_pos hmem, frontPieces, hpart]
  conv_lhs => rw [← hlast, List.filter_append, List.filter_singleton]
  split
  · next h => simp [h]
  · next h => simp [h]

/-- `parseArray` stores the pieces of an array and their number. -/
theorem parseArray_eq (stem value : Bytes) :
    parseArray stem value =
      if frontPieces value = [] then [] else arrayEntries stem (pieces value) := by
  rw [parseArray, arrayLoop_eq stem 0 le_rfl]
  simp only [Nat.zero_add, List.length_eq_zero_iff]
  by_cases hfront : frontPieces value = []
  · rw [if_pos hfront, if_pos hfront, hfront]
    rfl
  · rw [if_neg hfront, if_neg hfront, pieces_eq hfront, arrayEntries]
    by_cases hlast : lastPart value = []
    · rw [if_pos hlast, if_pos hlast, List.append_nil]
    · rw [if_neg hlast, if_neg hlast, List.mapIdx_concat, List.append_assoc, List.length_append]
      rfl

/-! ## A file as its assignments -/

theorem classify_header {line name : Bytes} (h : classify line = .header name) :
    name = (headerName line).take 1023 := by
  rw [classify] at h
  split at h
  · cases h
  · dsimp only at h
    split at h
    · cases h
    · split at h
      · cases h
        rfl
      · split at h
        · split at h
          · cases h
          · cases h
        · cases h

/-- The dictionary holds what the assignments store, in the order of the file. -/
theorem foldl_parseLine (lines : List Bytes) (sectionName : Bytes) (dt : Dict) :
    (lines.foldl parseLine (sectionName.take 1023, dt)).2 =
      ((assignments sectionName lines).flatMap Assignment.stores).foldl dictAdd dt := by
  induction lines generalizing sectionName dt with
  | nil => rfl
  | cons line lines ih =>
      rw [List.foldl_cons, parseLine, assignments]
      cases hclass : classify line with
      | header name =>
          rw [classify_header hclass]
          exact ih (headerName line) dt
      | assign key value =>
          simp only [List.flatMap_cons, List.foldl_append]
          rw [← ih, Assignment.stores, ← parseArray_eq]
          rfl
      | nothing => exact ih sectionName dt

theorem dictFind_parsed {firstKey : Bytes} (hkey : firstKey.length ≤ 1023) (lines : List Bytes)
    (word : Bytes) :
    dictFind (lines.foldl parseLine (firstKey, [])).2 word =
      stored (assignments firstKey lines) word := by
  have hfold := foldl_parseLine lines firstKey []
  rw [List.take_of_length_le hkey] at hfold
  rw [hfold, dictFind_foldl]
  rfl

theorem askedKey_eq (key0 key1 : Bytes) :
    askedKey key0 key1 = (asked key0 key1).1 ++ (asked key0 key1).2 := by
  rw [askedKey, asked]
  split
  · rfl
  · rfl

/-- The assignments around the first one for a question. -/
theorem split_firstFor {as : List Assignment} {question : Bytes × Bytes} {a : Assignment}
    (h : firstFor as question = some a) :
    a.IsFor question ∧ ∃ behind, as = beforeFor as question ++ a :: behind := by
  rcases List.find?_eq_some_iff_append.mp h with ⟨hfor, before, behind, rfl, hbefore⟩
  have hfor : a.IsFor question := of_decide_eq_true hfor
  refine ⟨hfor, behind, ?_⟩
  have htake : beforeFor (before ++ a :: behind) question = before := by
    rw [beforeFor, List.takeWhile_append_of_pos]
    · simp [hfor]
    · intro b hb
      simpa using hbefore b hb
  rw [htake]

/-! ## The texts of one line -/

theorem decimal_injective : Function.Injective decimal := by
  intro n m h
  rw [← digitsValue_decimal n, h, digitsValue_decimal]

theorem suffix_ne_decimal (n : ℕ) : suffix ≠ decimal n := by
  intro h
  have hmem : (95 : UInt8) ∈ decimal n := by
    rw [← h]
    decide
  exact absurd (isDigit_of_mem_decimal hmem) (by decide)

theorem dictFind_mapIdx {word : ℕ → Bytes} (hword : Function.Injective word) (elements : List Bytes)
    (idx : ℕ) :
    dictFind (elements.mapIdx fun i piece ↦ (word i, piece)) (word idx) = elements[idx]? := by
  induction elements generalizing word idx with
  | nil => rfl
  | cons piece elements ih =>
      rw [List.mapIdx_cons, dictFind_cons]
      cases idx with
      | zero => rw [if_pos rfl, List.getElem?_cons_zero]
      | succ idx =>
          have hne : word 0 ≠ word (idx + 1) := fun h ↦ Nat.succ_ne_zero idx (hword h).symm
          rw [if_neg hne, List.getElem?_cons_succ]
          exact ih (hword.comp (add_left_injective 1)) idx

theorem dictFind_mapIdx_none {word : ℕ → Bytes} {other : Bytes} (hother : ∀ i, word i ≠ other)
    (elements : List Bytes) :
    dictFind (elements.mapIdx fun i piece ↦ (word i, piece)) other = none := by
  induction elements generalizing word with
  | nil => rfl
  | cons piece elements ih =>
      rw [List.mapIdx_cons, dictFind_cons, if_neg (hother 0)]
      exact ih fun i ↦ hother (i + 1)

theorem dictFind_arrayEntries_idx (stem : Bytes) {elements : List Bytes} {idx : ℕ} {piece : Bytes}
    (hpiece : elements[idx]? = some piece) :
    dictFind (arrayEntries stem elements) (stem ++ decimal idx) = some piece := by
  have hword : Function.Injective fun i ↦ stem ++ decimal i := fun i j h ↦
    decimal_injective (List.append_cancel_left h)
  rw [arrayEntries, dictFind_append, dictFind_mapIdx hword, hpiece, Option.some_or]

theorem dictFind_arrayEntries_size (stem : Bytes) (elements : List Bytes) :
    dictFind (arrayEntries stem elements) (stem ++ suffix) = some (decimal elements.length) := by
  have hword (i : ℕ) : stem ++ decimal i ≠ stem ++ suffix := fun h ↦
    suffix_ne_decimal i (List.append_cancel_left h).symm
  rw [arrayEntries, dictFind_append, dictFind_mapIdx_none hword, Option.none_or, dictFind_cons,
    if_pos rfl]

/-- A line stores nothing but its value under the string of section and key. -/
theorem dictFind_stores_tail {a : Assignment} {tail : Bytes} (htail : tail ≠ [])
    (hfront : frontPieces a.value ≠ []) :
    dictFind a.stores (a.stem ++ tail) =
      dictFind (arrayEntries a.stem (pieces a.value)) (a.stem ++ tail) := by
  have hne : a.stem ≠ a.stem ++ tail := by
    intro h
    exact htail (List.append_right_eq_self.mp h.symm)
  rw [Assignment.stores, dictFind_cons, if_neg hne, if_neg hfront]

theorem strtoul_decimal {n : ℕ} (h : n < 18446744073709551616) : strtoul (decimal n) = n := by
  have hdigits : ∀ byte ∈ decimal n, isDigit byte := fun byte ↦ isDigit_of_mem_decimal
  rcases List.exists_cons_of_ne_nil (decimal_ne_nil n) with ⟨first, rest, hfirst⟩
  have hdigit : isDigit first := hdigits first (by rw [hfirst]; exact List.mem_cons_self)
  have hdrop : (decimal n).dropWhile isSpace = decimal n := by
    rw [hfirst, List.dropWhile_cons_of_neg]
    rw [isSpace_of_isDigit hdigit]
    decide
  have hhead : (decimal n).head? = some first := by rw [hfirst]; rfl
  have htake : (decimal n).takeWhile isDigit = decimal n := List.takeWhile_eq_self_iff.mpr hdigits
  have hsign := not_sign_of_isDigit hdigit
  rw [strtoul]
  simp only [hdrop, hhead, Option.some_inj, hsign.1, hsign.2, or_self, if_false, htake,
    digitsValue_decimal]
  rw [if_neg (by omega)]

/-! ## Questions -/

/-- The element of a value with an index. -/
def pieceAt (value : Bytes) (idx : ℤ) : Option Bytes :=
  if 0 ≤ idx then (pieces value)[idx.toNat]? else none

/-- The line stores its value under the full name of its section. -/
def Assignment.StoresValue (a : Assignment) : Prop := a.sectionName.length ≤ 1023

/-- The line stores the element with this index. -/
def Assignment.StoresPiece (a : Assignment) (idx : ℤ) : Prop :=
  a.StoresValue ∧ frontPieces a.value ≠ [] ∧ (pieceAt a.value idx).isSome

/-- The line stores the number of its elements. -/
def Assignment.StoresSize (a : Assignment) : Prop :=
  a.StoresValue ∧ frontPieces a.value ≠ [] ∧ (pieces a.value).length < 18446744073709551616

/-- Other lines leave the answer to a question as it is claimed.  Where the first line that assigns
the key in the section stores the answer itself, the first line in front of it that stores a text under
the string asked for, if there is one, stores the same.  Otherwise no line may store a text under this
string if nothing is claimed, and the first line that does must store the answer if one is claimed. -/
def Undisturbed {α : Type} (read : Bytes → α) (as : List Assignment) (question : Bytes × Bytes)
    (tail : Bytes) (own : Assignment → Prop) (claimed : Option α) : Prop :=
  ((∃ a, firstFor as question = some a ∧ own a) →
    ∀ text, FirstStores (beforeFor as question) (question.1 ++ question.2 ++ tail) text →
      claimed = some (read text)) ∧
  ((∀ a, firstFor as question = some a → ¬ own a) →
    (claimed = none → ∀ b ∈ as, ¬ b.StoresUnder (question.1 ++ question.2 ++ tail)) ∧
    (∀ answer, claimed = some answer →
      ∃ text, FirstStores as (question.1 ++ question.2 ++ tail) text ∧ read text = answer))

theorem Assignment.stem_eq {a : Assignment} {question : Bytes × Bytes} (hfor : a.IsFor question)
    (hname : a.StoresValue) : question.1 ++ question.2 = a.stem := by
  rw [Assignment.stem, List.take_of_length_le hname, hfor.1, hfor.2]

/-- A question is answered as claimed just if other lines leave the answer as it is. -/
theorem answer_iff_undisturbed {α : Type} {read : Bytes → α} {as : List Assignment}
    {question : Bytes × Bytes} {tail : Bytes} {own : Assignment → Prop} {claimed : Option α}
    (hown : ∀ a, firstFor as question = some a → own a → ∃ text,
      dictFind a.stores (question.1 ++ question.2 ++ tail) = some text ∧
        claimed = some (read text)) :
    (stored as (question.1 ++ question.2 ++ tail)).map read = claimed ↔
      Undisturbed read as question tail own claimed := by
  by_cases hstores : ∃ a, firstFor as question = some a ∧ own a
  · rcases hstores with ⟨a, hfirst, ha⟩
    rcases split_firstFor hfirst with ⟨-, behind, heq⟩
    rcases hown a hfirst ha with ⟨text, htext, hclaimed⟩
    have hother : ¬ ∀ b, firstFor as question = some b → ¬ own b := fun h ↦ h a hfirst ha
    rw [Undisturbed, forall_prop_of_false hother, and_true, forall_prop_of_true ⟨a, hfirst, ha⟩]
    have hanswer : stored as (question.1 ++ question.2 ++ tail) =
        (stored (beforeFor as question) (question.1 ++ question.2 ++ tail)).or (some text) := by
      conv_lhs => rw [heq]
      rw [stored_append, stored_cons, htext, Option.some_or]
    rw [hanswer]
    simp only [← stored_eq_some_iff]
    cases hbefore : stored (beforeFor as question) (question.1 ++ question.2 ++ tail) with
    | none => simp [hclaimed]
    | some text' => simp [eq_comm]
  · have hother : ∀ a, firstFor as question = some a → ¬ own a := fun a hfirst ha ↦
      hstores ⟨a, hfirst, ha⟩
    rw [Undisturbed, forall_prop_of_false hstores, true_and, forall_prop_of_true hother]
    simp only [← stored_eq_some_iff, ← stored_eq_none_iff]
    cases claimed with
    | none => simp
    | some answer => simp

theorem stores_value {a : Assignment} {question : Bytes × Bytes} (hfor : a.IsFor question)
    (ha : a.StoresValue) :
    dictFind a.stores (question.1 ++ question.2 ++ []) = some a.value := by
  rw [List.append_nil, Assignment.stem_eq hfor ha, Assignment.stores, dictFind_cons, if_pos rfl]

theorem stores_piece {a : Assignment} {question : Bytes × Bytes} {idx : ℤ}
    (hfor : a.IsFor question) (ha : a.StoresPiece idx) :
    dictFind a.stores (question.1 ++ question.2 ++ decimalInt idx) = pieceAt a.value idx := by
  rcases ha with ⟨hname, hfront, hsome⟩
  rcases Option.isSome_iff_exists.mp hsome with ⟨piece, hpiece⟩
  have hidx : 0 ≤ idx := by
    by_contra hneg
    rw [pieceAt, if_neg hneg] at hpiece
    cases hpiece
  have hdecimal : decimalInt idx = decimal idx.toNat := by
    rw [decimalInt, if_neg (by omega), show idx.natAbs = idx.toNat by omega]
  rw [hpiece]
  rw [pieceAt, if_pos hidx] at hpiece
  rw [Assignment.stem_eq hfor hname, hdecimal, dictFind_stores_tail (decimal_ne_nil _) hfront,
    dictFind_arrayEntries_idx _ hpiece]

theorem stores_size {a : Assignment} {question : Bytes × Bytes} (hfor : a.IsFor question)
    (ha : a.StoresSize) :
    dictFind a.stores (question.1 ++ question.2 ++ suffix) =
      some (decimal (pieces a.value).length) := by
  rw [Assignment.stem_eq hfor ha.1, dictFind_stores_tail (by decide) ha.2.1,
    dictFind_arrayEntries_size]

/-- `[a]`, `bc=1,2`, `[b]` and `c=3`. -/
def apartLines : List Bytes :=
  [[91, 97, 93], [98, 99, 61, 49, 44, 50], [91, 98, 93], [99, 61, 51]]

end CPractice.Conf
