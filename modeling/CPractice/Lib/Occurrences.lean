import Mathlib.Data.List.Basic

/-!
# Occurrences of a pattern in a text

A pattern occurs at a position if it is a prefix of the text from there on.  `leftmost` is the first
such position, and `occurrencesFrom` lists the leftmost occurrences that do not overlap, each looked for
behind the one before.
-/

namespace CPractice.Lib

variable {α : Type*} {pat text : List α} {start i j : ℕ}

/-! ## One occurrence -/

def OccursAt (pat text : List α) (i : ℕ) : Prop := pat <+: text.drop i

instance [DecidableEq α] (pat text : List α) (i : ℕ) : Decidable (OccursAt pat text i) :=
  inferInstanceAs (Decidable (pat <+: text.drop i))

theorem OccursAt.add_length_le (h : OccursAt pat text i) (hpat : pat ≠ []) :
    i + pat.length ≤ text.length := by
  have hle := h.length_le
  have hpos := List.length_pos_of_ne_nil hpat
  rw [List.length_drop] at hle
  omega

theorem occursAt_drop : OccursAt pat (text.drop start) i ↔ OccursAt pat text (start + i) := by
  rw [OccursAt, OccursAt, List.drop_drop]

/-- The elements of an occurrence, one by one. -/
theorem OccursAt.getElem? (h : OccursAt pat text i) (hj : j < pat.length) :
    text[i + j]? = pat[j]? := by
  rcases h with ⟨rest, hrest⟩
  have hget := congrArg (fun list ↦ list[j]?) hrest
  simp only [List.getElem?_append_left hj, List.getElem?_drop] at hget
  exact hget.symm

theorem occursAt_of_getElem? (h : ∀ j < pat.length, text[i + j]? = pat[j]?) :
    OccursAt pat text i := by
  rw [OccursAt, List.prefix_iff_eq_take]
  apply List.ext_getElem?
  intro j
  by_cases hj : j < pat.length
  · rw [List.getElem?_take_of_lt hj, List.getElem?_drop, h j hj]
  · rw [List.getElem?_eq_none (Nat.not_lt.mp hj), List.getElem?_eq_none]
    rw [List.length_take]
    omega

/-- The text around an occurrence. -/
theorem OccursAt.split (h : OccursAt pat text i) :
    text = text.take i ++ pat ++ text.drop (i + pat.length) := by
  rcases h with ⟨rest, hrest⟩
  have hdrop : text.drop (i + pat.length) = rest := by
    rw [← List.drop_drop, ← hrest, List.drop_left]
  rw [hdrop, List.append_assoc, hrest, List.take_append_drop]

/-- Behind the end of the text only the empty pattern occurs. -/
theorem OccursAt.zero_of_length_lt (h : OccursAt pat text i) (hlt : text.length < i) :
    OccursAt pat text 0 := by
  rw [OccursAt, List.drop_of_length_le (Nat.le_of_lt hlt), List.prefix_nil] at h
  rw [h]
  exact List.nil_prefix

/-! ## The first one -/

variable [DecidableEq α]

def leftmost (pat text : List α) : Option ℕ :=
  (List.range (text.length + 1)).find? fun i ↦ decide (OccursAt pat text i)

theorem leftmost_eq_some_iff :
    leftmost pat text = some i ↔ OccursAt pat text i ∧ ∀ j < i, ¬ OccursAt pat text j := by
  rw [leftmost, List.find?_range_eq_some]
  simp only [decide_eq_true_eq, List.mem_range, Bool.not_eq_true', decide_eq_false_iff_not]
  constructor
  · rintro ⟨hoccurs, -, hfirst⟩
    exact ⟨hoccurs, hfirst⟩
  · rintro ⟨hoccurs, hfirst⟩
    refine ⟨hoccurs, ?_, hfirst⟩
    by_contra hgt
    exact hfirst 0 (by omega) (hoccurs.zero_of_length_lt (by omega))

theorem leftmost_eq_none_iff : leftmost pat text = none ↔ ∀ i, ¬ OccursAt pat text i := by
  rw [leftmost, List.find?_range_eq_none]
  simp only [Bool.not_eq_true', decide_eq_false_iff_not]
  constructor
  · intro hnone i hoccurs
    by_cases hi : i < text.length + 1
    · exact hnone i hi hoccurs
    · exact hnone 0 (by omega) (hoccurs.zero_of_length_lt (by omega))
  · intro hnot i _
    exact hnot i

/-- The first occurrence from a position on. -/
def firstFrom (pat text : List α) (start : ℕ) : Option ℕ :=
  (leftmost pat (text.drop start)).map (start + ·)

theorem firstFrom_zero : firstFrom pat text 0 = leftmost pat text := by
  simp [firstFrom]

theorem firstFrom_eq_some_iff :
    firstFrom pat text start = some i ↔
      start ≤ i ∧ OccursAt pat text i ∧ ∀ j, start ≤ j → j < i → ¬ OccursAt pat text j := by
  simp only [firstFrom, Option.map_eq_some_iff, leftmost_eq_some_iff, occursAt_drop]
  constructor
  · rintro ⟨k, ⟨hoccurs, hfirst⟩, rfl⟩
    refine ⟨Nat.le_add_right _ _, hoccurs, fun j hj hlt ↦ ?_⟩
    have hnot := hfirst (j - start) (by omega)
    rwa [Nat.add_sub_cancel' hj] at hnot
  · rintro ⟨hle, hoccurs, hfirst⟩
    refine ⟨i - start, ⟨?_, fun j hj ↦ hfirst (start + j) (by omega) (by omega)⟩, by omega⟩
    rwa [Nat.add_sub_cancel' hle]

theorem firstFrom_eq_none_iff :
    firstFrom pat text start = none ↔ ∀ j, start ≤ j → ¬ OccursAt pat text j := by
  simp only [firstFrom, Option.map_eq_none_iff, leftmost_eq_none_iff, occursAt_drop]
  constructor
  · intro hnone j hj
    have hnot := hnone (j - start)
    rwa [Nat.add_sub_cancel' hj] at hnot
  · intro hnone j
    exact hnone (start + j) (Nat.le_add_right _ _)

theorem firstFrom_add_length_le (h : firstFrom pat text start = some i) (hpat : pat ≠ []) :
    i + pat.length ≤ text.length :=
  (firstFrom_eq_some_iff.mp h).2.1.add_length_le hpat

/-- Nothing is found where the rest of the text is shorter than the pattern. -/
theorem firstFrom_of_length_lt (hpat : pat ≠ []) (h : text.length < start + pat.length) :
    firstFrom pat text start = none := by
  rw [firstFrom_eq_none_iff]
  intro j hj hoccurs
  have hle := hoccurs.add_length_le hpat
  omega

/-! ## All of them, without overlaps -/

def occurrencesLoop (pat text : List α) : ℕ → ℕ → List ℕ
  | 0, _ => []
  | fuel + 1, start =>
      match firstFrom pat text start with
      | none => []
      | some i => i :: occurrencesLoop pat text fuel (i + pat.length)

/-- The leftmost occurrences from a position on that do not overlap. -/
def occurrencesFrom (pat text : List α) (start : ℕ) : List ℕ :=
  occurrencesLoop pat text (text.length + 1) start

def occurrences (pat text : List α) : List ℕ := occurrencesFrom pat text 0

/-- The length of the rest of the text is enough for the loop. -/
theorem occurrencesLoop_eq (hpat : pat ≠ []) {fuel fuel' : ℕ} (h : text.length < start + fuel)
    (h' : text.length < start + fuel') :
    occurrencesLoop pat text fuel start = occurrencesLoop pat text fuel' start := by
  have hpos := List.length_pos_of_ne_nil hpat
  induction fuel generalizing fuel' start with
  | zero =>
      cases fuel' with
      | zero => rfl
      | succ fuel' => rw [occurrencesLoop, occurrencesLoop, firstFrom_of_length_lt hpat (by omega)]
  | succ fuel ih =>
      cases fuel' with
      | zero => rw [occurrencesLoop, occurrencesLoop, firstFrom_of_length_lt hpat (by omega)]
      | succ fuel' =>
          rw [occurrencesLoop, occurrencesLoop]
          cases hfirst : firstFrom pat text start with
          | none => rfl
          | some i =>
              have hle := (firstFrom_eq_some_iff.mp hfirst).1
              exact congrArg (i :: ·) (ih (by omega) (by omega))

theorem occurrencesFrom_none (h : firstFrom pat text start = none) :
    occurrencesFrom pat text start = [] := by
  rw [occurrencesFrom, occurrencesLoop, h]

theorem occurrencesFrom_some (hpat : pat ≠ []) (h : firstFrom pat text start = some i) :
    occurrencesFrom pat text start = i :: occurrencesFrom pat text (i + pat.length) := by
  have hpos := List.length_pos_of_ne_nil hpat
  rw [occurrencesFrom, occurrencesLoop, h]
  exact congrArg (i :: ·) (occurrencesLoop_eq hpat (by omega) (by omega))

theorem occurrencesFrom_getElem?_zero (hpat : pat ≠ []) :
    (occurrencesFrom pat text start)[0]? = firstFrom pat text start := by
  cases hfirst : firstFrom pat text start with
  | none => rw [occurrencesFrom_none hfirst, List.getElem?_nil]
  | some i => rw [occurrencesFrom_some hpat hfirst, List.getElem?_cons_zero]

/-- Each occurrence is looked for behind the one before. -/
theorem occurrencesFrom_getElem?_succ (hpat : pat ≠ [])
    (h : (occurrencesFrom pat text start)[j]? = some i) :
    (occurrencesFrom pat text start)[j + 1]? = firstFrom pat text (i + pat.length) := by
  induction j generalizing start with
  | zero =>
      rw [occurrencesFrom_getElem?_zero hpat] at h
      rw [occurrencesFrom_some hpat h, List.getElem?_cons_succ, occurrencesFrom_getElem?_zero hpat]
  | succ j ih =>
      cases hfirst : firstFrom pat text start with
      | none =>
          rw [occurrencesFrom_none hfirst, List.getElem?_nil] at h
          cases h
      | some k =>
          rw [occurrencesFrom_some hpat hfirst, List.getElem?_cons_succ] at h
          rw [occurrencesFrom_some hpat hfirst, List.getElem?_cons_succ, ih h]

theorem occursAt_of_mem_occurrencesFrom (hpat : pat ≠ []) (h : i ∈ occurrencesFrom pat text start) :
    OccursAt pat text i := by
  rcases List.getElem?_of_mem h with ⟨j, hj⟩
  cases j with
  | zero =>
      rw [occurrencesFrom_getElem?_zero hpat] at hj
      exact (firstFrom_eq_some_iff.mp hj).2.1
  | succ j =>
      rcases List.getElem?_eq_some_iff.mp hj with ⟨hlt, -⟩
      have hget := List.getElem?_eq_getElem (Nat.lt_of_succ_lt hlt)
      rw [occurrencesFrom_getElem?_succ hpat hget] at hj
      exact (firstFrom_eq_some_iff.mp hj).2.1

/-- Nothing occurs behind the last one. -/
theorem firstFrom_of_getLast? (hpat : pat ≠ []) (h : (occurrencesFrom pat text start).getLast? = some i) :
    firstFrom pat text (i + pat.length) = none := by
  have hne := List.ne_nil_of_mem (List.mem_of_getLast? h)
  have hpos := List.length_pos_of_ne_nil hne
  rw [List.getLast?_eq_getElem?] at h
  rw [← occurrencesFrom_getElem?_succ hpat h, List.getElem?_eq_none_iff]
  omega

end CPractice.Lib
