import CPractice.LiskString.Refinement

/-!
# Runs of the string object

Any sequence of calls on a string object does to its text what it does to a sequence of bytes, just if
no string is initialised with a size above `2 ^ 31` and no text is reversed that has a zero byte, but for
palindromes.
-/

namespace CPractice.LiskString

open Memory

/-! ## The calls and what they do to the text -/

/-- The calls of the interface; a buffer is given by its bytes. -/
inductive Edit
  | init (size : ℕ)
  | initCopy (buf : Bytes)
  | insert (pos : ℕ) (buf : Bytes)
  | append (buf : Bytes)
  | copy (buf : Bytes)
  | reverse
  | clear
  | realloc (size : ℕ)

namespace Edit

/-- The call on a string object, with the bytes found in new memory. -/
def run (str : Text) (fill : ℕ → UInt8) : Edit → Option (ℤ × Text)
  | .init size => do
      let (ret, made) ← LiskString.init size (some fill)
      made.map fun str ↦ (ret, str)
  | .initCopy buf => do
      let (ret, made) ← LiskString.initCopy (some buf) buf.length (some fill)
      made.map fun str ↦ (ret, str)
  | .insert pos buf => LiskString.insert str pos (some buf) buf.length (some fill)
  | .append buf => LiskString.append str (some buf) buf.length (some fill)
  | .copy buf => LiskString.copy str (some buf) buf.length (some fill)
  | .reverse => LiskString.reverse str
  | .clear => (LiskString.clear str).map fun str ↦ (0, str)
  | .realloc size => strRealloc str size (some fill)

/-- The call makes a string object. -/
def Makes : Edit → Prop
  | .init _ | .initCopy _ => True
  | _ => False

/-- The text behind a call.  A call with an empty buffer, or a position behind the end, is refused. -/
def after (s : Bytes) : Edit → Bytes
  | .init _ | .clear => []
  | .initCopy buf => buf
  | .insert pos buf => if buf = [] ∨ s.length < pos then s else s.take pos ++ buf ++ s.drop pos
  | .append buf => s ++ buf
  | .copy buf => if buf = [] then s else buf
  | .reverse => s.reverse
  | .realloc size => s.take (size - 1)

/-- The arguments are `u4`, the sizes for new memory at least one, and the text stays shorter than
`2 ^ 31 - 1`. -/
def Bounded (s : Bytes) (edit : Edit) : Prop :=
  (edit.after s).length < 2147483647 ∧
    match edit with
    | .init size | .realloc size => 1 ≤ size ∧ size < 4294967296
    | .initCopy buf => 1 ≤ buf.length
    | .insert pos buf => pos < 4294967296 ∧ buf.length < 4294967296
    | .append buf | .copy buf => buf.length < 4294967296
    | .reverse | .clear => True

/-- A size that is not rounded to zero, and a text that is reversed as a whole: without a zero byte, or
a palindrome whose bytes in front of the first zero are one as well. -/
def Clean (s : Bytes) : Edit → Prop
  | .init size => size ≤ 2147483648
  | .reverse => 0 ∉ s ∨ (s.reverse = s ∧ (s.takeWhile (· ≠ 0)).reverse = s.takeWhile (· ≠ 0))
  | _ => True

instance (s : Bytes) : (edit : Edit) → Decidable (edit.Clean s)
  | .init size => inferInstanceAs (Decidable (size ≤ 2147483648))
  | .reverse => inferInstanceAs (Decidable (_ ∨ _ ∧ _))
  | .initCopy _ | .insert _ _ | .append _ | .copy _ | .clear | .realloc _ =>
      inferInstanceAs (Decidable True)

end Edit

/-- The text in front of the length, with room for the terminator behind it, which is there. -/
structure Shows (s : Bytes) (str : Text) : Prop where
  length : str.length = s.length
  room : str.length < str.capacity
  data : ∃ block, str.data = some block ∧ block.take str.length = s ∧ block[str.length]? = some 0

theorem Holds.shows {s : Bytes} {str : Text} (h : Holds s str) : Shows s str := by
  refine ⟨h.length, h.length ▸ h.length_lt, ?_⟩
  rcases h.data with ⟨rest, hdata, -⟩
  refine ⟨s ++ 0 :: rest, hdata, ?_, ?_⟩
  · rw [h.length, List.take_left]
  · rw [h.length]
    simp

/-! ## Reversing -/

/-- What is reversed in front of a zero byte, and the whole. -/
theorem reversed_eq_iff (s : Bytes) : reversed s = s.reverse ↔ Edit.reverse.Clean s := by
  rw [reversed]
  simp only [Edit.Clean]
  set front := s.takeWhile (· ≠ 0) with hfront
  set back := s.dropWhile (· ≠ 0) with hback
  have hsplit : front ++ back = s := List.takeWhile_append_dropWhile
  have hnul : 0 ∉ front := by
    intro hmem
    rw [hfront] at hmem
    simpa using List.mem_takeWhile_imp hmem
  by_cases hnil : back = []
  · rw [hnil, List.append_nil] at hsplit
    rw [hnil, List.append_nil, hsplit]
    exact iff_of_true rfl (.inl (hsplit ▸ hnul))
  · have hzero : 0 ∈ back := by
      rcases List.exists_cons_of_ne_nil hnil with ⟨c, rest, hcons⟩
      have hhead := List.head_dropWhile_not (· ≠ 0) (l := s) (hback ▸ hnil)
      have hc : c = 0 := by simpa only [← hback, hcons, List.head_cons, decide_eq_false_iff_not,
        not_not] using hhead
      rw [hcons, hc]
      exact List.mem_cons_self
    have hmem : 0 ∈ s := hsplit ▸ List.mem_append_right front hzero
    rw [or_iff_right (not_not.mpr hmem), ← hsplit, List.reverse_append]
    constructor
    · intro heq
      have hwhole : back.reverse ++ front.reverse = front.reverse ++ back := heq.symm
      rcases List.append_eq_append_iff.mp heq with ⟨mid, hlong, htail⟩ | ⟨mid, hshort, -⟩
      · -- what is behind ends as the bytes in front begin, reversed
        have hends : mid ++ front.reverse = mid.reverse ++ front := by
          rw [← htail, ← List.reverse_reverse back, hlong, List.reverse_append, List.reverse_reverse]
        have hpalindrome := List.append_inj_right' hends List.length_reverse
        exact ⟨by rw [hwhole, hpalindrome], hpalindrome⟩
      · have hinside : 0 ∈ front.reverse := by
          rw [hshort]
          exact List.mem_append_left mid (List.mem_reverse.mpr hzero)
        exact absurd (List.mem_reverse.mp hinside) hnul
    · rintro ⟨hwhole, hpalindrome⟩
      rw [hwhole, hpalindrome]

/-! ## One call -/

section Calls

variable {s : Bytes} {str : Text} {fill : ℕ → UInt8}

theorem insert_refused {buf : Bytes} {pos : ℕ} {grant : Grant} (h : buf.length = 0 ∨ str.length < pos) :
    insert str pos (some buf) buf.length grant = some (-1, str) := by
  rw [insert, if_pos h]

/-- A clean call makes a string object, or does to one what it does to the text. -/
theorem run_clean {edit : Edit} (hmade : edit.Makes ∨ Holds s str) (hbounded : edit.Bounded s)
    (hclean : edit.Clean s) :
    ∃ ret str', edit.run str fill = some (ret, str') ∧ Holds (edit.after s) str' := by
  rcases hbounded with ⟨hlt, hargs⟩
  cases edit with
  | init size =>
      rcases init_spec hargs.1 hclean fill with ⟨str', hrun, hholds, -⟩
      exact ⟨0, str', by rw [Edit.run, hrun]; rfl, hholds⟩
  | initCopy buf =>
      rcases initCopy_spec (List.ne_nil_of_length_pos hargs) hlt fill with ⟨str', hrun, hholds⟩
      exact ⟨0, str', by rw [Edit.run, hrun]; rfl, hholds⟩
  | insert pos buf =>
      have h := hmade.resolve_left id
      by_cases hrefused : buf = [] ∨ s.length < pos
      · have hcond : buf.length = 0 ∨ str.length < pos := by
          rw [List.length_eq_zero_iff, h.length]
          exact hrefused
        exact ⟨-1, str, insert_refused hcond, by rw [Edit.after, if_pos hrefused]; exact h⟩
      · rw [Edit.after, if_neg hrefused] at hlt ⊢
        rcases not_or.mp hrefused with ⟨hne, hpos⟩
        simp only [List.length_append, List.length_take, List.length_drop] at hlt
        rcases insert_spec h hne (not_lt.mp hpos) (by omega) fill with ⟨str', hrun, hholds⟩
        exact ⟨0, str', hrun, hholds⟩
  | append buf =>
      have h := hmade.resolve_left id
      by_cases hne : buf = []
      · have hcond : buf.length = 0 ∨ str.length < str.length := .inl (List.length_eq_zero_iff.mpr hne)
        exact ⟨-1, str, insert_refused hcond, by rw [Edit.after, hne, List.append_nil]; exact h⟩
      · rw [Edit.after, List.length_append] at hlt
        rcases insert_spec h hne (le_refl _) hlt fill with ⟨str', hrun, hholds⟩
        rw [List.take_length, List.drop_length, List.append_nil] at hholds
        rw [← h.length] at hrun
        exact ⟨0, str', hrun, hholds⟩
  | copy buf =>
      have h := hmade.resolve_left id
      by_cases hne : buf = []
      · refine ⟨-1, str, ?_, by rw [Edit.after, if_pos hne]; exact h⟩
        rw [Edit.run, copy, if_pos (List.length_eq_zero_iff.mpr hne)]
      · rw [Edit.after, if_neg hne] at hlt ⊢
        rcases copy_spec h hne hlt fill with ⟨str', hrun, hholds⟩
        exact ⟨0, str', hrun, hholds⟩
  | reverse =>
      rcases reverse_spec (hmade.resolve_left id) with ⟨str', hrun, hholds⟩
      rw [(reversed_eq_iff s).mpr hclean] at hholds
      exact ⟨0, str', hrun, hholds⟩
  | clear =>
      rcases clear_spec (hmade.resolve_left id) with ⟨str', hrun, hholds⟩
      exact ⟨0, str', by rw [Edit.run, hrun]; rfl, hholds⟩
  | realloc size =>
      rcases strRealloc_spec (hmade.resolve_left id) hargs.1 hargs.2 fill with
        ⟨str', hrun, hholds, -⟩
      exact ⟨0, str', hrun, hholds⟩

theorem Shows.text_eq {t : Bytes} (h : Shows s str) (h' : Shows t str) : s = t := by
  rcases h.data with ⟨block, hdata, htake, -⟩
  rcases h'.data with ⟨block', hdata', htake', -⟩
  rw [hdata, Option.some_inj] at hdata'
  rw [← htake, ← htake', hdata']

/-- A call that is not clean faults, or leaves another text. -/
theorem run_unclean {edit : Edit} (hmade : edit.Makes ∨ Holds s str) (hbounded : edit.Bounded s)
    (hclean : ¬ edit.Clean s) {ret : ℤ} {str' : Text} (hrun : edit.run str fill = some (ret, str')) :
    ¬ Shows (edit.after s) str' := by
  cases edit with
  | init size =>
      rw [Edit.run, init_fault (not_le.mp hclean) hbounded.2.2] at hrun
      cases hrun
  | reverse =>
      rcases reverse_spec (hmade.resolve_left id) with ⟨str'', hrun', hholds⟩
      obtain ⟨-, rfl⟩ : 0 = ret ∧ str'' = str' := by
        have heq := hrun'.symm.trans hrun
        simpa using heq
      exact fun hshows ↦ hclean ((reversed_eq_iff s).mp (hholds.shows.text_eq hshows))
  | initCopy buf => exact absurd trivial hclean
  | insert pos buf => exact absurd trivial hclean
  | append buf => exact absurd trivial hclean
  | copy buf => exact absurd trivial hclean
  | clear => exact absurd trivial hclean
  | realloc size => exact absurd trivial hclean

end Calls

/-! ## Runs -/

/-- A call with the bytes that it finds in new memory. -/
abbrev Step := Edit × (ℕ → UInt8)

/-- The string object shows the text after every call. -/
def Follows : Bytes → Text → List Step → Prop
  | _, _, [] => True
  | s, str, (edit, fill) :: calls =>
      ∃ ret str', edit.run str fill = some (ret, str') ∧ Shows (edit.after s) str' ∧
        Follows (edit.after s) str' calls

/-- Every call has a property for the text that it meets. -/
def Along (p : Bytes → Edit → Prop) : Bytes → List Step → Prop
  | _, [] => True
  | s, (edit, _) :: calls => p s edit ∧ Along p (edit.after s) calls

/-- The calls make a string object before they use it. -/
def MakesFirst : List Step → Prop
  | [] => True
  | (edit, _) :: _ => edit.Makes

theorem follows_iff {s : Bytes} {str : Text} {calls : List Step}
    (hmade : MakesFirst calls ∨ Holds s str) (hbounded : Along (fun s edit ↦ edit.Bounded s) s calls) :
    Follows s str calls ↔ Along (fun s edit ↦ edit.Clean s) s calls := by
  induction calls generalizing s str with
  | nil => exact Iff.rfl
  | cons call calls ih =>
      obtain ⟨edit, fill⟩ := call
      obtain ⟨hcall, hrest⟩ := hbounded
      rw [Follows, Along]
      by_cases hclean : edit.Clean s
      · have hran : ∃ ret str', edit.run str fill = some (ret, str') ∧ Holds (edit.after s) str' :=
          run_clean hmade hcall hclean
        rcases hran with ⟨ret, str', hrun, hholds⟩
        rw [and_iff_right hclean, ← ih (.inr hholds) hrest]
        constructor
        · rintro ⟨ret', str'', hrun', -, hfollows⟩
          obtain ⟨-, rfl⟩ : ret = ret' ∧ str' = str'' := by
            have heq := hrun.symm.trans hrun'
            simpa using heq
          exact hfollows
        · exact fun hfollows ↦ ⟨ret, str', hrun, hholds.shows, hfollows⟩
      · refine iff_of_false ?_ fun h ↦ hclean h.1
        rintro ⟨ret, str', hrun, hshows, -⟩
        exact run_unclean hmade hcall hclean hrun hshows

/-- For every sequence of calls that makes a string object first, with memory granted and the text
shorter than `2 ^ 31 - 1`: the object shows the text after every call just if every call is clean. -/
theorem string_refines_bytes (str : Text) {calls : List Step} (hmakes : MakesFirst calls)
    (hbounded : Along (fun s edit ↦ edit.Bounded s) [] calls) :
    Follows [] str calls ↔ Along (fun s edit ↦ edit.Clean s) [] calls :=
  follows_iff (.inl hmakes) hbounded

/-- A string that holds `a`, a zero byte and `b`, and one more call on it. -/
def withNul (edit : Edit) : List Step := [(.initCopy [97, 0, 98], fun _ ↦ 0), (edit, fun _ ↦ 0)]

theorem bounded_withNul {edit : Edit} (h : edit.Bounded [97, 0, 98]) :
    Along (fun s edit ↦ edit.Bounded s) [] (withNul edit) :=
  ⟨⟨by decide, by decide⟩, h, trivial⟩

theorem string_refines_bytes_small : Follows [] ⟨0, 0, none⟩ (withNul (.append [99])) := by
  have hbounded := bounded_withNul (show (Edit.append [99]).Bounded [97, 0, 98] from
    ⟨by decide, by decide⟩)
  have hmakes : MakesFirst (withNul (.append [99])) := trivial
  exact (string_refines_bytes _ hmakes hbounded).mpr ⟨trivial, trivial, trivial⟩

/-- Reversing leaves it as it is. -/
theorem reverse_with_nul :
    Along (fun s edit ↦ edit.Bounded s) [] (withNul .reverse) ∧
      ¬ Follows [] ⟨0, 0, none⟩ (withNul .reverse) := by
  have hbounded := bounded_withNul (show Edit.reverse.Bounded [97, 0, 98] from ⟨by decide, trivial⟩)
  refine ⟨hbounded, fun hfollows ↦ ?_⟩
  have hmakes : MakesFirst (withNul .reverse) := trivial
  have hclean := ((follows_iff (.inl hmakes) hbounded).mp hfollows).2.1
  revert hclean
  decide

end CPractice.LiskString
