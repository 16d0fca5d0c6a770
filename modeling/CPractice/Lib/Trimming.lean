import Mathlib.Data.List.DropRight

/-!
# Trimming lists

A list is trimmed by dropping its longest prefix and its longest suffix of elements with a property.
Dropping all elements with the property is the same just if none of them stands between two others.
-/

namespace CPractice.Lib

variable {α : Type*} {p : α → Bool} {l a b : List α} {x : α}

/-- The list without its longest prefix and its longest suffix of elements with the property. -/
def trim (p : α → Bool) (l : List α) : List α := (l.rdropWhile p).dropWhile p

/-- An element with the property stands between two without it. -/
def HasInner (p : α → Bool) (l : List α) : Prop :=
  ∃ before x after, l = before ++ x :: after ∧ p x = true ∧ (∃ y ∈ before, p y = false) ∧
    ∃ y ∈ after, p y = false

/-! ## The two ends -/

theorem dropWhile_append_of_mem (h : ∃ y ∈ a, p y = false) :
    (a ++ b).dropWhile p = a.dropWhile p ++ b := by
  have hne : a.dropWhile p ≠ [] := by
    rw [ne_eq, List.dropWhile_eq_nil_iff]
    rintro hall
    rcases h with ⟨y, hy, hp⟩
    rw [hall y hy] at hp
    cases hp
  rw [List.dropWhile_append, if_neg (by simpa using hne)]

theorem rdropWhile_append_of_mem (h : ∃ y ∈ b, p y = false) :
    (a ++ b).rdropWhile p = a ++ b.rdropWhile p := by
  have h' : ∃ y ∈ b.reverse, p y = false := by
    rcases h with ⟨y, hy, hp⟩
    exact ⟨y, List.mem_reverse.mpr hy, hp⟩
  rw [List.rdropWhile, List.reverse_append, dropWhile_append_of_mem h', List.reverse_append,
    List.reverse_reverse, List.rdropWhile]

theorem rdropWhile_append_of_forall (h : ∀ y ∈ b, p y = true) :
    (a ++ b).rdropWhile p = a.rdropWhile p := by
  induction b using List.reverseRecOn with
  | nil => rw [List.append_nil]
  | append_singleton b x ih =>
      rw [List.forall_mem_append] at h
      rw [← List.append_assoc, List.rdropWhile_concat_pos p _ x (h.2 x (List.mem_singleton_self x))]
      exact ih h.1

/-- What is dropped at the end has the property. -/
theorem exists_rdropWhile (p : α → Bool) (l : List α) :
    ∃ back, l = l.rdropWhile p ++ back ∧ ∀ y ∈ back, p y = true :=
  ⟨l.rtakeWhile p, List.rdropWhile_append_rtakeWhile.symm, fun _ ↦ List.mem_rtakeWhile_imp⟩

/-- What is dropped at the front has the property. -/
theorem exists_dropWhile (p : α → Bool) (l : List α) :
    ∃ front, l = front ++ l.dropWhile p ∧ ∀ y ∈ front, p y = true :=
  ⟨l.takeWhile p, List.takeWhile_append_dropWhile.symm, fun _ ↦ List.mem_takeWhile_imp⟩

theorem head_dropWhile (h : l.dropWhile p = x :: a) : p x = false := by
  have hhead := List.head_dropWhile_not p (l := l) (by rw [h]; exact List.cons_ne_nil x a)
  simpa [h] using hhead

theorem getLast_rdropWhile (h : l.rdropWhile p = a ++ [x]) : p x = false := by
  have hne : l.rdropWhile p ≠ [] := by simp [h]
  have hlast := List.rdropWhile_last_not p l hne
  simpa [h] using hlast

/-! ## Dropping all of them -/

/-- The list without the elements with the property, from its trimmed part. -/
theorem filter_trim (p : α → Bool) (l : List α) :
    l.filter (fun x ↦ !p x) = (trim p l).filter (fun x ↦ !p x) := by
  rcases exists_rdropWhile p l with ⟨back, hback, hall⟩
  rcases exists_dropWhile p (l.rdropWhile p) with ⟨front, hfront, hall'⟩
  have hdrop : ∀ part : List α, (∀ y ∈ part, p y = true) → part.filter (fun x ↦ !p x) = [] := by
    intro part hpart
    rw [List.filter_eq_nil_iff]
    intro y hy
    simp [hpart y hy]
  calc
    l.filter (fun x ↦ !p x) = (l.rdropWhile p).filter (fun x ↦ !p x) := by
      conv_lhs => rw [hback, List.filter_append, hdrop back hall, List.append_nil]
    _ = (trim p l).filter (fun x ↦ !p x) := by
      conv_lhs => rw [hfront, List.filter_append, hdrop front hall', List.nil_append]
      rfl

theorem mem_trim_of_hasInner (h : HasInner p l) : ∃ x ∈ trim p l, p x = true := by
  rcases h with ⟨before, x, after, rfl, hx, hbefore, hafter⟩
  refine ⟨x, ?_, hx⟩
  rw [trim, List.append_cons, rdropWhile_append_of_mem hafter, List.append_assoc,
    dropWhile_append_of_mem hbefore]
  simp

theorem hasInner_of_mem_trim (hx : x ∈ trim p l) (hp : p x = true) : HasInner p l := by
  rcases List.append_of_mem hx with ⟨m, n, hmid⟩
  rcases exists_rdropWhile p l with ⟨back, hback, -⟩
  rcases exists_dropWhile p (l.rdropWhile p) with ⟨front, hfront, -⟩
  have hright : l.rdropWhile p = front ++ (m ++ x :: n) := by
    rw [← hmid]
    exact hfront
  have hbefore : ∃ y ∈ m, p y = false := by
    cases m with
    | nil =>
        rw [head_dropWhile hmid] at hp
        cases hp
    | cons y m => exact ⟨y, List.mem_cons_self, head_dropWhile hmid⟩
  have hafter : ∃ y ∈ n, p y = false := by
    rcases List.eq_nil_or_concat n with rfl | ⟨n, y, rfl⟩
    · have hlast : l.rdropWhile p = (front ++ m) ++ [x] := by rw [hright, List.append_assoc]
      rw [getLast_rdropWhile hlast] at hp
      cases hp
    · have hlast : l.rdropWhile p = (front ++ (m ++ x :: n)) ++ [y] := by simp [hright]
      exact ⟨y, by simp, getLast_rdropWhile hlast⟩
  refine ⟨front ++ m, x, n ++ back, ?_, hp, ?_, ?_⟩
  · rw [hback, hright]
    simp
  · rcases hbefore with ⟨y, hy, hp⟩
    exact ⟨y, List.mem_append_right front hy, hp⟩
  · rcases hafter with ⟨y, hy, hp⟩
    exact ⟨y, List.mem_append_left back hy, hp⟩

theorem filter_eq_trim_iff (p : α → Bool) (l : List α) :
    l.filter (fun x ↦ !p x) = trim p l ↔ ¬ HasInner p l := by
  rw [filter_trim, List.filter_eq_self]
  constructor
  · intro hall hinner
    rcases mem_trim_of_hasInner hinner with ⟨x, hx, hp⟩
    have hnot := hall x hx
    rw [hp] at hnot
    cases hnot
  · intro hnone x hx
    by_contra hp
    exact hnone (hasInner_of_mem_trim hx (by simpa using hp))

end CPractice.Lib
