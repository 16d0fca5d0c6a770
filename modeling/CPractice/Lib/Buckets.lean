import Mathlib.Data.List.Perm.Basic

/-!
# Buckets

A table of buckets whose elements lie in the bucket of their index.  Up to order its content is the
concatenation of the buckets, and a change of one bucket changes the content by what the bucket loses and
gets.
-/

namespace CPractice.Lib

variable {α : Type*} {index : α → ℕ} {table : List (List α)} {b b' : List α} {i : ℕ} {x : α}

/-- Each element lies in the bucket of its index. -/
def Placed (index : α → ℕ) (table : List (List α)) : Prop :=
  ∀ i b, table[i]? = some b → ∀ x ∈ b, index x = i

theorem placed_replicate (index : α → ℕ) (n : ℕ) : Placed index (List.replicate n []) := by
  intro i b hb x hx
  rw [List.getElem?_replicate] at hb
  split at hb
  · rw [← Option.some.inj hb] at hx
    exact absurd hx (by simp)
  · cases hb

namespace Placed

theorem mem_iff (h : Placed index table) :
    x ∈ table.flatten ↔ ∃ b, table[index x]? = some b ∧ x ∈ b := by
  rw [List.mem_flatten]
  constructor
  · intro hx
    obtain ⟨b, hb, hmem⟩ := hx
    obtain ⟨i, hi⟩ := List.mem_iff_getElem?.mp hb
    refine ⟨b, ?_, hmem⟩
    rw [h i b hi x hmem]
    exact hi
  · intro hx
    obtain ⟨b, hb, hmem⟩ := hx
    exact ⟨b, List.mem_of_getElem? hb, hmem⟩

/-- The bucket of an index has all the elements of that index. -/
theorem mem_bucket_iff (h : Placed index table) (hb : table[i]? = some b) :
    x ∈ b ↔ x ∈ table.flatten ∧ index x = i := by
  rw [h.mem_iff]
  constructor
  · intro hx
    have hi := h i b hb x hx
    exact ⟨⟨b, by rw [hi]; exact hb, hx⟩, hi⟩
  · intro hx
    obtain ⟨⟨c, hc, hmem⟩, hi⟩ := hx
    rw [hi, hb] at hc
    rwa [Option.some.inj hc]

theorem set (h : Placed index table) (i : ℕ) (hb : ∀ x ∈ b', index x = i) :
    Placed index (table.set i b') := by
  intro j c hc x hx
  rw [List.getElem?_set] at hc
  split at hc
  · next heq =>
      split at hc
      · rw [← Option.some.inj hc] at hx
        rw [← heq]
        exact hb x hx
      · cases hc
  · exact h j c hc x hx

end Placed

/-- What a bucket loses and gets, the table loses and gets. -/
theorem flatten_set (hb : table[i]? = some b) (b' : List α) :
    ((table.set i b').flatten ++ b).Perm (table.flatten ++ b') := by
  obtain ⟨hi, hget⟩ := List.getElem?_eq_some_iff.mp hb
  have hsplit : table = table.take i ++ b :: table.drop (i + 1) := by
    rw [← hget, List.getElem_cons_drop, List.take_append_drop]
  have hset : table.set i b' = table.take i ++ b' :: table.drop (i + 1) :=
    List.set_eq_take_append_cons_drop.trans (if_pos hi)
  rw [hset]
  conv => rhs; rw [hsplit]
  simp only [List.flatten_append, List.flatten_cons, List.append_assoc]
  apply List.Perm.append_left
  rw [← List.append_assoc]
  calc ((b' ++ (table.drop (i + 1)).flatten) ++ b).Perm (b ++ (b' ++ (table.drop (i + 1)).flatten)) :=
        List.perm_append_comm
    (b ++ (b' ++ (table.drop (i + 1)).flatten)).Perm (b ++ ((table.drop (i + 1)).flatten ++ b')) :=
        List.perm_append_comm.append_left b

/-- An element is put in front of a bucket. -/
theorem flatten_push (hb : table[i]? = some b) (x : α) :
    (table.set i (x :: b)).flatten.Perm (x :: table.flatten) := by
  have hperm := flatten_set hb (x :: b)
  apply (List.perm_append_right_iff b).mp
  calc ((table.set i (x :: b)).flatten ++ b).Perm (table.flatten ++ x :: b) := hperm
    (table.flatten ++ x :: b).Perm (x :: (table.flatten ++ b)) := List.perm_middle

/-- A bucket is emptied. -/
theorem flatten_clear (hb : table[i]? = some b) :
    ((table.set i []).flatten ++ b).Perm table.flatten := by
  have hperm := flatten_set hb []
  rwa [List.append_nil] at hperm

/-- An element is taken out of a bucket. -/
theorem flatten_remove (hb : table[i]? = some b) (hx : b.Perm (x :: b')) :
    table.flatten.Perm (x :: (table.set i b').flatten) := by
  apply (List.perm_append_right_iff b').mp
  calc (table.flatten ++ b').Perm ((table.set i b').flatten ++ b) := (flatten_set hb b').symm
    ((table.set i b').flatten ++ b).Perm ((table.set i b').flatten ++ x :: b') := hx.append_left _
    ((table.set i b').flatten ++ x :: b').Perm (x :: ((table.set i b').flatten ++ b')) :=
      List.perm_middle

/-- An element of a bucket is replaced. -/
theorem flatten_replace {y : α} {l : List α} (hb : table[i]? = some b) (hx : b.Perm (x :: l))
    (hy : b'.Perm (y :: l)) :
    ∃ rest, table.flatten.Perm (x :: rest) ∧ (table.set i b').flatten.Perm (y :: rest) := by
  have hrest := flatten_remove hb hx
  refine ⟨(table.set i l).flatten, hrest, (List.perm_append_right_iff b).mp ?_⟩
  calc ((table.set i b').flatten ++ b).Perm (table.flatten ++ b') := flatten_set hb b'
    (table.flatten ++ b').Perm ((x :: (table.set i l).flatten) ++ y :: l) := hrest.append hy
    ((x :: (table.set i l).flatten) ++ y :: l).Perm (y :: ((x :: (table.set i l).flatten) ++ l)) :=
      List.perm_middle
    (y :: ((x :: (table.set i l).flatten) ++ l)).Perm (y :: ((table.set i l).flatten ++ x :: l)) :=
      List.perm_middle.symm.cons y
    (y :: ((table.set i l).flatten ++ x :: l)).Perm ((y :: (table.set i l).flatten) ++ b) :=
      (hx.symm.append_left _).cons y

end CPractice.Lib
