import Mathlib.Data.List.Chain
import Mathlib.Data.List.Nodup

/-!
# Singly linked paths

A pointer structure is seen through a function `next` that reads one pointer of a node.  `Path next
path` says that the nodes of `path` point to each other in order.  The rules are those an imperative
list needs: a store elsewhere keeps the path, a node can be spliced in behind a node of the path,
and the node behind it can be unlinked.
-/

namespace CPractice.Lib

variable {α : Type*} {next next' : α → Option α} {before after : List α} {pre cur new : α}

/-- The last node of `a :: nodes`. -/
def lastFrom : α → List α → α
  | a, [] => a
  | _, x :: xs => lastFrom x xs

/-- The first node of `nodes ++ [z]`. -/
def firstOr (z : α) : List α → α
  | [] => z
  | y :: _ => y

@[simp]
theorem lastFrom_nil (a : α) : lastFrom a [] = a := rfl

@[simp]
theorem lastFrom_cons (a x : α) (xs : List α) : lastFrom a (x :: xs) = lastFrom x xs := rfl

@[simp]
theorem firstOr_nil (z : α) : firstOr z [] = z := rfl

@[simp]
theorem firstOr_cons (z y : α) (ys : List α) : firstOr z (y :: ys) = y := rfl

@[simp]
theorem lastFrom_append_cons (a y : α) (xs ys : List α) :
    lastFrom a (xs ++ y :: ys) = lastFrom y ys := by
  induction xs generalizing a with
  | nil => rfl
  | cons x xs ih => exact ih x

theorem exists_concat_lastFrom (a : α) (xs : List α) :
    ∃ before, a :: xs = before ++ [lastFrom a xs] := by
  induction xs generalizing a with
  | nil => exact ⟨[], rfl⟩
  | cons x xs ih =>
      rcases ih x with ⟨before, hbefore⟩
      exact ⟨a :: before, by simp [hbefore]⟩

theorem exists_cons_firstOr (z : α) (ys : List α) : ∃ after, ys ++ [z] = firstOr z ys :: after := by
  cases ys with
  | nil => exact ⟨[], rfl⟩
  | cons y ys => exact ⟨ys ++ [z], rfl⟩

theorem lastFrom_mem (a : α) (xs : List α) : lastFrom a xs = a ∨ lastFrom a xs ∈ xs := by
  induction xs generalizing a with
  | nil => exact .inl rfl
  | cons x xs ih =>
      right
      rcases ih x with heq | hmem
      · rw [lastFrom_cons, heq]
        exact List.mem_cons_self
      · exact List.mem_cons_of_mem x hmem

/-- Each node of `path` but the last points to the one after it. -/
def Path (next : α → Option α) (path : List α) : Prop :=
  path.IsChain fun a b ↦ next a = some b

namespace Path

/-- A path only reads the pointers of its nodes before the last. -/
theorem congr_init {z : α} (h : Path next (before ++ [z]))
    (hagree : ∀ a ∈ before, next' a = next a) : Path next' (before ++ [z]) := by
  induction before with
  | nil => exact List.isChain_singleton z
  | cons a before ih =>
      have htail : Path next (before ++ [z]) := List.IsChain.tail h
      have hrest := ih htail fun b hb ↦ hagree b (List.mem_cons_of_mem a hb)
      apply List.isChain_cons.mpr
      constructor
      · intro y hy
        rw [hagree a List.mem_cons_self]
        exact (List.isChain_cons.mp h).1 y hy
      · exact hrest

theorem congr {path : List α} (h : Path next path) (hagree : ∀ a ∈ path, next' a = next a) :
    Path next' path := by
  apply List.IsChain.imp_of_mem_imp _ h
  intro a b ha _ hab
  rw [hagree a ha, hab]

/-- The pointer that leads from `pre` to `cur` in a path. -/
theorem next_eq (h : Path next (before ++ pre :: cur :: after)) : next pre = some cur :=
  (List.isChain_append_cons_cons.mp h).2.1

theorem next_head (h : Path next (pre :: cur :: after)) : next pre = some cur :=
  (List.isChain_cons_cons.mp h).1

/-- A path from a node in the middle. -/
theorem drop (before : List α) (h : Path next (before ++ pre :: after)) : Path next (pre :: after) :=
  (List.isChain_split.mp h).2

/-- `new` is spliced in between `pre` and `cur`. -/
theorem splice (h : Path next (before ++ pre :: cur :: after))
    (hnodup : (before ++ pre :: cur :: after).Nodup) (hpre : next' pre = some new)
    (hnew : next' new = some cur)
    (hagree : ∀ a ∈ before ++ pre :: cur :: after, a ≠ pre → next' a = next a) :
    Path next' (before ++ pre :: new :: cur :: after) := by
  have hparts := List.isChain_append_cons_cons.mp h
  have hdisjoint := List.nodup_append.mp hnodup
  have hleft : Path next' (before ++ [pre]) := by
    apply congr_init hparts.1
    intro a ha
    apply hagree a (List.mem_append_left _ ha)
    exact hdisjoint.2.2 a ha pre List.mem_cons_self
  have hright : Path next' (cur :: after) := by
    apply congr hparts.2.2
    intro a ha
    apply hagree a (List.mem_append_right _ (List.mem_cons_of_mem pre ha))
    intro heq
    exact (List.nodup_cons.mp hdisjoint.2.1).1 (heq ▸ ha)
  apply List.isChain_append_cons_cons.mpr
  exact ⟨hleft, hpre, List.isChain_cons_cons.mpr ⟨hnew, hright⟩⟩

/-- The node `cur` behind `pre` is unlinked. -/
theorem unlink {succ : α} (h : Path next (before ++ pre :: cur :: succ :: after))
    (hnodup : (before ++ pre :: cur :: succ :: after).Nodup) (hpre : next' pre = some succ)
    (hagree : ∀ a ∈ before ++ pre :: succ :: after, a ≠ pre → next' a = next a) :
    Path next' (before ++ pre :: succ :: after) := by
  have hparts := List.isChain_append_cons_cons.mp h
  have hdisjoint := List.nodup_append.mp hnodup
  have hleft : Path next' (before ++ [pre]) := by
    apply congr_init hparts.1
    intro a ha
    apply hagree a (List.mem_append_left _ ha)
    exact hdisjoint.2.2 a ha pre List.mem_cons_self
  have hright : Path next' (succ :: after) := by
    apply congr (List.IsChain.tail hparts.2.2)
    intro a ha
    apply hagree a (List.mem_append_right _ (List.mem_cons_of_mem pre ha))
    intro heq
    exact (List.nodup_cons.mp hdisjoint.2.1).1 (List.mem_cons_of_mem cur (heq ▸ ha))
  apply List.isChain_append_cons_cons.mpr
  exact ⟨hleft, hpre, hright⟩

end Path

end CPractice.Lib
