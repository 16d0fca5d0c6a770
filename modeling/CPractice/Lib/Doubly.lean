import CPractice.Lib.Linked

/-!
# Doubly linked cycles

`next` and `prev` read the two pointers of a node.  A cycle through `head` is a path that starts and
ends at `head` and can be walked in both directions.  A gap of the cycle is a way to write its nodes
behind the head as `left ++ right`; a node is linked into a gap, or unlinked from between two
lists, by stores into the two nodes at the ends of the gap only.
-/

namespace CPractice.Lib

variable {α : Type*} {next prev next' prev' : α → Option α} {path left right : List α}
variable {head x : α}

/-- Each node of `path` points to the one after it, which points back. -/
def DoublyLinked (next prev : α → Option α) (path : List α) : Prop :=
  path.IsChain fun a b ↦ next a = some b ∧ prev b = some a

/-- The nodes `head :: nodes` form a cycle. -/
def Cycle (next prev : α → Option α) (head : α) (nodes : List α) : Prop :=
  DoublyLinked next prev (head :: nodes ++ [head])

/-- The forward pointer of the last node and the backward pointer of the first are not read. -/
theorem DoublyLinked.congr (h : DoublyLinked next prev path)
    (hnext : ∀ a ∈ path.dropLast, next' a = next a) (hprev : ∀ a ∈ path.tail, prev' a = prev a) :
    DoublyLinked next' prev' path := by
  induction path with
  | nil => exact List.isChain_nil
  | cons a path ih =>
      cases path with
      | nil => exact List.isChain_singleton a
      | cons b path =>
          have hparts := List.isChain_cons_cons.mp h
          apply List.isChain_cons_cons.mpr
          constructor
          · rw [hnext a (by simp), hprev b (by simp)]
            exact hparts.1
          · apply ih hparts.2
            · intro c hc
              apply hnext c
              rw [List.dropLast_cons_cons]
              exact List.mem_cons_of_mem a hc
            · intro c hc
              exact hprev c (List.mem_cons_of_mem b hc)

namespace Cycle

theorem congr (h : Cycle next prev head path) (hnext : ∀ a ∈ head :: path, next' a = next a)
    (hprev : ∀ a ∈ head :: path, prev' a = prev a) : Cycle next' prev' head path := by
  apply DoublyLinked.congr h
  · intro a ha
    rw [List.dropLast_concat] at ha
    exact hnext a ha
  · intro a ha
    apply hprev a
    simpa [or_comm] using ha

/-- A cycle, seen from a gap. -/
theorem parts_iff : Cycle next prev head (left ++ right) ↔
    DoublyLinked next prev (head :: left) ∧
      (next (lastFrom head left) = some (firstOr head right) ∧
        prev (firstOr head right) = some (lastFrom head left)) ∧
      DoublyLinked next prev (right ++ [head]) := by
  rcases exists_concat_lastFrom head left with ⟨before, hbefore⟩
  rcases exists_cons_firstOr head right with ⟨after, hafter⟩
  have hlist : head :: (left ++ right) ++ [head] =
      before ++ lastFrom head left :: firstOr head right :: after := by
    calc head :: (left ++ right) ++ [head] = (head :: left) ++ (right ++ [head]) := by simp
      _ = before ++ lastFrom head left :: firstOr head right :: after := by
        rw [hbefore, hafter]
        simp
  unfold Cycle DoublyLinked
  rw [hlist, List.isChain_append_cons_cons, hbefore, hafter]

/-- The pointers across a gap. -/
theorem gap (h : Cycle next prev head (left ++ right)) :
    next (lastFrom head left) = some (firstOr head right) ∧
      prev (firstOr head right) = some (lastFrom head left) :=
  (parts_iff.mp h).2.1

/-- The forward pointer of the head. -/
theorem next_head (h : Cycle next prev head path) : next head = some (firstOr head path) := by
  have hsplit : Cycle next prev head ([] ++ path) := h
  exact hsplit.gap.1

theorem lastFrom_mem (head : α) (left right : List α) :
    lastFrom head left ∈ head :: (left ++ right) := by
  rcases Lib.lastFrom_mem head left with heq | hmem
  · rw [heq]
    exact List.mem_cons_self
  · exact List.mem_cons_of_mem _ (List.mem_append_left _ hmem)

theorem firstOr_mem (head : α) (left right : List α) :
    firstOr head right ∈ head :: (left ++ right) := by
  cases right with
  | nil => exact List.mem_cons_self
  | cons b right => simp

/-- The two parts of a cycle away from a gap read neither pointer across it. -/
theorem parts_congr (hnodup : (head :: (left ++ right)).Nodup)
    (hleft : DoublyLinked next prev (head :: left))
    (hright : DoublyLinked next prev (right ++ [head]))
    (hnext : ∀ a ∈ head :: (left ++ right), a ≠ lastFrom head left → next' a = next a)
    (hprev : ∀ a ∈ head :: (left ++ right), a ≠ firstOr head right → prev' a = prev a) :
    DoublyLinked next' prev' (head :: left) ∧ DoublyLinked next' prev' (right ++ [head]) := by
  rcases exists_concat_lastFrom head left with ⟨before, hbefore⟩
  rcases exists_cons_firstOr head right with ⟨after, hafter⟩
  have hnodup' : ((before ++ [lastFrom head left]) ++ right).Nodup := by
    rw [← hbefore]
    exact hnodup
  have hparts := List.nodup_append.mp hnodup'
  have hrotated : (left ++ (firstOr head right :: after)).Nodup := by
    rw [← hafter, ← List.append_assoc]
    exact (List.perm_append_singleton head (left ++ right)).nodup_iff.mpr hnodup
  have hrotatedParts := List.nodup_append.mp hrotated
  constructor
  · apply hleft.congr
    · intro a ha
      rw [hbefore, List.dropLast_concat] at ha
      apply hnext a
      · rw [← List.cons_append, hbefore]
        exact List.mem_append_left _ (List.mem_append_left _ ha)
      · intro heq
        exact (List.nodup_append.mp hparts.1).2.2 a ha _ (List.mem_singleton_self _) heq
    · intro a ha
      rw [List.tail_cons] at ha
      apply hprev a (List.mem_cons_of_mem _ (List.mem_append_left _ ha))
      intro heq
      exact hrotatedParts.2.2 a ha _ List.mem_cons_self heq
  · apply hright.congr
    · intro a ha
      rw [List.dropLast_concat] at ha
      apply hnext a (List.mem_cons_of_mem _ (List.mem_append_right _ ha))
      intro heq
      exact hparts.2.2 _ (List.mem_append_right _ (List.mem_singleton_self _)) a ha heq.symm
    · intro a ha
      rw [hafter, List.tail_cons] at ha
      have hmem : a ∈ right ++ [head] := by
        rw [hafter]
        exact List.mem_cons_of_mem _ ha
      apply hprev a
      · rcases List.mem_append.mp hmem with hr | hh
        · exact List.mem_cons_of_mem _ (List.mem_append_right _ hr)
        · rw [List.mem_singleton.mp hh]
          exact List.mem_cons_self
      · intro heq
        exact (List.nodup_cons.mp hrotatedParts.2.1).1 (heq ▸ ha)

/-- `x` is linked into a gap. -/
theorem link (h : Cycle next prev head (left ++ right)) (hnodup : (head :: (left ++ right)).Nodup)
    (hout : next' (lastFrom head left) = some x) (hback : prev' x = some (lastFrom head left))
    (hon : next' x = some (firstOr head right)) (hin : prev' (firstOr head right) = some x)
    (hnext : ∀ a ∈ head :: (left ++ right), a ≠ lastFrom head left → next' a = next a)
    (hprev : ∀ a ∈ head :: (left ++ right), a ≠ firstOr head right → prev' a = prev a) :
    Cycle next' prev' head (left ++ x :: right) := by
  rcases parts_iff.mp h with ⟨hleft, -, hright⟩
  rcases parts_congr hnodup hleft hright hnext hprev with ⟨hleft', hright'⟩
  apply parts_iff.mpr
  refine ⟨hleft', ⟨hout, hback⟩, ?_⟩
  rcases exists_cons_firstOr head right with ⟨after, hafter⟩
  rw [hafter] at hright'
  rw [List.cons_append, hafter]
  exact List.isChain_cons_cons.mpr ⟨⟨hon, hin⟩, hright'⟩

/-- `x` is unlinked. -/
theorem unlink (h : Cycle next prev head (left ++ x :: right))
    (hnodup : (head :: (left ++ x :: right)).Nodup)
    (hout : next' (lastFrom head left) = some (firstOr head right))
    (hin : prev' (firstOr head right) = some (lastFrom head left))
    (hnext : ∀ a ∈ head :: (left ++ right), a ≠ lastFrom head left → next' a = next a)
    (hprev : ∀ a ∈ head :: (left ++ right), a ≠ firstOr head right → prev' a = prev a) :
    Cycle next' prev' head (left ++ right) := by
  rcases parts_iff.mp h with ⟨hleft, -, hright⟩
  have hsub : (head :: (left ++ right)).Nodup := by
    apply List.Nodup.sublist _ hnodup
    exact ((List.sublist_cons_self x right).append_left left).cons_cons head
  rcases parts_congr hsub hleft (List.IsChain.tail hright) hnext hprev with ⟨hleft', hright'⟩
  exact parts_iff.mpr ⟨hleft', ⟨hout, hin⟩, hright'⟩

/-- The pointers of a node behind the head. -/
theorem pointers (h : Cycle next prev head (left ++ x :: right)) :
    next x = some (firstOr head right) ∧ prev x = some (lastFrom head left) := by
  constructor
  · have hgap : Cycle next prev head ((left ++ [x]) ++ right) := by
      rw [List.append_assoc]
      exact h
    simpa using hgap.gap.1
  · exact h.gap.2

end Cycle

end CPractice.Lib
