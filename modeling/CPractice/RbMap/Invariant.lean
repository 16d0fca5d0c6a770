import CPractice.RbMap.Refinement

/-!
# The red-black invariant of every run

The invariant in the terms of the memory: the nodes form a tree whose parent fields point back up,
with the keys in order, the root black, no red node below a red one and equally many black nodes on
every path, and `size`, `min` and `max` are those of the tree.  A read through `nil` faults, so a
call that returns has not read through one.
-/

namespace CPractice.RbMap

open Lib

variable {κ : Type}

/-- The memory links up a tree at a pointer: the parent of every node is the one that points to it. -/
def Linked (mem : Ptr → Option (RbNode κ)) : Ptr → Ptr → Tree κ → Prop
  | _, p, .nil => p = 0
  | parent, p, .node color entry left right =>
      p = entry.addr ∧ ∃ n, mem p = some n ∧ rbParent n = parent ∧ rbColor n = color.bit ∧
        n.key = entry.key ∧ Linked mem p n.left left ∧ Linked mem p n.right right

namespace Tree

/-- No red node has a red child. -/
def NoRedRed : Tree κ → Prop
  | nil => True
  | node color _ left right =>
      (color = .red → left.color = .black ∧ right.color = .black) ∧ left.NoRedRed ∧ right.NoRedRed

/-- The numbers of black nodes on the paths from the root to the empty trees. -/
def blackCounts : Tree κ → List ℕ
  | nil => [0]
  | node color _ left right =>
      (left.blackCounts ++ right.blackCounts).map fun n ↦ if color = .black then n + 1 else n

/-- The leftmost node. -/
def leftmost : Tree κ → Ptr
  | nil => 0
  | node _ entry nil _ => entry.addr
  | node _ _ (node color entry left right) _ => (node color entry left right).leftmost

/-- The rightmost node. -/
def rightmost : Tree κ → Ptr
  | nil => 0
  | node _ entry _ nil => entry.addr
  | node _ _ _ (node color entry left right) => (node color entry left right).rightmost

theorem Balanced.noRedRed {t : Tree κ} {height : ℕ} (h : t.Balanced height) : t.NoRedRed := by
  induction t generalizing height with
  | nil => trivial
  | node color entry left right ihl ihr =>
      cases color with
      | red => exact ⟨fun _ ↦ ⟨h.1, h.2.1⟩, ihl h.2.2.1, ihr h.2.2.2⟩
      | black =>
          rcases h with ⟨below, -, hleft, hright⟩
          exact ⟨fun hred ↦ (by cases hred), ihl hleft, ihr hright⟩

theorem Balanced.blackCounts_eq {t : Tree κ} {height : ℕ} (h : t.Balanced height) :
    ∀ count ∈ t.blackCounts, count = height := by
  induction t generalizing height with
  | nil =>
      intro count hcount
      rw [List.mem_singleton.mp hcount]
      exact h.symm
  | node color entry left right ihl ihr =>
      intro count hcount
      rcases List.mem_map.mp hcount with ⟨n, hn, rfl⟩
      cases color with
      | red =>
          rw [if_neg fun hblack ↦ (by cases hblack)]
          rcases List.mem_append.mp hn with hn | hn
          · exact ihl h.2.2.1 n hn
          · exact ihr h.2.2.2 n hn
      | black =>
          rcases h with ⟨below, rfl, hleft, hright⟩
          rw [if_pos rfl]
          rcases List.mem_append.mp hn with hn | hn
          · rw [ihl hleft n hn]
          · rw [ihr hright n hn]

theorem inorder_node_ne_nil (color : Color) (entry : Entry κ) (left right : Tree κ) :
    (node color entry left right).inorder ≠ [] :=
  List.append_ne_nil_of_right_ne_nil _ (List.cons_ne_nil _ _)

theorem leftmost_eq (t : Tree κ) : t.leftmost = firstPtr t.inorder := by
  induction t with
  | nil => rfl
  | node color entry left right ihl _ =>
      cases left with
      | nil => rfl
      | node color' entry' left' right' =>
          have hne := inorder_node_ne_nil color' entry' left' right'
          exact ihl.trans (firstPtr_append hne (entry :: right.inorder)).symm

theorem rightmost_eq (t : Tree κ) : t.rightmost = lastPtr t.inorder := by
  induction t with
  | nil => rfl
  | node color entry left right _ ihr =>
      cases right with
      | nil =>
          rw [rightmost, inorder, lastPtr_append (List.cons_ne_nil _ _)]
          rfl
      | node color' entry' left' right' =>
          have hne := inorder_node_ne_nil color' entry' left' right'
          calc (node color entry left (node color' entry' left' right')).rightmost
              = lastPtr (node color' entry' left' right').inorder := ihr
            _ = lastPtr (left.inorder ++ [entry] ++ (node color' entry' left' right').inorder) :=
                (lastPtr_append hne _).symm
            _ = lastPtr (node color entry left (node color' entry' left' right')).inorder := by
                rw [List.append_assoc]
                rfl

theorem leftmost_eq_zero_iff (t : Tree κ) : t.leftmost = 0 ↔ t = nil := by
  rw [t.leftmost_eq, firstPtr_eq_zero_iff, t.inorder_eq_nil_iff]

theorem rightmost_eq_zero_iff (t : Tree κ) : t.rightmost = 0 ↔ t = nil := by
  rw [t.rightmost_eq, lastPtr, firstPtr_eq_zero_iff, List.reverse_eq_nil_iff, t.inorder_eq_nil_iff]

end Tree

/-- A tree in memory is linked up below its parent. -/
theorem Holds.linked {root : RbRoot κ} {path : List (Frame κ)} {t : Tree κ} (h : Holds root path t) :
    Linked root.mem (parentOf path) t.ptr t := by
  induction t generalizing path with
  | nil => rfl
  | node color entry left right ihl ihr =>
      have hnode : Holds root path (Tree.make .left color entry left right) := h
      exact ⟨rfl, _, hnode.load, rbParent_sideCell _ _ _ _ _ (parentOf_aligned path),
        rbColor_sideCell _ _ _ _ _ (parentOf_aligned path), rfl, ihl (holds_near.mp hnode),
        ihr (holds_far.mp hnode)⟩

variable [LinearOrder κ] {cmp : κ → κ → ℤ}

/-- For every run the nodes form a red-black tree with parent links, ordered keys, and the size and
the ends that the root caches; nothing is stored at `nil`, and no further call faults. -/
theorem map_invariant (hcmp : TotalOrderCmp cmp) {root : RbRoot κ} {log : List (Call κ × Ret κ)}
    (htrace : (machine cmp).Trace root log) :
    (∃ t : Tree κ, Linked root.mem 0 root.node t ∧
      (t.inorder.map Entry.key).Pairwise (· < ·) ∧
      t.color = .black ∧ t.NoRedRed ∧
      (∃ height, ∀ count ∈ t.blackCounts, count = height) ∧
      root.size = t.inorder.length ∧
      root.min = t.leftmost ∧ root.max = t.rightmost ∧
      (root.min = 0 ↔ t = .nil) ∧ (root.max = 0 ↔ t = .nil)) ∧
    root.mem 0 = none ∧
    ∀ call, callOk root call → (callExec cmp root call).isSome := by
  have hboth := htrace.refines (fun _ ↦ none) (fun _ hinit ↦ hinit ▸ refines_init)
    (call_simulates hcmp)
  rcases hboth with ⟨⟨t, entries, h⟩, hcalls⟩
  have hsettled := h.represents.settled
  have hnode : root.node = t.ptr := hsettled.holds.root_eq
  have hmin : root.min = t.leftmost := by rw [t.leftmost_eq, hsettled.inorder, h.represents.min]
  have hmax : root.max = t.rightmost := by rw [t.rightmost_eq, hsettled.inorder, h.represents.max]
  rcases hsettled.balanced with ⟨height, hbalanced⟩
  refine ⟨⟨t, ?_, ?_, hsettled.black, hbalanced.noRedRed, ⟨height, hbalanced.blackCounts_eq⟩, ?_,
    hmin, hmax, ?_, ?_⟩, h.mem_zero, ?_⟩
  · rw [hnode]
    exact hsettled.holds.linked
  · rw [hsettled.inorder]
    exact List.pairwise_map.mpr h.sorted
  · rw [hsettled.inorder]
    exact h.represents.size
  · rw [hmin]
    exact t.leftmost_eq_zero_iff
  · rw [hmax]
    exact t.rightmost_eq_zero_iff
  · intro call hok
    rcases hcalls call hok with ⟨ret, root', hexec, -⟩
    exact Option.isSome_of_eq_some hexec

theorem map_invariant_small :
    ∃ root log, (machine numCmp).Trace root log ∧ root.size = 3 ∧
      ∃ t : Tree ℕ, Linked root.mem 0 root.node t ∧ t.NoRedRed ∧ t.inorder.length = 3 := by
  have hsize : (((machine numCmp).execAll rbInit smallCalls).get smallCalls_run).2.size = 3 := by
    with_unfolding_all decide
  rcases map_invariant numCmp_total smallCalls_trace with
    ⟨⟨t, hlinked, -, -, hcolors, -, hcount, -⟩, -, -⟩
  exact ⟨_, _, smallCalls_trace, hsize, t, hlinked, hcolors, hcount.symm.trans hsize⟩

end CPractice.RbMap
