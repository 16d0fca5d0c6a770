import CPractice.RbMap.EraseRebalance

/-!
# Unlinking a node

A node with one child at most is replaced by that child; a node with two children is replaced by its
successor, the leftmost node of its right subtree, which is relinked in place.  In both cases the tree
that is left has the node's entry taken out, and is short of one black node at most, where the
rebalancing starts.
-/

namespace CPractice.RbMap

open Lib

variable {κ : Type}

/-! ## Paths inside a subtree -/

/-- The parent of the hole of a path below a given parent. -/
def parentBelow : List (Frame κ) → Ptr → Ptr
  | [], top => top
  | frame :: _, _ => frame.entry.addr

/-- The cells of a path below a given parent. -/
def segmentCells : List (Frame κ) → Ptr → Ptr → Multiset (Ptr × RbNode κ)
  | [], _, _ => 0
  | frame :: path, top, hole =>
      (frame.entry.addr.1, sideCell frame.side frame.color frame.entry (parentBelow path top) hole
          frame.other.ptr) ::ₘ
        (frame.other.cells frame.entry.addr + segmentCells path top frame.entry.addr)

theorem plug_cells (path : List (Frame κ)) (t : Tree κ) (top : Ptr) :
    (plug path t).cells top = segmentCells path top t.ptr + t.cells (parentBelow path top) := by
  induction path generalizing t with
  | nil => rw [segmentCells, zero_add]; rfl
  | cons frame path ih =>
      rw [plug, ih, Frame.fill_ptr, segmentCells, Frame.fill, Tree.cells_make, parentBelow]
      simp only [← Multiset.singleton_add]
      ac_rfl

theorem plug_ptr (path : List (Frame κ)) (t : Tree κ) : (plug path t).ptr = rootOf path t.ptr := by
  induction path generalizing t with
  | nil => rfl
  | cons frame path ih => rw [plug, ih, Frame.fill_ptr, rootOf]

theorem parentOf_append (inner : List (Frame κ)) (frame : Frame κ) (outer : List (Frame κ)) :
    parentOf (inner ++ frame :: outer) = parentBelow inner frame.entry.addr := by
  cases inner <;> rfl

theorem holds_append {root : RbRoot κ} (inner outer : List (Frame κ)) (t : Tree κ) :
    Holds root (inner ++ outer) t ↔ Holds root outer (plug inner t) := by
  rw [holds_plug, holds_plug (plug inner t), plug_append]

/-! ## The extreme nodes -/

/-- A path that always goes to one side. -/
def AllOn (side : Side) (path : List (Frame κ)) : Prop := ∀ frame ∈ path, frame.side = side

theorem entriesBefore_of_left {path : List (Frame κ)} (h : AllOn .left path) :
    entriesBefore path = [] := by
  induction path with
  | nil => rfl
  | cons frame path ih =>
      have hside : frame.side = .left := h frame List.mem_cons_self
      rw [entriesBefore, hside]
      exact ih fun other hother ↦ h other (List.mem_cons_of_mem _ hother)

theorem entriesAfter_of_right {path : List (Frame κ)} (h : AllOn .right path) :
    entriesAfter path = [] := by
  induction path with
  | nil => rfl
  | cons frame path ih =>
      have hside : frame.side = .right := h frame List.mem_cons_self
      rw [entriesAfter, hside]
      exact ih fun other hother ↦ h other (List.mem_cons_of_mem _ hother)

/-- The walk to one side ends at the node without a child on that side. -/
theorem extreme_holds (side : Side) {fuel : ℕ} {root : RbRoot κ} {path : List (Frame κ)}
    {t : Tree κ} (h : Holds root path t) (ht : t ≠ .nil) (hfuel : t.inorder.length ≤ fuel) :
    ∃ inner color entry far, t = plug inner (Tree.make side color entry .nil far) ∧
      AllOn side inner ∧ extreme root side fuel t.ptr = some entry.addr.1 := by
  induction fuel generalizing path t with
  | zero =>
      cases t with
      | nil => exact absurd rfl ht
      | node color entry left right => simp [Tree.inorder] at hfuel
  | succ fuel ih =>
      rcases t.eq_nil_or_make side with hnil | ⟨entry, near, far, hmake⟩
      · exact absurd hnil ht
      rw [hmake] at h
      have hload := h.load
      by_cases hnear : near = .nil
      · refine ⟨[], t.color, entry, far, by rw [← hnear]; exact hmake, ?_, ?_⟩
        · intro frame hframe
          cases hframe
        · rw [hmake, Tree.ptr_make]
          simp only [extreme, hload, Option.bind_eq_bind, Option.bind_some, sideCell_near, hnear,
            Tree.ptr_nil, ne_eq, not_true_eq_false, if_false]
      · have hptr : near.ptr ≠ 0 := fun hzero ↦ hnear (near.ptr_eq_zero_iff.mp hzero)
        have hlength : near.inorder.length ≤ fuel := by
          rw [hmake, Tree.inorder_make] at hfuel
          cases side <;> simp at hfuel <;> omega
        rcases ih (holds_near.mp h) hnear hlength with
          ⟨inner, color', entry', far', hplug, hall, hextreme⟩
        refine ⟨inner ++ [⟨side, t.color, entry, far⟩], color', entry', far', ?_, ?_, ?_⟩
        · rw [plug_append, ← hplug]
          exact hmake
        · intro frame hframe
          rcases List.mem_append.mp hframe with hinner | hlast
          · exact hall frame hinner
          · rw [List.mem_singleton.mp hlast]
        · rw [hmake, Tree.ptr_make]
          simp only [extreme, hload, Option.bind_eq_bind, Option.bind_some, sideCell_near, ne_eq,
            hptr, not_false_eq_true, if_true, hextreme]

/-! ## The two ways to unlink -/

/-- `rb_set_parent` on a tree that is not empty. -/
theorem rbSetParent_owns {root : RbRoot κ} {t : Tree κ} {parent : Ptr}
    {rest : Multiset (Ptr × RbNode κ)} (parent' : Ptr) (ht : t ≠ .nil) (hparent : parent &&& 3 = 0)
    (h : Owns root.mem (t.cells parent + rest)) :
    ∃ root', rbSetParent root t.ptr parent' = some root' ∧ Stored root root' ∧
      Owns root'.mem (t.cells parent' + rest) := by
  have hif := setParentIf_owns parent' hparent h
  rwa [setParentIf, if_pos fun hzero ↦ ht (t.ptr_eq_zero_iff.mp hzero)] at hif

/-- A node with one child at most leaves its child in its place. -/
theorem unlinkOne_owns {root : RbRoot κ} {path : List (Frame κ)} {color : Color} {entry : Entry κ}
    {left right child : Tree κ} (h : Holds root path (.node color entry left right))
    (hone : child = left ∧ right = .nil ∨ child = right ∧ left = .nil) :
    ∃ root', unlinkOne root entry.addr (nodeCell color entry (parentOf path) left.ptr right.ptr) =
        some (root', parentOf path, child.ptr, decide (color = .black)) ∧ Relinked root root' ∧
      root'.node = rootOf path child.ptr ∧
      Owns root'.mem ((entry.addr.1, nodeCell color entry (parentOf path) left.ptr right.ptr) ::ₘ
        (pathCells path child.ptr + child.cells (parentOf path))) := by
  have hnode : Holds root path (Tree.make .left color entry left right) := h
  have hchild : (if left.ptr ≠ 0 then left.ptr else if right.ptr ≠ 0 then right.ptr else 0) =
      child.ptr := by
    rcases hone with ⟨rfl, rfl⟩ | ⟨rfl, rfl⟩
    · simp [eq_comm]
    · simp [eq_comm]
  have hcells : left.cells entry.addr + right.cells entry.addr = child.cells entry.addr := by
    rcases hone with ⟨rfl, rfl⟩ | ⟨rfl, rfl⟩
    · rw [Tree.cells_nil, add_zero]
    · rw [Tree.cells_nil, zero_add]
  have h₀ : Owns root.mem (child.cells entry.addr +
      ((entry.addr.1, nodeCell color entry (parentOf path) left.ptr right.ptr) ::ₘ
        pathCells path entry.addr)) := by
    have howns := h.owns
    rw [Tree.cells, hcells] at howns
    convert howns using 1
    simp only [← Multiset.singleton_add]
    ac_rfl
  rcases setParentIf_owns (parentOf path) entry.addr.2.2 h₀ with ⟨root₁, hstep₁, hkeep₁, h₁⟩
  have h₁' : Owns root₁.mem (pathCells path entry.addr +
      ((entry.addr.1, nodeCell color entry (parentOf path) left.ptr right.ptr) ::ₘ
        child.cells (parentOf path))) := by
    convert h₁ using 1
    simp only [← Multiset.singleton_add]
    ac_rfl
  have hroot₁ : root₁.node = rootOf path entry.addr := hkeep₁.node.trans h.root_eq
  rcases replaceChild_owns child.ptr hroot₁ hnode.sibling_ne h₁' with
    ⟨root₂, hstep₂, hkeep₂, hroot₂, h₂⟩
  refine ⟨root₂, ?_, hkeep₁.toRelinked.trans hkeep₂, hroot₂, ?_⟩
  · have hparent : rbParent (nodeCell color entry (parentOf path) left.ptr right.ptr) =
        parentOf path := rbParent_sideCell .left _ _ _ _ (parentOf_aligned path)
    have hblack : colorIsBlack (nodeCell color entry (parentOf path) left.ptr right.ptr) =
        decide (color = .black) := colorIsBlack_sideCell .left _ _ _ _ (parentOf_aligned path)
    have hchild' : (if (nodeCell color entry (parentOf path) left.ptr right.ptr).left ≠ 0
        then (nodeCell color entry (parentOf path) left.ptr right.ptr).left
        else if (nodeCell color entry (parentOf path) left.ptr right.ptr).right ≠ 0
          then (nodeCell color entry (parentOf path) left.ptr right.ptr).right else 0) =
        child.ptr := hchild
    simp only [unlinkOne, hchild', hparent, hstep₁, Option.bind_eq_bind, Option.bind_some, hstep₂,
      hblack]
  · convert h₂ using 1
    simp only [← Multiset.singleton_add]
    ac_rfl

/-- The last stores of the two-child case: the successor gets the colour, the parent and the left
child of the node. -/
theorem seat_owns {root : RbRoot κ} {color color' : Color} {entry next : Entry κ} {left : Tree κ}
    {parent parent' left' right right' : Ptr} {rest : Multiset (Ptr × RbNode κ)}
    (hleft : left ≠ .nil)
    (h : Owns root.mem ((next.addr.1, nodeCell color' next parent' left' right') ::ₘ
      (entry.addr.1, nodeCell color entry parent left.ptr right) ::ₘ
        (left.cells entry.addr + rest))) :
    ∃ root₁ root₂ root₃,
      root.mem entry.addr = some (nodeCell color entry parent left.ptr right) ∧
      store root next.addr (fun s ↦ { s with parent := pack parent color }) = some root₁ ∧
      setChild root₁ next.addr .left left.ptr = some root₂ ∧
      rbSetParent root₂ left.ptr next.addr = some root₃ ∧ Stored root root₃ ∧
      Owns root₃.mem ((entry.addr.1, nodeCell color entry parent left.ptr right) ::ₘ
        ((next.addr.1, nodeCell color next parent left.ptr right') ::ₘ
          (left.cells next.addr + rest))) := by
  have hload := h.tail.load
  rcases store_owns h fun s ↦ { s with parent := pack parent color } with ⟨root₁, hstep₁, hkeep₁, h₁⟩
  have h₁' : Owns root₁.mem ((next.addr.1, sideCell .left color next parent left' right') ::ₘ
      (entry.addr.1, nodeCell color entry parent left.ptr right) ::ₘ
        (left.cells entry.addr + rest)) := h₁
  rcases setChild_near left.ptr h₁' with ⟨root₂, hstep₂, hkeep₂, h₂⟩
  have h₂' : Owns root₂.mem (left.cells entry.addr +
      ((entry.addr.1, nodeCell color entry parent left.ptr right) ::ₘ
        ((next.addr.1, nodeCell color next parent left.ptr right') ::ₘ rest))) := by
    convert h₂ using 1
    simp only [← Multiset.singleton_add, sideCell]
    ac_rfl
  rcases rbSetParent_owns next.addr.1 hleft entry.addr.2.2 h₂' with ⟨root₃, hstep₃, hkeep₃, h₃⟩
  refine ⟨root₁, root₂, root₃, hload, hstep₁, hstep₂, hstep₃, ⟨?_, ?_⟩, ?_⟩
  · exact hkeep₁.toRelinked.trans (hkeep₂.toRelinked.trans hkeep₃.toRelinked)
  · rw [hkeep₃.node, hkeep₂.node, hkeep₁.node]
  · convert h₃ using 1
    simp only [← Multiset.singleton_add]
    ac_rfl

/-- The middle stores: a successor further down leaves its parent to its right subtree and takes the right
subtree of the node over. -/
theorem lift_owns {root : RbRoot κ} {frame : Frame κ} {inner : List (Frame κ)} {color' : Color}
    {entry next : Entry κ} {right far : Tree κ} {cell : RbNode κ} {rest : Multiset (Ptr × RbNode κ)}
    (hside : frame.side = .left) (hptr : (plug (frame :: inner) far).ptr = right.ptr)
    (h : Owns root.mem (far.cells next.addr + (segmentCells (frame :: inner) entry.addr next.addr +
      ((next.addr.1, nodeCell color' next frame.entry.addr 0 far.ptr) ::ₘ (entry.addr.1, cell) ::ₘ rest)))) :
    ∃ root₁ root₂ root₃ root₄,
      setParentIf root far.ptr frame.entry.addr = some root₁ ∧
      setChild root₁ frame.entry.addr .left far.ptr = some root₂ ∧
      root₂.mem entry.addr = some cell ∧
      setChild root₂ next.addr .right right.ptr = some root₃ ∧
      rbSetParent root₃ right.ptr next.addr = some root₄ ∧ Stored root root₄ ∧
      Owns root₄.mem ((next.addr.1, nodeCell color' next frame.entry.addr 0 right.ptr) ::ₘ
        (entry.addr.1, cell) ::ₘ (rest + (plug (frame :: inner) far).cells next.addr)) := by
  rcases setParentIf_owns frame.entry.addr.1 next.addr.2.2 h with ⟨root₁, hstep₁, hkeep₁, h₁⟩
  have h₁' : Owns root₁.mem ((frame.entry.addr.1, sideCell .left frame.color frame.entry
        (parentBelow inner entry.addr) next.addr frame.other.ptr) ::ₘ
      (frame.other.cells frame.entry.addr + segmentCells inner entry.addr frame.entry.addr +
        far.cells frame.entry.addr +
          ((next.addr.1, nodeCell color' next frame.entry.addr 0 far.ptr) ::ₘ
            (entry.addr.1, cell) ::ₘ rest))) := by
    convert h₁ using 1
    simp only [← Multiset.singleton_add, segmentCells, hside]
    ac_rfl
  rcases setChild_near far.ptr h₁' with ⟨root₂, hstep₂, hkeep₂, h₂⟩
  have hrest : (plug (frame :: inner) far).cells entry.addr =
      (frame.entry.addr.1, sideCell .left frame.color frame.entry
          (parentBelow inner entry.addr) far.ptr frame.other.ptr) ::ₘ
        (frame.other.cells frame.entry.addr + segmentCells inner entry.addr frame.entry.addr +
          far.cells frame.entry.addr) := by
    rw [plug_cells, segmentCells, hside, parentBelow, Multiset.cons_add]
  have h₂' : Owns root₂.mem ((next.addr.1, sideCell .right color' next frame.entry.addr far.ptr 0) ::ₘ
      (entry.addr.1, cell) ::ₘ ((plug (frame :: inner) far).cells entry.addr + rest)) := by
    rw [hrest]
    convert h₂ using 1
    simp only [← Multiset.singleton_add, sideCell]
    ac_rfl
  have hload := h₂'.tail.load
  rcases setChild_near right.ptr h₂' with ⟨root₃, hstep₃, hkeep₃, h₃⟩
  have h₃' : Owns root₃.mem ((plug (frame :: inner) far).cells entry.addr +
      ((next.addr.1, nodeCell color' next frame.entry.addr 0 right.ptr) ::ₘ
        (entry.addr.1, cell) ::ₘ rest)) := by
    convert h₃ using 1
    simp only [← Multiset.singleton_add, sideCell]
    ac_rfl
  have hplug : plug (frame :: inner) far ≠ .nil := by
    intro hnil
    have hlength := length_path_le (frame :: inner) far
    rw [hnil] at hlength
    simp [Tree.inorder] at hlength
  rcases rbSetParent_owns next.addr.1 hplug entry.addr.2.2 h₃' with ⟨root₄, hstep₄, hkeep₄, h₄⟩
  rw [hptr] at hstep₄
  refine ⟨root₁, root₂, root₃, root₄, hstep₁, hstep₂, hload, hstep₃, hstep₄, ⟨?_, ?_⟩, ?_⟩
  · exact hkeep₁.toRelinked.trans (hkeep₂.toRelinked.trans (hkeep₃.toRelinked.trans hkeep₄.toRelinked))
  · rw [hkeep₄.node, hkeep₃.node, hkeep₂.node, hkeep₁.node]
  · convert h₄ using 1
    simp only [← Multiset.singleton_add]
    ac_rfl

section Steps

variable {root root₁ root₂ root₃ root₄ root₅ root₆ root₇ root₈ : RbRoot κ} {node next : Ptr}
  {n m s : RbNode κ}

theorem bind_of_some {α β : Type} {x : Option α} {a : α} (h : x = some a) (f : α → Option β) :
    x >>= f = f a := by
  rw [h]
  rfl

/-- The steps where the successor is the right child. -/
theorem unlinkTwo_near (hnext : extreme root .left (turns root) n.right = some next)
    (hreplace : replaceChild root (rbParent n) node next = some root₁)
    (hload : root₁.mem next = some s) (hparent : rbParent s = node) (hnode : root₁.mem node = some m)
    (hstore : store root₁ next (fun s ↦ { s with parent := m.parent }) = some root₂)
    (hchild : setChild root₂ next .left m.left = some root₃)
    (hseat : rbSetParent root₃ m.left next = some root₄) :
    unlinkTwo root node n = some (root₄, next, s.right, colorIsBlack s) := by
  rw [unlinkTwo, bind_of_some hnext, bind_of_some hreplace, bind_of_some hload]
  simp only [if_pos hparent]
  rw [bind_of_some rfl, bind_of_some hnode, bind_of_some hstore, bind_of_some hchild,
    bind_of_some hseat]

/-- The steps where the successor is further down. -/
theorem unlinkTwo_far (hnext : extreme root .left (turns root) n.right = some next)
    (hreplace : replaceChild root (rbParent n) node next = some root₁)
    (hload : root₁.mem next = some s) (hparent : rbParent s ≠ node)
    (hlift : setParentIf root₁ s.right (rbParent s) = some root₂)
    (hleave : setChild root₂ (rbParent s) .left s.right = some root₃)
    (hnode : root₃.mem node = some m)
    (hright : setChild root₃ next .right m.right = some root₄)
    (hover : rbSetParent root₄ m.right next = some root₅) (hnode' : root₅.mem node = some m)
    (hstore : store root₅ next (fun s ↦ { s with parent := m.parent }) = some root₆)
    (hchild : setChild root₆ next .left m.left = some root₇)
    (hseat : rbSetParent root₇ m.left next = some root₈) :
    unlinkTwo root node n = some (root₈, rbParent s, s.right, colorIsBlack s) := by
  rw [unlinkTwo, bind_of_some hnext, bind_of_some hreplace, bind_of_some hload]
  simp only [if_neg hparent]
  rw [bind_of_some hlift, bind_of_some hleave, bind_of_some hnode, bind_of_some hright,
    bind_of_some hover, bind_of_some rfl, bind_of_some hnode', bind_of_some hstore,
    bind_of_some hchild, bind_of_some hseat]

end Steps

/-- A node with two children leaves its successor in its place. -/
theorem unlinkTwo_owns {root : RbRoot κ} {path inner : List (Frame κ)} {color color' : Color}
    {entry next : Entry κ} {left right far : Tree κ}
    (h : Holds root path (.node color entry left right)) (hleft : left ≠ .nil)
    (hright : right = plug inner (.node color' next .nil far)) (hall : AllOn .left inner)
    (hextreme : extreme root .left (turns root) right.ptr = some next.addr.1) :
    ∃ root', unlinkTwo root entry.addr (nodeCell color entry (parentOf path) left.ptr right.ptr) =
        some (root', parentOf (inner ++ ⟨.right, color, next, left⟩ :: path), far.ptr,
          decide (color' = .black)) ∧ Relinked root root' ∧
      root'.node = rootOf path next.addr ∧
      Owns root'.mem ((entry.addr.1, nodeCell color entry (parentOf path) left.ptr right.ptr) ::ₘ
        (pathCells path next.addr +
          (Tree.node color next left (plug inner far)).cells (parentOf path))) := by
  have hnode : Holds root path (Tree.make .left color entry left right) := h
  have hparent : rbParent (nodeCell color entry (parentOf path) left.ptr right.ptr) =
      parentOf path := rbParent_sideCell .left _ _ _ _ (parentOf_aligned path)
  have hbelow : parentBelow inner entry.addr.1 &&& 3 = 0 := by
    cases inner with
    | nil => exact entry.addr.2.2
    | cons frame inner => exact frame.entry.addr.2.2
  have hnext : rbParent (nodeCell color' next (parentBelow inner entry.addr) 0 far.ptr) =
      parentBelow inner entry.addr := rbParent_sideCell .left _ _ _ _ hbelow
  have hblack : colorIsBlack (nodeCell color' next (parentBelow inner entry.addr) 0 far.ptr) =
      decide (color' = .black) := colorIsBlack_sideCell .left _ _ _ _ hbelow
  have hcells : right.cells entry.addr = segmentCells inner entry.addr next.addr +
      ((next.addr.1, nodeCell color' next (parentBelow inner entry.addr) 0 far.ptr) ::ₘ
        far.cells next.addr) := by
    rw [hright, plug_cells, Tree.cells, Tree.cells_nil, zero_add]
    rfl
  have h₀ : Owns root.mem (pathCells path entry.addr +
      ((next.addr.1, nodeCell color' next (parentBelow inner entry.addr) 0 far.ptr) ::ₘ
        (entry.addr.1, nodeCell color entry (parentOf path) left.ptr right.ptr) ::ₘ
          (left.cells entry.addr + (far.cells next.addr +
            segmentCells inner entry.addr next.addr)))) := by
    have howns := h.owns
    rw [Tree.cells, hcells] at howns
    convert howns using 1
    simp only [← Multiset.singleton_add, Tree.ptr]
    ac_rfl
  have hroot : root.node = rootOf path entry.addr := h.root_eq
  rcases replaceChild_owns next.addr.1 hroot hnode.sibling_ne h₀ with
    ⟨root₁, hstep₁, hkeep₁, hroot₁, h₁⟩
  have hloadS : root₁.mem next.addr =
      some (nodeCell color' next (parentBelow inner entry.addr) 0 far.ptr) := by
    rw [Multiset.add_cons] at h₁
    exact h₁.load
  rw [parentOf_append]
  cases inner with
  | nil =>
      -- the successor is the right child itself
      simp only [parentBelow] at hloadS hnext hblack h₁
      have h₁' : Owns root₁.mem ((next.addr.1, nodeCell color' next entry.addr 0 far.ptr) ::ₘ
          (entry.addr.1, nodeCell color entry (parentOf path) left.ptr right.ptr) ::ₘ
            (left.cells entry.addr + (pathCells path next.addr + far.cells next.addr))) := by
        convert h₁ using 1
        simp only [← Multiset.singleton_add, segmentCells, add_zero]
        ac_rfl
      rcases seat_owns hleft h₁' with
        ⟨root₂, root₃, root₄, hload, hstep₂, hstep₃, hstep₄, hkeep₄, h₄⟩
      refine ⟨root₄, ?_, hkeep₁.trans hkeep₄.toRelinked, hkeep₄.node.trans hroot₁, ?_⟩
      · have hunlink := unlinkTwo_near hextreme (hparent ▸ hstep₁) hloadS hnext hload hstep₂ hstep₃ hstep₄
        rwa [hblack] at hunlink
      · convert h₄ using 1
        simp only [← Multiset.singleton_add, Tree.cells, plug]
        ac_rfl
  | cons frame inner =>
      -- the successor leaves its parent, and takes over the right subtree
      have hside : frame.side = .left := hall frame List.mem_cons_self
      have hne : frame.entry.addr.1 ≠ entry.addr := by
        have hframe : Owns root₁.mem
            ((entry.addr.1, nodeCell color entry (parentOf path) left.ptr right.ptr) ::ₘ
              ((frame.entry.addr.1, sideCell frame.side frame.color frame.entry
                  (parentBelow inner entry.addr) next.addr frame.other.ptr) ::ₘ
                (pathCells path next.addr +
                  ((next.addr.1, nodeCell color' next frame.entry.addr 0 far.ptr) ::ₘ
                    (left.cells entry.addr + (far.cells next.addr +
                      (frame.other.cells frame.entry.addr +
                        segmentCells inner entry.addr frame.entry.addr))))))) := by
          convert h₁ using 1
          simp only [← Multiset.singleton_add, segmentCells, parentBelow]
          ac_rfl
        exact hframe.ne.symm
      simp only [parentBelow] at hloadS hnext hblack
      have hfar : Owns root₁.mem (far.cells next.addr +
          (segmentCells (frame :: inner) entry.addr next.addr +
            ((next.addr.1, nodeCell color' next frame.entry.addr 0 far.ptr) ::ₘ
              (entry.addr.1, nodeCell color entry (parentOf path) left.ptr right.ptr) ::ₘ
                (left.cells entry.addr + pathCells path next.addr)))) := by
        convert h₁ using 1
        simp only [← Multiset.singleton_add, parentBelow]
        ac_rfl
      have hptr : (plug (frame :: inner) far).ptr = right.ptr := by
        rw [hright, plug_ptr, plug_ptr, rootOf, rootOf]
      rcases lift_owns hside hptr hfar with
        ⟨root₂, root₃, root₄, root₅, hstep₂, hstep₃, hload₃, hstep₄, hstep₅, hkeep₅, h₅⟩
      rw [add_assoc] at h₅
      rcases seat_owns hleft h₅ with
        ⟨root₆, root₇, root₈, hload, hstep₆, hstep₇, hstep₈, hkeep₈, h₈⟩
      refine ⟨root₈, ?_, ?_, ?_, ?_⟩
      · rw [← hnext] at hstep₂ hstep₃ hne
        have hunlink := unlinkTwo_far hextreme (hparent ▸ hstep₁) hloadS hne hstep₂ hstep₃ hload₃ hstep₄
          hstep₅ hload hstep₆ hstep₇ hstep₈
        rwa [hblack, hnext] at hunlink
      · exact hkeep₁.trans (hkeep₅.toRelinked.trans hkeep₈.toRelinked)
      · rw [hkeep₈.node, hkeep₅.node, hroot₁]
      · convert h₈ using 1
        simp only [← Multiset.singleton_add, Tree.cells, hptr]
        ac_rfl

end CPractice.RbMap
