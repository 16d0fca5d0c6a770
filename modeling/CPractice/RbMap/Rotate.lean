import CPractice.RbMap.Links

/-!
# Painting and rotating

The rules for the steps both rebalancing loops are made of, each about the tree in view: its colour is
read or set, and a rotation lifts the child on the far side above the node.
-/

namespace CPractice.RbMap

open Lib

variable {κ : Type} {root : RbRoot κ} {path : List (Frame κ)} {t : Tree κ}

/-! ## Colours -/

theorem isRed_eq (h : Holds root path t) :
    isRed root t.ptr = some (decide (t.color = .red)) := by
  rcases t.eq_nil_or_make .left with rfl | ⟨entry, near, far, ht⟩
  · rfl
  · rw [ht] at h ⊢
    rw [Tree.ptr_make, Tree.color_make, isRed, if_neg entry.addr.2.1, h.load, Option.map_some,
      colorIsRed_sideCell _ _ _ _ _ (parentOf_aligned path)]

theorem isNilOrBlack_eq (h : Holds root path t) :
    isNilOrBlack root t.ptr = some (decide (t.color = .black)) := by
  rcases t.eq_nil_or_make .left with rfl | ⟨entry, near, far, ht⟩
  · rfl
  · rw [ht] at h ⊢
    rw [Tree.ptr_make, Tree.color_make, isNilOrBlack, if_neg entry.addr.2.1, h.load,
      Option.map_some, colorIsBlack_sideCell _ _ _ _ _ (parentOf_aligned path)]

/-- A store that changes the colour in a node's word paints the node. -/
theorem store_paint {change : RbNode κ → RbNode κ} {color : Color}
    (hchange : ∀ side old (entry : Entry κ) parent near far, parent &&& 3 = 0 →
      change (sideCell side old entry parent near far) =
        sideCell side color entry parent near far)
    (ht : t ≠ .nil) (h : Holds root path t) :
    ∃ root', store root t.ptr change = some root' ∧ Relinked root root' ∧
      Holds root' path (t.paint color) := by
  rcases t.eq_nil_or_make .left with hnil | ⟨entry, near, far, hmake⟩
  · exact absurd hnil ht
  · have howns := h.owns
    have hroot := h.root_eq
    rw [hmake, Tree.ptr_make] at howns hroot ⊢
    rw [Tree.cells_make, Multiset.add_cons] at howns
    rcases store_owns howns change with ⟨root', hstore, hkeep, howns'⟩
    refine ⟨root', hstore, hkeep.toRelinked, ?_, ?_⟩
    · rw [Tree.paint_make, Tree.ptr_make, hkeep.node]
      exact hroot
    · rw [hchange _ _ _ _ _ _ (parentOf_aligned path)] at howns'
      rwa [Tree.paint_make, Tree.ptr_make, Tree.cells_make, Multiset.add_cons]

theorem colorSetBlack_holds (ht : t ≠ .nil) (h : Holds root path t) :
    ∃ root', colorSetBlack root t.ptr = some root' ∧ Relinked root root' ∧
      Holds root' path (t.paint .black) := by
  refine store_paint ?_ ht h
  intro side old entry parent near far hparent
  rw [sideCell_word, pack_black, sideCell_withWord]

theorem colorSetRed_holds (ht : t ≠ .nil) (h : Holds root path t) :
    ∃ root', colorSetRed root t.ptr = some root' ∧ Relinked root root' ∧
      Holds root' path (t.paint .red) := by
  refine store_paint ?_ ht h
  intro side old entry parent near far hparent
  rw [sideCell_word, pack_red hparent, sideCell_withWord]

theorem rbSetColor_holds (color : Color) (ht : t ≠ .nil) (h : Holds root path t) :
    ∃ root', rbSetColor root t.ptr color.bit = some root' ∧ Relinked root root' ∧
      Holds root' path (t.paint color) := by
  refine store_paint ?_ ht h
  intro side old entry parent near far hparent
  rw [sideCell_word, pack_recolor hparent, sideCell_withWord]

theorem colorSetBlackIf_holds (h : Holds root path t) :
    ∃ root', colorSetBlackIf root t.ptr = some root' ∧ Relinked root root' ∧
      Holds root' path (t.paint .black) := by
  by_cases ht : t = .nil
  · subst ht
    exact ⟨root, rfl, Relinked.refl root, h⟩
  · rw [colorSetBlackIf, if_pos fun hzero ↦ ht (t.ptr_eq_zero_iff.mp hzero)]
    exact colorSetBlack_holds ht h

/-! ## Rotations -/

/-- A rotation towards a side lifts the child on the far side. -/
theorem rotate_holds {side : Side} {color color' : Color} {entry top : Entry κ}
    {near mid far : Tree κ}
    (h : Holds root path
      (Tree.make side color entry near (Tree.make side color' top mid far))) :
    ∃ root', rotate side root entry.addr = some root' ∧ Relinked root root' ∧
      Holds root' path (Tree.make side color' top (Tree.make side color entry near mid) far) := by
  have hparent := parentOf_aligned path
  have hload := h.load
  have hload_top := (holds_far.mp h).load
  have hroot := h.root_eq
  rw [Tree.ptr_make] at hload hroot
  -- the cells of the node, of the lifted child, and of what hangs below them
  have h₀ : Owns root.mem ((entry.addr.1, sideCell side color entry (parentOf path) near.ptr top.addr)
      ::ₘ (pathCells path entry.addr +
        ((top.addr.1, sideCell side color' top entry.addr mid.ptr far.ptr) ::ₘ
          (mid.cells top.addr + far.cells top.addr)) + near.cells entry.addr)) := by
    have howns := h.owns
    rw [Tree.cells_make, Tree.cells_make, Tree.ptr_make, Tree.ptr_make] at howns
    convert howns using 1
    simp only [← Multiset.singleton_add]
    ac_rfl
  rcases setChild_far mid.ptr h₀ with ⟨root₁, hstep₁, hkeep₁, h₁⟩
  have h₁' : Owns root₁.mem (mid.cells top.addr +
      ((entry.addr.1, sideCell side color entry (parentOf path) near.ptr mid.ptr) ::ₘ
        (pathCells path entry.addr +
          ((top.addr.1, sideCell side color' top entry.addr mid.ptr far.ptr) ::ₘ
            far.cells top.addr) + near.cells entry.addr))) := by
    convert h₁ using 1
    simp only [← Multiset.singleton_add]
    ac_rfl
  rcases setParentIf_owns entry.addr.1 top.addr.2.2 h₁' with ⟨root₂, hstep₂, hkeep₂, h₂⟩
  have h₂' : Owns root₂.mem ((top.addr.1, sideCell side color' top entry.addr mid.ptr far.ptr) ::ₘ
      ((entry.addr.1, sideCell side color entry (parentOf path) near.ptr mid.ptr) ::ₘ
        (mid.cells entry.addr +
          (pathCells path entry.addr + far.cells top.addr + near.cells entry.addr)))) := by
    convert h₂ using 1
    simp only [← Multiset.singleton_add]
    ac_rfl
  rcases setChild_near entry.addr.1 h₂' with ⟨root₃, hstep₃, hkeep₃, h₃⟩
  have hload₃ := h₃.tail.load
  rcases rbSetParent_cell (parentOf path) entry.addr.2.2 h₃ with ⟨root₄, hstep₄, hkeep₄, h₄⟩
  rw [Multiset.cons_swap] at h₄
  rcases rbSetParent_cell top.addr.1 hparent h₄ with ⟨root₅, hstep₅, hkeep₅, h₅⟩
  have hload₅ := h₅.tail.load
  have h₅' : Owns root₅.mem (pathCells path entry.addr +
      ((entry.addr.1, sideCell side color entry top.addr near.ptr mid.ptr) ::ₘ
        ((top.addr.1, sideCell side color' top (parentOf path) entry.addr far.ptr) ::ₘ
          (mid.cells entry.addr + far.cells top.addr + near.cells entry.addr)))) := by
    convert h₅ using 1
    simp only [← Multiset.singleton_add]
    ac_rfl
  have hroot₅ : root₅.node = rootOf path entry.addr := by
    rw [hkeep₅.node, hkeep₄.node, hkeep₃.node, hkeep₂.node, hkeep₁.node, hroot]
  rcases replaceChild_owns top.addr.1 hroot₅ h.sibling_ne h₅' with ⟨root₆, hstep₆, hkeep₆, hroot₆, h₆⟩
  refine ⟨root₆, ?_, ?_, ?_, ?_⟩
  · rw [rotate, hload]
    simp only [Option.bind_eq_bind, Option.bind_some, sideCell_far, sideCell_near,
      if_neg top.addr.2.1, hload_top, hstep₁, hstep₂, hstep₃, hload₃, hstep₅, hload₅,
      rbParent_sideCell _ _ _ _ _ hparent, hstep₄, hstep₆]
  · exact hkeep₁.trans <| hkeep₂.trans <| hkeep₃.trans <| hkeep₄.trans <| hkeep₅.trans hkeep₆
  · rw [hroot₆, Tree.ptr_make]
  · rw [Tree.cells_make, Tree.cells_make, Tree.ptr_make, Tree.ptr_make]
    convert h₆ using 1
    simp only [← Multiset.singleton_add]
    ac_rfl

end CPractice.RbMap
