import CPractice.RbMap.Rotate

/-!
# Rebalancing after an insert

The loop looks at a red node whose parent may be red as well; everything else is in order.  One turn
either moves the red node two levels up or ends with two rotations (`insertBranch_holds`), and the
path above the node gets shorter, so the loop ends in a tree that is balanced once its root is
painted black.
-/

namespace CPractice.RbMap

open Lib

variable {κ : Type}

theorem inorder_plug_congr (path : List (Frame κ)) {t t' : Tree κ} (h : t.inorder = t'.inorder) :
    (plug path t).inorder = (plug path t').inorder := by
  rw [inorder_plug, inorder_plug, h]

/-- What the loop maintains: a red node that is balanced in itself, at the end of a path that would
take a black one. -/
structure RedFocus (root : RbRoot κ) (path : List (Frame κ)) (x : Tree κ) (entries : List (Entry κ)) :
    Prop where
  holds : Holds root path x
  red : x.color = .red
  balanced : ∃ height, x.Balanced height ∧ Allows path .black height
  inorder : (plug path x).inorder = entries

theorem RedFocus.ne_nil {root : RbRoot κ} {path : List (Frame κ)} {x : Tree κ}
    {entries : List (Entry κ)} (h : RedFocus root path x entries) : x ≠ .nil := by
  rintro rfl
  cases h.red

/-- The rotations of a turn whose uncle is black: the parent goes above the grandparent. -/
theorem liftParent_holds {side : Side} {root : RbRoot κ} {path : List (Frame κ)}
    {gparent parent node : Entry κ} {uncle far near mid : Tree κ}
    (h : Holds root path (Tree.make side .black gparent
      (Tree.make side .red parent (Tree.make side .red node near mid) far) uncle)) :
    ∃ root₁ root₂ root₃, colorSetBlack root parent.addr = some root₁ ∧
      colorSetRed root₁ gparent.addr = some root₂ ∧
      rotate side.other root₂ gparent.addr = some root₃ ∧ Relinked root root₃ ∧
      Holds root₃ (⟨side, .black, parent, Tree.make side .red gparent far uncle⟩ :: path)
        (Tree.make side .red node near mid) := by
  have h₀ := holds_near.mp h
  rcases colorSetBlack_holds (fun hnil ↦ by cases side <;> cases hnil) h₀ with
    ⟨root₁, hstep₁, hkeep₁, h₁⟩
  rw [Tree.ptr_make] at hstep₁
  rw [Tree.paint_make, ← holds_near] at h₁
  rcases colorSetRed_holds (fun hnil ↦ by cases side <;> cases hnil) h₁ with
    ⟨root₂, hstep₂, hkeep₂, h₂⟩
  rw [Tree.ptr_make] at hstep₂
  rw [Tree.paint_make, ← Tree.make_other, ← Tree.make_other side .black] at h₂
  rcases rotate_holds h₂ with ⟨root₃, hstep₃, hkeep₃, h₃⟩
  refine ⟨root₁, root₂, root₃, hstep₁, hstep₂, hstep₃, hkeep₁.trans (hkeep₂.trans hkeep₃), ?_⟩
  rwa [Tree.make_other, Tree.make_other, holds_near] at h₃

/-- One turn, with the parent on the given side of a black grandparent. -/
theorem insertBranch_holds {side side' : Side} {root : RbRoot κ} {path : List (Frame κ)}
    {parent gparent : Entry κ} {brother uncle x : Tree κ} {entries : List (Entry κ)}
    (h : RedFocus root (⟨side', .red, parent, brother⟩ :: ⟨side, .black, gparent, uncle⟩ :: path) x
      entries) :
    ∃ root' path' x', insertBranch side root gparent.addr parent.addr x.ptr = some (root', x'.ptr) ∧
      Relinked root root' ∧ RedFocus root' path' x' entries ∧ path'.length < path.length + 2 := by
  rcases h.balanced with ⟨height, hx, hallows⟩
  rcases hallows with ⟨-, hbrotherColor, hbrother, huncle, hpath⟩
  have hg := (holds_cons _ _).mp ((holds_cons _ _).mp h.holds)
  have hloadG := hg.load
  have hloadP := h.holds.load_parent
  have huncleView := holds_far.mp hg
  have hred := isRed_eq huncleView
  simp only at hloadG hloadP hred
  by_cases huncleRed : uncle.color = .red
  · -- the red uncle and the parent turn black, the grandparent is the next red node
    have hne : uncle ≠ .nil := by
      rintro rfl
      cases huncleRed
    rcases colorSetBlack_holds hne huncleView with ⟨root₁, hstep₁, hkeep₁, h₁⟩
    rw [← holds_far] at h₁
    rcases colorSetBlack_holds (fun hnil ↦ by cases side' <;> cases hnil) (holds_near.mp h₁) with
      ⟨root₂, hstep₂, hkeep₂, h₂⟩
    rw [← holds_near] at h₂
    rcases colorSetRed_holds (fun hnil ↦ by cases side <;> cases hnil) h₂ with
      ⟨root₃, hstep₃, hkeep₃, h₃⟩
    rw [Tree.paint_make] at h₃
    rw [Frame.fill, Tree.ptr_make] at hstep₂
    rw [Tree.ptr_make] at hstep₃
    rw [Frame.fill, Tree.paint_make] at h₃
    refine ⟨root₃, path, Tree.make side .red gparent (Tree.make side' .black parent x brother)
      (uncle.paint .black), ?_, hkeep₁.trans (hkeep₂.trans hkeep₃), ⟨h₃, ?_, ⟨height + 1, ?_, hpath⟩, ?_⟩,
      by omega⟩
    · simp only [insertBranch, hloadG, Option.bind_eq_bind, Option.bind_some, sideCell_far, hred,
        huncleRed, decide_true, if_true, hstep₁, hstep₂, hstep₃, Tree.ptr_make]
    · exact Tree.color_make ..
    · rw [Tree.balanced_red]
      refine ⟨Tree.color_make .., uncle.color_paint hne .black, ?_, ?_⟩
      · exact (Tree.balanced_black ..).mpr ⟨height, rfl, hx, hbrother⟩
      · exact huncle.paint_red_black huncleRed
    · rw [← h.inorder]
      apply inorder_plug_congr path
      cases side <;> cases side' <;> simp [Frame.fill, Tree.make, Tree.inorder]
  · have huncleBlack : uncle.color = .black := by
      cases hcolor : uncle.color with
      | red => exact absurd hcolor huncleRed
      | black => rfl
    -- the node and its parent are brought to the same side of the grandparent
    have hturn : ∃ root₁ top low near mid far,
        (x.ptr = (sideCell side' .red parent gparent.addr.1 x.ptr brother.ptr).child side.other ∧
            rotate side root parent.addr = some root₁ ∧ x.ptr = top.addr ∧ parent = low ∨
          x.ptr ≠ (sideCell side' .red parent gparent.addr.1 x.ptr brother.ptr).child side.other ∧
            root₁ = root ∧ parent = top ∧ x.ptr = low.addr) ∧
        Relinked root root₁ ∧
        Holds root₁ path (Tree.make side .black gparent
          (Tree.make side .red top (Tree.make side .red low near mid) far) uncle) ∧
        (Tree.make side .red low near mid).Balanced height ∧ far.color = .black ∧
        far.Balanced height ∧
        (Tree.make side .red top (Tree.make side .red low near mid) far).inorder =
          (Tree.make side' .red parent x brother).inorder := by
      rcases x.eq_nil_or_make side with rfl | ⟨low, near, mid, hmake⟩
      · exact absurd rfl h.ne_nil
      · rw [h.red] at hmake
        have hview := h.holds
        rw [holds_cons, Frame.fill] at hview
        subst hmake
        by_cases hsame : side' = side
        · subst hsame
          have hne : low.addr.1 ≠ brother.ptr := fun heq ↦ h.holds.sibling_ne _ rfl heq.symm
          refine ⟨root, parent, low, near, mid, brother, ?_, Relinked.refl root, ?_, hx,
            hbrotherColor, hbrother, rfl⟩
          · exact Or.inr ⟨by rwa [sideCell_far, Tree.ptr_make], rfl, rfl, Tree.ptr_make ..⟩
          · rwa [holds_near]
        · have hside : side' = side.other := by
            cases side <;> cases side' <;> first | rfl | exact absurd rfl hsame
          subst hside
          simp only [Tree.make_other] at hview
          rcases rotate_holds hview with ⟨root₁, hrotate, hkeep, hview₁⟩
          rcases (Tree.balanced_red ..).mp hx with ⟨hnearColor, hmidColor, hnear, hmid⟩
          refine ⟨root₁, low, parent, brother, near, mid, ?_, hkeep, ?_, ?_, hmidColor, hmid, ?_⟩
          · exact Or.inl ⟨by rw [sideCell_near], hrotate, Tree.ptr_make .., rfl⟩
          · rwa [holds_near]
          · exact (Tree.balanced_red ..).mpr ⟨hbrotherColor, hnearColor, hbrother, hnear⟩
          · cases side <;> simp [Tree.make, Tree.inorder, Side.other]
    rcases hturn with ⟨root₁, top, low, near, mid, far, hturn, hkeep, hview, hlow, hfarColor, hfar,
      hinorder⟩
    rcases liftParent_holds hview with ⟨root₂, root₃, root₄, hstep₂, hstep₃, hstep₄, hkeep₄, h₄⟩
    refine ⟨root₄, _, _, ?_, hkeep.trans hkeep₄, ⟨h₄, Tree.color_make .., ⟨height, hlow, ?_⟩, ?_⟩, ?_⟩
    · simp only [insertBranch, hloadG, hloadP, Option.bind_eq_bind, Option.bind_some, sideCell_far,
        hred, huncleBlack, reduceCtorEq, decide_false, Bool.false_eq_true, if_false,
        parentOf_cons]
      rcases hturn with ⟨hcond, hrotate, htop, rfl⟩ | ⟨hcond, rfl, rfl, hlowPtr⟩
      · rw [if_pos hcond, hrotate, Option.bind_some, htop, hstep₂, Option.bind_some, hstep₃,
          Option.bind_some, hstep₄, Option.bind_some, Tree.ptr_make]
      · rw [if_neg hcond, hstep₂, Option.bind_some, hstep₃, Option.bind_some, hstep₄,
          Option.bind_some, Tree.ptr_make, hlowPtr]
    · refine ⟨?_, hpath⟩
      exact (Tree.balanced_red ..).mpr ⟨hfarColor, huncleBlack, hfar, huncle⟩
    · rw [← h.inorder]
      apply inorder_plug_congr path
      simp only [Frame.fill]
      rw [Tree.inorder_make side .black gparent, ← hinorder]
      cases side <;> simp [Tree.make, Tree.inorder]
    · simp

/-- The loop ends in a tree that is balanced once its root is black. -/
theorem insertRebalanceLoop_holds {entries : List (Entry κ)} {fuel : ℕ} {root : RbRoot κ}
    {path : List (Frame κ)} {x : Tree κ} (h : RedFocus root path x entries)
    (hfuel : path.length < fuel) :
    ∃ root' t, insertRebalanceLoop fuel root x.ptr = some root' ∧ Relinked root root' ∧
      Holds root' [] t ∧ t ≠ .nil ∧ t.inorder = entries ∧
      ∃ height, (t.paint .black).Balanced height := by
  induction fuel generalizing root path x with
  | zero => exact absurd hfuel (Nat.not_lt_zero _)
  | succ fuel ih =>
      rcases h.balanced with ⟨height, hx, hallows⟩
      rcases h.holds.load_parentOf h.ne_nil with ⟨n, hload, hparent⟩
      match path, h, hallows, hparent with
      | [], h, hallows, hparent =>
          refine ⟨root, x, ?_, Relinked.refl root, h.holds, h.ne_nil, h.inorder, height + 1,
            hx.paint_red_black h.red⟩
          simp only [insertRebalanceLoop, hload, Option.bind_eq_bind, Option.bind_some, hparent,
            parentOf_nil, isRed, if_true, Bool.false_eq_true, if_false]
      | ⟨side, .black, entry, other⟩ :: path, h, hallows, hparent =>
          have hred := isRed_eq ((holds_cons _ _).mp h.holds)
          rw [Frame.fill_ptr, Frame.fill_color] at hred
          have hallows' : Allows (⟨side, .black, entry, other⟩ :: path) x.color height := hallows
          rcases hallows'.plug hx with ⟨-, whole, hwhole⟩
          refine ⟨root, _, ?_, Relinked.refl root, (holds_plug x).mp h.holds, ?_, h.inorder,
            hwhole.paint_black⟩
          · simp only [insertRebalanceLoop, hload, Option.bind_eq_bind, Option.bind_some, hparent,
              parentOf_cons, hred, reduceCtorEq, decide_false, Bool.false_eq_true, if_false]
          · intro hnil
            have hlength := length_path_le (⟨side, .black, entry, other⟩ :: path) x
            rw [hnil] at hlength
            simp [Tree.inorder] at hlength
      | [⟨side, .red, entry, other⟩], h, hallows, hparent => cases hallows.2.2.2
      | ⟨side, .red, entry, other⟩ :: ⟨side', .red, entry', other'⟩ :: path, h, hallows, hparent =>
          cases hallows.2.2.2.1
      | ⟨side', .red, parent, brother⟩ :: ⟨side, .black, gparent, uncle⟩ :: path, h, hallows,
          hparent =>
          have hview := (holds_cons _ _).mp h.holds
          have hred := isRed_eq hview
          rcases hview.load_parentOf (Frame.fill_ne_nil _ _) with ⟨p, hloadP, hparentP⟩
          have hloadG := hview.load_parent
          have hsibling := hview.sibling_ne _ rfl
          rw [Frame.fill_ptr] at hred hloadP hloadG
          rw [Frame.fill_color] at hred
          simp only at hsibling
          rcases insertBranch_holds h with ⟨root₁, path₁, x₁, hstep, hkeep, h₁, hshort⟩
          have hfuel₁ : path₁.length < fuel := by
            simp only [List.length_cons] at hfuel
            omega
          rcases ih h₁ hfuel₁ with ⟨root', t, hloop, hkeep', hrest⟩
          refine ⟨root', t, ?_, hkeep.trans hkeep', hrest⟩
          simp only [insertRebalanceLoop, hload, Option.bind_eq_bind, Option.bind_some, hparent,
            parentOf_cons, hred, decide_true, if_true, hloadP, hparentP, hloadG]
          cases side with
          | left =>
              have hleft : (sideCell .left .black gparent (parentOf path) parent.addr.1
                  uncle.ptr).left = parent.addr := rfl
              rw [if_pos hleft.symm, hstep]
              exact hloop
          | right =>
              have hleft : (sideCell .right .black gparent (parentOf path) parent.addr.1
                  uncle.ptr).left = uncle.ptr := rfl
              rw [hleft, if_neg fun heq ↦ hsibling heq.symm, hstep]
              exact hloop

/-- Rebalancing after an insert. -/
theorem rbInsertRebalance_holds {entries : List (Entry κ)} {root : RbRoot κ}
    {path : List (Frame κ)} {x : Tree κ} (h : RedFocus root path x entries)
    (hfuel : path.length < turns root) :
    ∃ root' t, rbInsertRebalance root x.ptr = some root' ∧ Relinked root root' ∧
      Holds root' [] t ∧ t.color = .black ∧ t.inorder = entries ∧
      ∃ height, t.Balanced height := by
  rcases insertRebalanceLoop_holds h hfuel with
    ⟨root₁, t, hloop, hkeep, hview, hne, hinorder, hbalanced⟩
  rcases colorSetBlack_holds hne hview with ⟨root₂, hstep, hkeep₂, hview₂⟩
  refine ⟨root₂, t.paint .black, ?_, hkeep.trans hkeep₂, hview₂, t.color_paint hne .black, ?_,
    hbalanced⟩
  · have hnode : root₁.node = t.ptr := hview.root_eq
    rw [rbInsertRebalance, hloop, Option.bind_eq_bind, Option.bind_some, hnode, hstep]
  · rw [Tree.inorder_paint, hinorder]

end CPractice.RbMap
