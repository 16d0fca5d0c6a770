import CPractice.RbMap.InsertRebalance

/-!
# Rebalancing after an erase

The loop looks at a subtree that is one black node short.  One turn makes the sibling black
(`blackSibling_holds`) and then either passes the shortage on to the parent or makes it up with the
red child of the sibling; a short subtree with a red root is made up by painting it black.
-/

namespace CPractice.RbMap

open Lib

variable {κ : Type}

/-- A tree that is one black node short of a black height, or would be if its root were not red. -/
def Short (x : Tree κ) (height : ℕ) : Prop :=
  x.color = .black ∧ x.Balanced height ∨ x.color = .red ∧ (x.paint .black).Balanced (height + 1)

/-- A balanced tree is short of one black node more. -/
theorem Tree.Balanced.short {x : Tree κ} {height : ℕ} (h : x.Balanced height) : Short x height := by
  cases hcolor : x.color with
  | red => exact Or.inr ⟨hcolor, h.paint_red_black hcolor⟩
  | black => exact Or.inl ⟨hcolor, h⟩

/-- What the loop maintains: the subtree in view is short, and everything else is in order. -/
structure Deficit (root : RbRoot κ) (path : List (Frame κ)) (x : Tree κ)
    (entries : List (Entry κ)) : Prop where
  holds : Holds root path x
  short : ∃ height, Short x height ∧ Allows path .black (height + 1)
  inorder : (plug path x).inorder = entries

/-- A balanced tree in memory with a black root. -/
structure Settled (root : RbRoot κ) (t : Tree κ) (entries : List (Entry κ)) : Prop where
  holds : Holds root [] t
  black : t.color = .black
  balanced : ∃ height, t.Balanced height
  inorder : t.inorder = entries

/-- The root of a path is one of its nodes. -/
theorem rootOf_mem (path : List (Frame κ)) (frame : Frame κ) (hole : Ptr) :
    rootOf (frame :: path) hole ≠ 0 ∧
      ∃ c, (rootOf (frame :: path) hole, c) ∈ pathCells (frame :: path) hole := by
  induction path generalizing frame hole with
  | nil => exact ⟨frame.entry.addr.2.1, _, Multiset.mem_cons_self _ _⟩
  | cons next path ih =>
      rcases ih next frame.entry.addr with ⟨hne, c, hmem⟩
      refine ⟨hne, c, Multiset.mem_cons_of_mem (Multiset.mem_add.mpr (Or.inr hmem))⟩

/-- Below a path the tree in view is not the whole tree. -/
theorem Holds.node_ne {root : RbRoot κ} {path : List (Frame κ)} {frame : Frame κ} {x : Tree κ}
    (h : Holds root (frame :: path) x) : root.node ≠ x.ptr := by
  rcases rootOf_mem path frame x.ptr with ⟨hne, c, hmem⟩
  rw [h.root_eq]
  rcases x.eq_nil_or_make .left with rfl | ⟨entry, near, far, hmake⟩
  · exact hne
  · have howns := h.owns
    rw [hmake, Tree.cells_make, Multiset.add_cons] at howns
    rw [hmake] at hmem ⊢
    rw [Tree.ptr_make] at hmem howns ⊢
    exact howns.ne_of_mem_rest (Multiset.mem_add.mpr (Or.inl hmem))

/-- The first part of a turn leaves a black sibling. -/
theorem blackSibling_holds {side : Side} {root : RbRoot κ} {path : List (Frame κ)} {color : Color}
    {parent : Entry κ} {other x : Tree κ} {entries : List (Entry κ)} {height : ℕ}
    (h : Holds root (⟨side, color, parent, other⟩ :: path) x)
    (hallows : Allows (⟨side, color, parent, other⟩ :: path) .black (height + 1))
    (hinorder : (plug (⟨side, color, parent, other⟩ :: path) x).inorder = entries) :
    ∃ root' path' color' sibling near far,
      blackSibling side root parent.addr = some (root', sibling.addr.1) ∧ Relinked root root' ∧
      Holds root' (⟨side, color', parent, Tree.make side .black sibling near far⟩ :: path') x ∧
      Allows (⟨side, color', parent, Tree.make side .black sibling near far⟩ :: path') .black
        (height + 1) ∧
      (plug (⟨side, color', parent, Tree.make side .black sibling near far⟩ :: path') x).inorder =
        entries ∧
      (color' = .red ∨ path' = path) := by
  have hbalanced : other.Balanced (height + 1) := by
    cases color with
    | red => exact hallows.2.2.1
    | black => exact hallows.1
  rcases other.eq_nil_or_make side with rfl | ⟨sibling, near, far, hmake⟩
  · cases hbalanced
  have hview : Holds root path (Tree.make side color parent x other) := holds_near.mpr h
  have hload := hview.load
  have hptr : other.ptr = sibling.addr := by rw [hmake, Tree.ptr_make]
  cases hcolor : other.color with
  | black =>
      rw [hcolor] at hmake
      subst hmake
      have hloadS := (holds_far.mp hview).load
      refine ⟨root, path, color, sibling, near, far, ?_, Relinked.refl root, h, hallows, hinorder,
        Or.inr rfl⟩
      simp only [blackSibling, hload, Option.bind_eq_bind, Option.bind_some, sideCell_far, hptr,
        hloadS, colorIsRed_sideCell _ _ _ _ _ (parentOf_aligned _), reduceCtorEq,
        decide_false, Bool.false_eq_true, if_false]
  | red =>
      rw [hcolor] at hmake
      subst hmake
      have hsiblingView := holds_far.mp hview
      have hloadS := hsiblingView.load
      have hparentBlack : color = .black := by
        cases color with
        | red =>
            have hblack := hallows.2.1
            rw [hcolor] at hblack
            cases hblack
        | black => rfl
      subst hparentBlack
      rcases hallows with ⟨-, hpath⟩
      rcases (Tree.balanced_red ..).mp hbalanced with ⟨hnearColor, hfarColor, hnear, hfar⟩
      rcases colorSetBlack_holds (fun hnil ↦ by cases side <;> cases hnil) hsiblingView with
        ⟨root₁, hstep₁, hkeep₁, h₁⟩
      rw [← holds_far, Tree.paint_make] at h₁
      rcases colorSetRed_holds (fun hnil ↦ by cases side <;> cases hnil) h₁ with
        ⟨root₂, hstep₂, hkeep₂, h₂⟩
      rw [Tree.paint_make] at h₂
      rcases rotate_holds h₂ with ⟨root₃, hstep₃, hkeep₃, h₃⟩
      rw [Tree.ptr_make] at hstep₁ hstep₂
      have h₄ := holds_near.mp (holds_near.mp h₃)
      have hload₄ := h₄.load_parent
      refine ⟨root₃, ⟨side, .black, sibling, far⟩ :: path, .red, ?_⟩
      have hnearNe : near ≠ .nil := by
        rintro rfl
        cases hnear
      rcases near.eq_nil_or_make side with hnil | ⟨next, near', far', hnearMake⟩
      · exact absurd hnil hnearNe
      rw [hnearColor] at hnearMake
      refine ⟨next, near', far', ?_, hkeep₁.trans (hkeep₂.trans hkeep₃), ?_, ?_, ?_, Or.inl rfl⟩
      · simp only [blackSibling, hload, Option.bind_eq_bind, Option.bind_some, sideCell_far, hptr,
          hloadS, colorIsRed_sideCell _ _ _ _ _ (parentOf_aligned _), decide_true, if_true, hstep₁,
          hstep₂, hstep₃, hload₄]
        rw [hnearMake, Tree.ptr_make]
      · rwa [← hnearMake]
      · rw [← hnearMake]
        exact ⟨rfl, hnearColor, hnear, hfar, hpath⟩
      · rw [← hnearMake, ← hinorder]
        apply inorder_plug_congr path
        cases side <;> simp [Frame.fill, Tree.make, Tree.inorder]

/-- The second part of a turn leaves a red child on the far side of the sibling. -/
theorem redFarChild_holds {side : Side} {root : RbRoot κ} {path : List (Frame κ)} {color : Color}
    {parent sibling : Entry κ} {near far x : Tree κ} {height : ℕ}
    (h : Holds root path (Tree.make side color parent x (Tree.make side .black sibling near far)))
    (hnear : near.Balanced height) (hfar : far.Balanced height)
    (hred : ¬ (near.color = .black ∧ far.color = .black)) :
    ∃ root' sibling' near' far',
      redFarChild side root parent.addr sibling.addr (decide (far.color = .black)) =
        some (root', sibling'.addr.1) ∧ Relinked root root' ∧
      Holds root' path
        (Tree.make side color parent x (Tree.make side .black sibling' near' far')) ∧
      near'.Balanced height ∧ far'.Balanced height ∧ far'.color = .red ∧
      (Tree.make side .black sibling' near' far').inorder =
        (Tree.make side .black sibling near far).inorder := by
  cases hfarColor : far.color with
  | red =>
      refine ⟨root, sibling, near, far, ?_, Relinked.refl root, h, hnear, hfar, hfarColor, rfl⟩
      simp only [redFarChild, reduceCtorEq, decide_false, Bool.false_eq_true, if_false]
  | black =>
      have hnearColor : near.color = .red := by
        cases hcolor : near.color with
        | red => rfl
        | black => exact absurd ⟨hcolor, hfarColor⟩ hred
      rcases near.eq_nil_or_make side with rfl | ⟨next, low, high, hmake⟩
      · cases hnearColor
      rw [hnearColor] at hmake
      subst hmake
      rcases (Tree.balanced_red ..).mp hnear with ⟨hlowColor, hhighColor, hlow, hhigh⟩
      have hsibling := holds_far.mp h
      have hloadS := hsibling.load
      rcases colorSetBlackIf_holds (holds_near.mp hsibling) with ⟨root₁, hstep₁, hkeep₁, h₁⟩
      rw [← holds_near, Tree.paint_make] at h₁
      rw [Tree.ptr_make] at hstep₁
      rcases colorSetRed_holds (fun hnil ↦ by cases side <;> cases hnil) h₁ with
        ⟨root₂, hstep₂, hkeep₂, h₂⟩
      rw [Tree.ptr_make] at hstep₂
      rw [Tree.paint_make, ← Tree.make_other, ← Tree.make_other side .black] at h₂
      rcases rotate_holds h₂ with ⟨root₃, hstep₃, hkeep₃, h₃⟩
      rw [Tree.make_other, Tree.make_other, ← holds_far] at h₃
      have hload₃ := h₃.load
      refine ⟨root₃, next, low, Tree.make side .red sibling high far, ?_,
        hkeep₁.trans (hkeep₂.trans hkeep₃), h₃, hlow, ?_, Tree.color_make .., ?_⟩
      · simp only [redFarChild, decide_true, if_true, hloadS, Option.bind_eq_bind, Option.bind_some,
          sideCell_near, sideCell_far, hstep₁, hstep₂, hstep₃, hload₃, Tree.ptr_make]
      · exact (Tree.balanced_red ..).mpr ⟨hhighColor, hfarColor, hhigh, hfar⟩
      · cases side <;> simp [Tree.make, Tree.inorder]

/-- The last part of a turn: the parent comes down to the short side, the sibling takes its place and
its colour. -/
theorem borrow_holds {side : Side} {root : RbRoot κ} {path : List (Frame κ)} {color : Color}
    {parent sibling : Entry κ} {near far x : Tree κ}
    (h : Holds root path (Tree.make side color parent x (Tree.make side .black sibling near far))) :
    ∃ p root₁ root₂ s root₃ root₄, root.mem parent.addr = some p ∧
      rbSetColor root sibling.addr (rbColor p) = some root₁ ∧
      colorSetBlack root₁ parent.addr = some root₂ ∧ root₂.mem sibling.addr = some s ∧
      colorSetBlackIf root₂ (s.child side.other) = some root₃ ∧
      rotate side root₃ parent.addr = some root₄ ∧ Relinked root root₄ ∧
      Holds root₄ path
        (Tree.make side color sibling (Tree.make side .black parent x near) (far.paint .black)) := by
  have hload := h.load
  rcases rbSetColor_holds color (fun hnil ↦ by cases side <;> cases hnil) (holds_far.mp h) with
    ⟨root₁, hstep₁, hkeep₁, h₁⟩
  rw [← holds_far, Tree.paint_make] at h₁
  rcases colorSetBlack_holds (fun hnil ↦ by cases side <;> cases hnil) h₁ with
    ⟨root₂, hstep₂, hkeep₂, h₂⟩
  rw [Tree.paint_make] at h₂
  have hsibling := holds_far.mp h₂
  rcases colorSetBlackIf_holds (holds_far.mp hsibling) with ⟨root₃, hstep₃, hkeep₃, h₃⟩
  rw [← holds_far, ← holds_far] at h₃
  rcases rotate_holds h₃ with ⟨root₄, hstep₄, hkeep₄, h₄⟩
  rw [Tree.ptr_make] at hstep₁ hstep₂
  refine ⟨_, root₁, root₂, _, root₃, root₄, hload, ?_, hstep₂, hsibling.load, ?_, hstep₄,
    hkeep₁.trans (hkeep₂.trans (hkeep₃.trans hkeep₄)), h₄⟩
  · rw [rbColor_sideCell _ _ _ _ _ (parentOf_aligned path)]
    exact hstep₁
  · rw [sideCell_far]
    exact hstep₃

/-- One turn, with the short subtree on the given side of its parent: either the loop goes on with
the parent, or it breaks with everything settled. -/
theorem eraseBranch_holds {side : Side} {root : RbRoot κ} {path : List (Frame κ)} {color : Color}
    {parent : Entry κ} {other x : Tree κ} {entries : List (Entry κ)}
    (h : Deficit root (⟨side, color, parent, other⟩ :: path) x entries) (hblack : x.color = .black) :
    ∃ root', Relinked root root' ∧
      ((∃ path' x', eraseBranch side root parent.addr = some (root', parentOf path', x'.ptr, false) ∧
          Deficit root' path' x' entries ∧ (x'.color = .red ∨ path' = path)) ∨
        ∃ t next, eraseBranch side root parent.addr = some (root', next, root'.node, true) ∧
          Settled root' t entries) := by
  rcases h.short with ⟨height, hshort, hallows⟩
  have hx : x.Balanced height := by
    rcases hshort with ⟨-, hx⟩ | ⟨hred, -⟩
    · exact hx
    · rw [hblack] at hred
      cases hred
  rcases blackSibling_holds h.holds hallows h.inorder with
    ⟨root₁, path₁, color₁, sibling, near, far, hstep₁, hkeep₁, h₁, hallows₁, hinorder₁, hpath₁⟩
  have hview := holds_near.mpr h₁
  have hsibling := holds_far.mp hview
  have hloadS := hsibling.load
  have hnearBlack := isNilOrBlack_eq (holds_near.mp hsibling)
  have hfarBlack := isNilOrBlack_eq (holds_far.mp hsibling)
  have hsiblingBalanced : (Tree.make side .black sibling near far).Balanced (height + 1) := by
    cases color₁ with
    | red => exact hallows₁.2.2.1
    | black => exact hallows₁.1
  rcases (Tree.balanced_black ..).mp hsiblingBalanced with ⟨below, hbelow, hnear, hfar⟩
  obtain rfl : height = below := Nat.succ.inj hbelow
  by_cases hboth : near.color = .black ∧ far.color = .black
  · -- the sibling turns red, and the parent is short
    rcases colorSetRed_holds (fun hnil ↦ by cases side <;> cases hnil) hsibling with
      ⟨root₂, hstep₂, hkeep₂, h₂⟩
    rw [← holds_far, Tree.paint_make] at h₂
    rw [Tree.ptr_make] at hstep₂
    have hload₂ := h₂.load
    have hsiblingRed : (Tree.make side .red sibling near far).Balanced height :=
      (Tree.balanced_red ..).mpr ⟨hboth.1, hboth.2, hnear, hfar⟩
    refine ⟨root₂, hkeep₁.trans hkeep₂, Or.inl ⟨path₁, _, ?_, ⟨h₂, ?_, ?_⟩, ?_⟩⟩
    · simp only [eraseBranch, hstep₁, Option.bind_eq_bind, Option.bind_some, hloadS, sideCell_near,
        sideCell_far, hnearBlack, hfarBlack, hboth.1, hboth.2, decide_true, and_self, if_true,
        hstep₂, hload₂, rbParent_sideCell _ _ _ _ _ (parentOf_aligned path₁), Tree.ptr_make]
    · cases color₁ with
      | red =>
          refine ⟨height, Or.inr ⟨Tree.color_make .., ?_⟩, hallows₁.2.2.2.black⟩
          rw [Tree.paint_make]
          exact (Tree.balanced_black ..).mpr ⟨height, rfl, hx, hsiblingRed⟩
      | black =>
          refine ⟨height + 1, Or.inl ⟨Tree.color_make .., ?_⟩, hallows₁.2⟩
          exact (Tree.balanced_black ..).mpr ⟨height, rfl, hx, hsiblingRed⟩
    · rw [← hinorder₁]
      apply inorder_plug_congr path₁
      cases side <;> rfl
    · rcases hpath₁ with hred | hsame
      · exact Or.inl ((Tree.color_make ..).trans hred)
      · exact Or.inr hsame
  · -- the sibling has a red child to spare
    rcases redFarChild_holds hview hnear hfar hboth with
      ⟨root₂, sibling', near', far', hstep₂, hkeep₂, h₂, hnear', hfar', hfarRed, hinorder₂⟩
    rcases borrow_holds h₂ with
      ⟨p, root₃, root₄, s, root₅, root₆, hp, hstep₃, hstep₄, hs, hstep₅, hstep₆, hkeep₆, h₆⟩
    have hlow : (Tree.make side .black parent x near').Balanced (height + 1) :=
      (Tree.balanced_black ..).mpr ⟨height, rfl, hx, hnear'⟩
    have hhigh := hfar'.paint_red_black hfarRed
    have hhighColor : (far'.paint .black).color = .black := by
      apply far'.color_paint
      rintro rfl
      cases hfarRed
    have hsettled : Allows path₁ color₁ (height + 1) ∧
          (Tree.make side color₁ sibling' (Tree.make side .black parent x near')
            (far'.paint .black)).Balanced (height + 1) ∨
        Allows path₁ color₁ (height + 2) ∧
          (Tree.make side color₁ sibling' (Tree.make side .black parent x near')
            (far'.paint .black)).Balanced (height + 2) := by
      cases color₁ with
      | red =>
          refine Or.inl ⟨hallows₁.2.2.2, ?_⟩
          exact (Tree.balanced_red ..).mpr ⟨Tree.color_make .., hhighColor, hlow, hhigh⟩
      | black =>
          refine Or.inr ⟨hallows₁.2, ?_⟩
          exact (Tree.balanced_black ..).mpr ⟨height + 1, rfl, hlow, hhigh⟩
    refine ⟨root₆, hkeep₁.trans (hkeep₂.trans hkeep₆), Or.inr ⟨_, parent.addr, ?_,
      (holds_plug _).mp h₆, ?_, ?_, ?_⟩⟩
    · have hbothFalse : ¬ ((decide (near.color = .black)) = true ∧
          (decide (far.color = .black)) = true) := by
        simpa only [decide_eq_true_eq] using hboth
      simp only [eraseBranch, hstep₁, Option.bind_eq_bind, Option.bind_some, hloadS, sideCell_near,
        sideCell_far, hnearBlack, hfarBlack, if_neg hbothFalse, hstep₂, hp, hstep₃, hstep₄, hs,
        hstep₅, hstep₆]
    · rcases hsettled with ⟨hpath, hbalanced⟩ | ⟨hpath, hbalanced⟩
      · exact (Allows.plug (by rwa [Tree.color_make]) hbalanced).1
      · exact (Allows.plug (by rwa [Tree.color_make]) hbalanced).1
    · rcases hsettled with ⟨hpath, hbalanced⟩ | ⟨hpath, hbalanced⟩
      · exact (Allows.plug (by rwa [Tree.color_make]) hbalanced).2
      · exact (Allows.plug (by rwa [Tree.color_make]) hbalanced).2
    · rw [← hinorder₁]
      apply inorder_plug_congr path₁
      rw [Frame.fill, Tree.inorder_make side color₁ parent, ← hinorder₂]
      cases side <;> simp [Tree.make, Tree.inorder]

/-- The sibling of a short subtree is another node. -/
theorem Deficit.sibling_ptr_ne {root : RbRoot κ} {frame : Frame κ} {path : List (Frame κ)}
    {x : Tree κ} {entries : List (Entry κ)} (h : Deficit root (frame :: path) x entries) :
    x.ptr ≠ frame.other.ptr := by
  rcases h.short with ⟨height, -, hallows⟩
  rcases frame with ⟨side, color, parent, other⟩
  have hbalanced : other.Balanced (height + 1) := by
    cases color with
    | red => exact hallows.2.2.1
    | black => exact hallows.1
  rcases x.eq_nil_or_make .left with rfl | ⟨entry, near, far, hmake⟩
  · intro hzero
    rw [(other.ptr_eq_zero_iff).mp hzero.symm] at hbalanced
    cases hbalanced
  · have hview := h.holds
    rw [hmake] at hview ⊢
    rw [Tree.ptr_make]
    exact (hview.sibling_ne _ rfl).symm

/-- A turn of the loop.  The source tells the sides apart by the left child of the parent. -/
theorem eraseRebalanceLoop_succ (fuel : ℕ) {root : RbRoot κ} {side : Side} {color : Color}
    {parent : Entry κ} {node up other : Ptr} (hblack : isNilOrBlack root node = some true)
    (hnode : root.node ≠ node)
    (hload : root.mem parent.addr = some (sideCell side color parent up node other))
    (hne : node ≠ other) :
    eraseRebalanceLoop (fuel + 1) root parent.addr node = (do
      let (root, parent, node, stop) ← eraseBranch side root parent.addr
      if stop then some (root, node) else eraseRebalanceLoop fuel root parent node) := by
  cases side with
  | left =>
      have hleft : (sideCell .left color parent up node other).left = node := rfl
      simp only [eraseRebalanceLoop, hblack, Option.bind_eq_bind, Option.bind_some, true_and,
        ne_eq, hnode, not_false_eq_true, if_true, hload, if_pos hleft.symm]
  | right =>
      have hleft : (sideCell .right color parent up node other).left = other := rfl
      simp only [eraseRebalanceLoop, hblack, Option.bind_eq_bind, Option.bind_some, true_and,
        ne_eq, hnode, not_false_eq_true, if_true, hload, hleft, if_neg hne]

/-- The loop ends in a tree that is settled once the node it ends at is black. -/
theorem eraseRebalanceLoop_holds {entries : List (Entry κ)} {fuel : ℕ} {root : RbRoot κ}
    {path : List (Frame κ)} {x : Tree κ} (h : Deficit root path x entries)
    (hfuel : x.color = .red ∧ 0 < fuel ∨ path.length < fuel) :
    ∃ root' path' x', eraseRebalanceLoop fuel root (parentOf path) x.ptr = some (root', x'.ptr) ∧
      Relinked root root' ∧ Holds root' path' x' ∧ (plug path' x').inorder = entries ∧
      ∃ height, (x'.paint .black).Balanced height ∧ Allows path' .black height := by
  induction fuel generalizing root path x with
  | zero => omega
  | succ fuel ih =>
      have hblack := isNilOrBlack_eq h.holds
      cases hcolor : x.color with
      | red =>
          rcases h.short with ⟨height, ⟨hnot, -⟩ | ⟨-, hbalanced⟩, hallows⟩
          · rw [hcolor] at hnot
            cases hnot
          refine ⟨root, path, x, ?_, Relinked.refl root, h.holds, h.inorder, height + 1, hbalanced,
            hallows⟩
          simp only [eraseRebalanceLoop, hblack, hcolor, Option.bind_eq_bind, Option.bind_some,
            reduceCtorEq, decide_false, Bool.false_eq_true, false_and, if_false]
      | black =>
          match path, h, hfuel with
          | [], h, hfuel =>
              rcases h.short with ⟨height, ⟨-, hbalanced⟩ | ⟨hnot, -⟩, hallows⟩
              · rcases hbalanced.paint_black with ⟨height', hpainted⟩
                refine ⟨root, [], x, ?_, Relinked.refl root, h.holds, h.inorder, height', hpainted,
                  rfl⟩
                have hnode : root.node = x.ptr := h.holds.root_eq
                simp only [eraseRebalanceLoop, hblack, Option.bind_eq_bind, Option.bind_some, hnode,
                  ne_eq, not_true_eq_false, and_false, if_false]
              · rw [hcolor] at hnot
                cases hnot
          | ⟨side, color, parent, other⟩ :: path, h, hfuel =>
              have hnode := h.holds.node_ne
              have hload := h.holds.load_parent
              have hsibling := h.sibling_ptr_ne
              simp only at hload hsibling
              have hshort : path.length < fuel := by
                rcases hfuel with ⟨hred, -⟩ | hlt
                · rw [hcolor] at hred
                  cases hred
                · exact Nat.lt_of_succ_lt_succ hlt
              have hloop := eraseRebalanceLoop_succ fuel
                (hblack.trans (by rw [hcolor]; rfl)) hnode hload hsibling
              rcases eraseBranch_holds h hcolor with ⟨root₁, hkeep₁, hgo | hstop⟩
              · rcases hgo with ⟨path₁, x₁, hstep, h₁, hend⟩
                have hfuel₁ : x₁.color = .red ∧ 0 < fuel ∨ path₁.length < fuel := by
                  rcases hend with hred | rfl
                  · exact Or.inl ⟨hred, Nat.zero_lt_of_lt hshort⟩
                  · exact Or.inr hshort
                rcases ih h₁ hfuel₁ with ⟨root', path', x', hrec, hkeep', hrest⟩
                refine ⟨root', path', x', ?_, hkeep₁.trans hkeep', hrest⟩
                rw [parentOf_cons, hloop, hstep]
                exact hrec
              · rcases hstop with ⟨t, next, hstep, hsettled⟩
                rcases hsettled.balanced with ⟨height, hbalanced⟩
                rcases hbalanced.paint_black with ⟨height', hpainted⟩
                refine ⟨root₁, [], t, ?_, hkeep₁, hsettled.holds, hsettled.inorder, height',
                  hpainted, rfl⟩
                have hnode₁ : root₁.node = t.ptr := hsettled.holds.root_eq
                rw [parentOf_cons, hloop, hstep, hnode₁]
                rfl

/-- Rebalancing after an erase. -/
theorem rbEraseRebalance_holds {entries : List (Entry κ)} {root : RbRoot κ}
    {path : List (Frame κ)} {x : Tree κ} (h : Deficit root path x entries)
    (hfuel : path.length < turns root) :
    ∃ root' t, rbEraseRebalance root (parentOf path) x.ptr = some root' ∧ Relinked root root' ∧
      Settled root' t entries := by
  rcases eraseRebalanceLoop_holds h (Or.inr hfuel) with
    ⟨root₁, path₁, x₁, hloop, hkeep, hview, hinorder, height, hbalanced, hallows⟩
  rcases colorSetBlackIf_holds hview with ⟨root₂, hstep, hkeep₂, hview₂⟩
  have hcolor : (x₁.paint .black).color = .black := by
    cases x₁ with
    | nil => rfl
    | node color entry left right => rfl
  rcases Allows.plug (by rwa [hcolor]) hbalanced with ⟨hblack, hwhole⟩
  refine ⟨root₂, plug path₁ (x₁.paint .black), ?_, hkeep.trans hkeep₂,
    (holds_plug _).mp hview₂, hblack, hwhole, ?_⟩
  · rw [rbEraseRebalance, hloop]
    exact hstep
  · rw [← hinorder]
    exact inorder_plug_congr path₁ (x₁.inorder_paint .black)

end CPractice.RbMap
