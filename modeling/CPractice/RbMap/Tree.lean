import CPractice.RbMap.Model
import Mathlib.Data.List.Basic

/-!
# Trees with addresses, and paths into them

A `Tree` is what the memory of a map spells out: coloured nodes, each with the entry at its address.
A path from a subtree up to the root is a list of `Frame`s, the innermost first, and `plug` puts a
tree at its end.  `inorder` is the sequence of entries, which no rebalancing changes; `Balanced` is
the red-black invariant of a subtree with its black height, and `Allows` what a path expects of the
tree at its end.
-/

namespace CPractice.RbMap

/-- The addresses an allocator hands out. -/
abbrev Addr := { p : Ptr // p ≠ 0 ∧ p &&& 3 = 0 }

/-- The two colours. -/
inductive Color where
  | red | black
  deriving DecidableEq

/-- A node's address, key and value. -/
structure Entry (κ : Type) where
  addr : Addr
  key : κ
  value : ValueT

/-- A binary tree of coloured entries. -/
inductive Tree (κ : Type) where
  | nil
  | node (color : Color) (entry : Entry κ) (left right : Tree κ)

variable {κ : Type}

namespace Tree

/-- The pointer to a tree. -/
def ptr : Tree κ → Ptr
  | nil => 0
  | node _ entry _ _ => entry.addr

/-- The colour of the root; an empty tree counts as black. -/
def color : Tree κ → Color
  | nil => .black
  | node color _ _ _ => color

/-- The entries in the order of the tree. -/
def inorder : Tree κ → List (Entry κ)
  | nil => []
  | node _ entry left right => left.inorder ++ entry :: right.inorder

/-- The tree with its root in another colour. -/
def paint (color : Color) : Tree κ → Tree κ
  | nil => nil
  | node _ entry left right => node color entry left right

/-- A node by the side of one child: `near` is on that side. -/
def make (side : Side) (color : Color) (entry : Entry κ) (near far : Tree κ) : Tree κ :=
  match side with
  | .left => node color entry near far
  | .right => node color entry far near

@[simp]
theorem ptr_nil : (nil : Tree κ).ptr = 0 := rfl

@[simp]
theorem ptr_make (side : Side) (color : Color) (entry : Entry κ) (near far : Tree κ) :
    (make side color entry near far).ptr = entry.addr := by
  cases side <;> rfl

@[simp]
theorem color_make (side : Side) (color : Color) (entry : Entry κ) (near far : Tree κ) :
    (make side color entry near far).color = color := by
  cases side <;> rfl

@[simp]
theorem paint_make (side : Side) (color color' : Color) (entry : Entry κ) (near far : Tree κ) :
    (make side color entry near far).paint color' = make side color' entry near far := by
  cases side <;> rfl

@[simp]
theorem make_other (side : Side) (color : Color) (entry : Entry κ) (near far : Tree κ) :
    make side.other color entry near far = make side color entry far near := by
  cases side <;> rfl

@[simp]
theorem inorder_paint (t : Tree κ) (color : Color) : (t.paint color).inorder = t.inorder := by
  cases t <;> rfl

@[simp]
theorem ptr_paint (t : Tree κ) (color : Color) : (t.paint color).ptr = t.ptr := by
  cases t <;> rfl

/-- Every tree but the empty one is made from any of its sides. -/
theorem eq_nil_or_make (side : Side) (t : Tree κ) :
    t = nil ∨ ∃ entry near far, t = make side t.color entry near far := by
  cases t with
  | nil => exact Or.inl rfl
  | node color entry left right =>
      cases side with
      | left => exact Or.inr ⟨entry, left, right, rfl⟩
      | right => exact Or.inr ⟨entry, right, left, rfl⟩

theorem ptr_eq_zero_iff (t : Tree κ) : t.ptr = 0 ↔ t = nil := by
  cases t with
  | nil => simp
  | node color entry left right =>
      constructor
      · intro h
        exact absurd h entry.addr.2.1
      · intro h
        cases h

/-- `inorder` by the side of one child. -/
theorem inorder_make (side : Side) (color : Color) (entry : Entry κ) (near far : Tree κ) :
    (make side color entry near far).inorder = match side with
      | .left => near.inorder ++ entry :: far.inorder
      | .right => far.inorder ++ entry :: near.inorder := by
  cases side <;> rfl

/-! ## The red-black invariant -/

/-- No red node has a red child, and every path to an empty tree has the given number of black
nodes. -/
def Balanced : Tree κ → ℕ → Prop
  | nil, height => height = 0
  | node .red _ left right, height =>
      left.color = .black ∧ right.color = .black ∧ left.Balanced height ∧ right.Balanced height
  | node .black _ left right, height =>
      ∃ below, height = below + 1 ∧ left.Balanced below ∧ right.Balanced below

@[simp]
theorem balanced_nil (height : ℕ) : (nil : Tree κ).Balanced height ↔ height = 0 := Iff.rfl

@[simp]
theorem balanced_red (side : Side) (entry : Entry κ) (near far : Tree κ) (height : ℕ) :
    (make side .red entry near far).Balanced height ↔
      near.color = .black ∧ far.color = .black ∧ near.Balanced height ∧ far.Balanced height := by
  cases side with
  | left => exact Iff.rfl
  | right =>
      constructor
      · rintro ⟨h₁, h₂, h₃, h₄⟩
        exact ⟨h₂, h₁, h₄, h₃⟩
      · rintro ⟨h₁, h₂, h₃, h₄⟩
        exact ⟨h₂, h₁, h₄, h₃⟩

@[simp]
theorem balanced_black (side : Side) (entry : Entry κ) (near far : Tree κ) (height : ℕ) :
    (make side .black entry near far).Balanced height ↔
      ∃ below, height = below + 1 ∧ near.Balanced below ∧ far.Balanced below := by
  cases side with
  | left => exact Iff.rfl
  | right =>
      constructor
      · rintro ⟨below, h₁, h₂, h₃⟩
        exact ⟨below, h₁, h₃, h₂⟩
      · rintro ⟨below, h₁, h₂, h₃⟩
        exact ⟨below, h₁, h₃, h₂⟩

theorem color_paint (t : Tree κ) (ht : t ≠ nil) (color : Color) : (t.paint color).color = color := by
  cases t with
  | nil => exact absurd rfl ht
  | node _ entry left right => rfl

/-- A red root painted black is one level higher. -/
theorem Balanced.paint_red_black {t : Tree κ} {height : ℕ} (h : t.Balanced height)
    (hred : t.color = .red) : (t.paint .black).Balanced (height + 1) := by
  cases t with
  | nil => cases hred
  | node color entry left right =>
      cases hred
      exact ⟨height, rfl, h.2.2⟩

/-- A balanced tree painted black stays balanced. -/
theorem Balanced.paint_black {t : Tree κ} {height : ℕ} (h : t.Balanced height) :
    ∃ height', (t.paint .black).Balanced height' := by
  cases t with
  | nil => exact ⟨height, h⟩
  | node color entry left right =>
      cases color with
      | red => exact ⟨height + 1, height, rfl, h.2.2⟩
      | black => exact ⟨height, h⟩

end Tree

/-! ## Paths -/

/-- A node with a hole on one side, and the tree on the other. -/
structure Frame (κ : Type) where
  side : Side
  color : Color
  entry : Entry κ
  other : Tree κ

/-- The node with a tree in its hole. -/
def Frame.fill (frame : Frame κ) (t : Tree κ) : Tree κ :=
  Tree.make frame.side frame.color frame.entry t frame.other

/-- The whole tree around a subtree. -/
def plug : List (Frame κ) → Tree κ → Tree κ
  | [], t => t
  | frame :: path, t => plug path (frame.fill t)

/-- The entries in front of the hole. -/
def entriesBefore : List (Frame κ) → List (Entry κ)
  | [] => []
  | frame :: path =>
      match frame.side with
      | .left => entriesBefore path
      | .right => entriesBefore path ++ frame.other.inorder ++ [frame.entry]

/-- The entries behind the hole. -/
def entriesAfter : List (Frame κ) → List (Entry κ)
  | [] => []
  | frame :: path =>
      match frame.side with
      | .left => frame.entry :: frame.other.inorder ++ entriesAfter path
      | .right => entriesAfter path

theorem inorder_plug (path : List (Frame κ)) (t : Tree κ) :
    (plug path t).inorder = entriesBefore path ++ t.inorder ++ entriesAfter path := by
  induction path generalizing t with
  | nil => simp [plug, entriesBefore, entriesAfter]
  | cons frame path ih =>
      rw [plug, ih, Frame.fill, Tree.inorder_make]
      rcases frame with ⟨side, color, entry, other⟩
      cases side <;> simp [entriesBefore, entriesAfter]

theorem plug_append (inner outer : List (Frame κ)) (t : Tree κ) :
    plug (inner ++ outer) t = plug outer (plug inner t) := by
  induction inner generalizing t with
  | nil => rfl
  | cons frame inner ih => exact ih (frame.fill t)

/-- A path is no longer than the tree has entries. -/
theorem length_path_le (path : List (Frame κ)) (t : Tree κ) :
    path.length + t.inorder.length ≤ (plug path t).inorder.length := by
  induction path generalizing t with
  | nil => simp [plug]
  | cons frame path ih =>
      have hfill : t.inorder.length + 1 ≤ (frame.fill t).inorder.length := by
        rw [Frame.fill, Tree.inorder_make]
        rcases frame with ⟨side, color, entry, other⟩
        cases side <;> simp
      have hpath := ih (frame.fill t)
      rw [plug, List.length_cons]
      omega

/-- Every entry of a tree is the root of a subtree at the end of a path. -/
theorem exists_path {t : Tree κ} {entry : Entry κ} (h : entry ∈ t.inorder) :
    ∃ path color left right, t = plug path (.node color entry left right) := by
  induction t with
  | nil => cases h
  | node color root left right ihl ihr =>
      rcases List.mem_append.mp h with hleft | hright
      · rcases ihl hleft with ⟨path, c, l, r, rfl⟩
        exact ⟨path ++ [⟨.left, color, root, right⟩], c, l, r, by rw [plug_append]; rfl⟩
      · rcases List.mem_cons.mp hright with rfl | hright
        · exact ⟨[], color, left, right, rfl⟩
        · rcases ihr hright with ⟨path, c, l, r, rfl⟩
          exact ⟨path ++ [⟨.right, color, root, left⟩], c, l, r, by rw [plug_append]; rfl⟩

/-! ## What a path expects -/

/-- The path may end in a balanced tree of the given colour and black height. -/
def Allows : List (Frame κ) → Color → ℕ → Prop
  | [], color, _ => color = .black
  | ⟨_, .red, _, other⟩ :: path, color, height =>
      color = .black ∧ other.color = .black ∧ other.Balanced height ∧ Allows path .red height
  | ⟨_, .black, _, other⟩ :: path, _, height =>
      other.Balanced height ∧ Allows path .black (height + 1)

/-- Black is allowed wherever red is. -/
theorem Allows.black {path : List (Frame κ)} {color : Color} {height : ℕ}
    (h : Allows path color height) : Allows path .black height := by
  match path with
  | [] => rfl
  | ⟨_, .red, _, _⟩ :: _ => exact ⟨rfl, h.2⟩
  | ⟨_, .black, _, _⟩ :: _ => exact h

/-- A path ending in what it allows is a balanced tree with a black root. -/
theorem Allows.plug {path : List (Frame κ)} {t : Tree κ} {height : ℕ}
    (h : Allows path t.color height) (ht : t.Balanced height) :
    (plug path t).color = .black ∧ ∃ whole, (plug path t).Balanced whole := by
  induction path generalizing t height with
  | nil => exact ⟨h, height, ht⟩
  | cons frame path ih =>
      rcases frame with ⟨side, color, entry, other⟩
      cases color with
      | red =>
          rcases h with ⟨hcolor, hother, hbalanced, hpath⟩
          refine ih ?_ ((Tree.balanced_red ..).mpr ⟨hcolor, hother, ht, hbalanced⟩)
          rwa [Frame.fill, Tree.color_make]
      | black =>
          rcases h with ⟨hbalanced, hpath⟩
          refine ih ?_ ((Tree.balanced_black ..).mpr ⟨height, rfl, ht, hbalanced⟩)
          rwa [Frame.fill, Tree.color_make]

/-- Any subtree of a balanced tree with a black root is balanced, and its path allows it. -/
theorem allows_of_plug {path : List (Frame κ)} {t : Tree κ} {whole : ℕ}
    (hcolor : (plug path t).color = .black) (h : (plug path t).Balanced whole) :
    ∃ height, t.Balanced height ∧ Allows path t.color height := by
  induction path generalizing t with
  | nil => exact ⟨whole, h, hcolor⟩
  | cons frame path ih =>
      rcases ih hcolor h with ⟨height, hfill, hpath⟩
      rcases frame with ⟨side, color, entry, other⟩
      rw [Frame.fill, Tree.color_make] at hpath
      cases color with
      | red =>
          rcases (Tree.balanced_red ..).mp hfill with ⟨h₁, h₂, h₃, h₄⟩
          exact ⟨height, h₃, h₁, h₂, h₄, hpath⟩
      | black =>
          rcases (Tree.balanced_black ..).mp hfill with ⟨below, rfl, h₃, h₄⟩
          exact ⟨below, h₃, h₄, hpath⟩

end CPractice.RbMap
