import CPractice.RbMap.Tree
import CPractice.Lib.Cells
import Mathlib.Algebra.Order.Group.Multiset

/-!
# Trees in memory

`Holds root path t` says that the memory links up the tree `t` at the end of the path, below the
root pointer: every node has its colour and parent in one word and its two children.  The tree
can be looked at from any of its nodes (`holds_near`, `holds_far`), so an operation on one node has one
rule: reading it, painting it, giving it another parent, and rotating it.
-/

namespace CPractice.RbMap

open Lib

/-! ## The word of a parent and a colour -/

/-- The bit of a colour. -/
def Color.bit : Color → BitVec 64
  | .red => 0
  | .black => BLACK

/-- The word of a parent and a colour. -/
def pack (parent : Ptr) (color : Color) : BitVec 64 := parent ||| color.bit

section Words

variable {p : Ptr} (hp : p &&& 3 = 0)
include hp

theorem and_black_of_aligned : p &&& BLACK = 0 := by
  have hmask : (3 : BitVec 64) &&& BLACK = BLACK := by decide
  rw [← hmask, ← BitVec.and_assoc, hp, BitVec.ofNat_eq_ofNat, BitVec.zero_and]

theorem and_not_black_of_aligned : p &&& ~~~BLACK = p := by
  calc p &&& ~~~BLACK = (p &&& BLACK) ||| (p &&& ~~~BLACK) := by
        rw [and_black_of_aligned hp, BitVec.ofNat_eq_ofNat, BitVec.zero_or]
    _ = p &&& (BLACK ||| ~~~BLACK) := BitVec.and_or_distrib_left.symm
    _ = p := by rw [BitVec.or_not_self, BitVec.and_allOnes]

theorem pack_parent (color : Color) : pack p color &&& ~~~BLACK = p := by
  have hbit : color.bit &&& ~~~BLACK = 0 := by cases color <;> decide
  rw [pack, BitVec.and_or_distrib_right, and_not_black_of_aligned hp, hbit,
    BitVec.ofNat_eq_ofNat, BitVec.or_zero]

theorem pack_color (color : Color) : pack p color &&& BLACK = color.bit := by
  have hbit : color.bit &&& BLACK = color.bit := by cases color <;> decide
  rw [pack, BitVec.and_or_distrib_right, and_black_of_aligned hp, hbit,
    BitVec.ofNat_eq_ofNat, BitVec.zero_or]

theorem pack_keep (color : Color) (q : Ptr) : pack p color &&& 3 ||| q = pack q color := by
  have hbit : color.bit &&& 3 = color.bit := by cases color <;> decide
  rw [pack, BitVec.and_or_distrib_right, hp, hbit, BitVec.ofNat_eq_ofNat, BitVec.zero_or,
    BitVec.or_comm, pack]

theorem pack_recolor (color color' : Color) :
    pack p color &&& ~~~BLACK ||| color'.bit = pack p color' := by
  rw [pack_parent hp, pack]

theorem pack_red (color : Color) : pack p color &&& ~~~BLACK = pack p .red := by
  rw [pack_parent hp, pack, Color.bit, BitVec.ofNat_eq_ofNat, BitVec.or_zero]

end Words

theorem pack_black (p : Ptr) (color : Color) : pack p color ||| BLACK = pack p .black := by
  have hbit : color.bit ||| BLACK = BLACK := by cases color <;> decide
  rw [pack, BitVec.or_assoc, hbit, pack, Color.bit]

/-! ## Cells -/

variable {κ : Type}

/-- The memory of a node. -/
def nodeCell (color : Color) (entry : Entry κ) (parent left right : Ptr) : RbNode κ :=
  ⟨pack parent color, left, right, entry.key, entry.value⟩

section NodeCell

variable (color : Color) (entry : Entry κ) (parent left right : Ptr)

@[simp]
theorem nodeCell_word : (nodeCell color entry parent left right).parent = pack parent color := rfl

@[simp]
theorem nodeCell_left : (nodeCell color entry parent left right).left = left := rfl

@[simp]
theorem nodeCell_right : (nodeCell color entry parent left right).right = right := rfl

end NodeCell

/-- The memory of a node by the side of one child. -/
def sideCell (side : Side) (color : Color) (entry : Entry κ) (parent near far : Ptr) : RbNode κ :=
  match side with
  | .left => nodeCell color entry parent near far
  | .right => nodeCell color entry parent far near

section SideCell

variable (side : Side) (color : Color) (entry : Entry κ) (parent near far : Ptr)

@[simp]
theorem sideCell_near : (sideCell side color entry parent near far).child side = near := by
  cases side <;> rfl

@[simp]
theorem sideCell_far : (sideCell side color entry parent near far).child side.other = far := by
  cases side <;> rfl

@[simp]
theorem sideCell_withNear (child : Ptr) :
    (sideCell side color entry parent near far).withChild side child =
      sideCell side color entry parent child far := by
  cases side <;> rfl

@[simp]
theorem sideCell_withFar (child : Ptr) :
    (sideCell side color entry parent near far).withChild side.other child =
      sideCell side color entry parent near child := by
  cases side <;> rfl

theorem sideCell_word : (sideCell side color entry parent near far).parent = pack parent color := by
  cases side <;> rfl

theorem sideCell_withWord (color' : Color) (parent' : Ptr) :
    { sideCell side color entry parent near far with parent := pack parent' color' } =
      sideCell side color' entry parent' near far := by
  cases side <;> rfl

@[simp]
theorem sideCell_key : (sideCell side color entry parent near far).key = entry.key := by
  cases side <;> rfl

@[simp]
theorem sideCell_value : (sideCell side color entry parent near far).value = entry.value := by
  cases side <;> rfl

variable {parent} (hparent : parent &&& 3 = 0)
include hparent

theorem rbParent_sideCell : rbParent (sideCell side color entry parent near far) = parent := by
  rw [rbParent, sideCell_word, pack_parent hparent]

theorem rbColor_sideCell : rbColor (sideCell side color entry parent near far) = color.bit := by
  rw [rbColor, sideCell_word, pack_color hparent]

theorem colorIsRed_sideCell :
    colorIsRed (sideCell side color entry parent near far) = decide (color = .red) := by
  rw [colorIsRed, rbColor_sideCell side color entry near far hparent]
  cases color <;> decide

theorem colorIsBlack_sideCell :
    colorIsBlack (sideCell side color entry parent near far) = decide (color = .black) := by
  rw [colorIsBlack, rbColor_sideCell side color entry near far hparent]
  cases color <;> decide

end SideCell

/-- The cells of a tree below a parent. -/
def Tree.cells : Tree κ → Ptr → Multiset (Ptr × RbNode κ)
  | .nil, _ => 0
  | .node color entry left right, parent =>
      (entry.addr.1, nodeCell color entry parent left.ptr right.ptr) ::ₘ
        (left.cells entry.addr + right.cells entry.addr)

@[simp]
theorem Tree.cells_nil (parent : Ptr) : (Tree.nil : Tree κ).cells parent = 0 := rfl

@[simp]
theorem Frame.fill_ptr (frame : Frame κ) (t : Tree κ) : (frame.fill t).ptr = frame.entry.addr :=
  Tree.ptr_make ..

@[simp]
theorem Frame.fill_color (frame : Frame κ) (t : Tree κ) : (frame.fill t).color = frame.color :=
  Tree.color_make ..

theorem Frame.fill_ne_nil (frame : Frame κ) (t : Tree κ) : frame.fill t ≠ .nil := by
  intro hnil
  have hptr := frame.fill_ptr t
  rw [hnil] at hptr
  exact frame.entry.addr.2.1 hptr.symm

theorem Tree.cells_make (side : Side) (color : Color) (entry : Entry κ) (near far : Tree κ)
    (parent : Ptr) :
    (Tree.make side color entry near far).cells parent =
      (entry.addr.1, sideCell side color entry parent near.ptr far.ptr) ::ₘ
        (near.cells entry.addr + far.cells entry.addr) := by
  cases side with
  | left => rfl
  | right =>
      rw [add_comm (near.cells _)]
      rfl

/-- The parent of the hole at the end of a path. -/
def parentOf : List (Frame κ) → Ptr
  | [] => 0
  | frame :: _ => frame.entry.addr

/-- The root pointer of a path. -/
def rootOf : List (Frame κ) → Ptr → Ptr
  | [], hole => hole
  | frame :: path, _ => rootOf path frame.entry.addr

/-- The cells of a path around a hole that holds a pointer. -/
def pathCells : List (Frame κ) → Ptr → Multiset (Ptr × RbNode κ)
  | [], _ => 0
  | frame :: path, hole =>
      (frame.entry.addr.1,
          sideCell frame.side frame.color frame.entry (parentOf path) hole frame.other.ptr) ::ₘ
        (frame.other.cells frame.entry.addr + pathCells path frame.entry.addr)

@[simp]
theorem parentOf_nil : parentOf ([] : List (Frame κ)) = 0 := rfl

@[simp]
theorem parentOf_cons (frame : Frame κ) (path : List (Frame κ)) :
    parentOf (frame :: path) = frame.entry.addr := rfl

theorem parentOf_aligned (path : List (Frame κ)) : parentOf path &&& 3 = 0 := by
  cases path with
  | nil =>
      change (0 : BitVec 64) &&& 3 = 0
      decide
  | cons frame path => exact frame.entry.addr.2.2

/-- The memory links up a tree at the end of a path, below the root pointer. -/
structure Holds (root : RbRoot κ) (path : List (Frame κ)) (t : Tree κ) : Prop where
  root_eq : root.node = rootOf path t.ptr
  owns : Owns root.mem (pathCells path t.ptr + t.cells (parentOf path))

section Views

variable {root : RbRoot κ} {path : List (Frame κ)}

/-- A tree can be looked at from the root of its subtree in a hole. -/
theorem holds_cons (frame : Frame κ) (t : Tree κ) :
    Holds root (frame :: path) t ↔ Holds root path (frame.fill t) := by
  have hcells : pathCells (frame :: path) t.ptr + t.cells (parentOf (frame :: path)) =
      pathCells path (frame.fill t).ptr + (frame.fill t).cells (parentOf path) := by
    rw [Frame.fill, Tree.cells_make, Tree.ptr_make, pathCells, parentOf]
    simp only [← Multiset.singleton_add]
    ac_rfl
  have hroot : rootOf (frame :: path) t.ptr = rootOf path (frame.fill t).ptr := by
    rw [Frame.fill, Tree.ptr_make, rootOf]
  constructor
  · rintro ⟨h₁, h₂⟩
    exact ⟨by rw [h₁, hroot], by rwa [← hcells]⟩
  · rintro ⟨h₁, h₂⟩
    exact ⟨by rw [h₁, hroot], by rwa [hcells]⟩

variable {side : Side} {color : Color} {entry : Entry κ} {near far : Tree κ}

theorem holds_near : Holds root path (Tree.make side color entry near far) ↔
    Holds root (⟨side, color, entry, far⟩ :: path) near :=
  (holds_cons ⟨side, color, entry, far⟩ near).symm

theorem holds_far : Holds root path (Tree.make side color entry near far) ↔
    Holds root (⟨side.other, color, entry, near⟩ :: path) far := by
  rw [holds_cons, Frame.fill, Tree.make_other]

/-- The whole tree. -/
theorem holds_plug (t : Tree κ) : Holds root path t ↔ Holds root [] (plug path t) := by
  induction path generalizing t with
  | nil => exact Iff.rfl
  | cons frame path ih => rw [holds_cons, ih, plug]

/-- The cell of the node in view. -/
theorem Holds.load (h : Holds root path (Tree.make side color entry near far)) :
    root.mem entry.addr =
      some (sideCell side color entry (parentOf path) near.ptr far.ptr) := by
  have howns := h.owns
  rw [Tree.cells_make, Multiset.add_cons] at howns
  exact howns.load

/-- The parent that the root of the tree in view keeps. -/
theorem Holds.load_parentOf {t : Tree κ} (h : Holds root path t) (ht : t ≠ .nil) :
    ∃ n, root.mem t.ptr = some n ∧ rbParent n = parentOf path := by
  rcases t.eq_nil_or_make .left with hnil | ⟨entry, near, far, hmake⟩
  · exact absurd hnil ht
  · rw [hmake] at h ⊢
    rw [Tree.ptr_make]
    exact ⟨_, h.load, rbParent_sideCell _ _ _ _ _ (parentOf_aligned path)⟩

/-- The cell of the innermost node of the path. -/
theorem Holds.load_parent {frame : Frame κ} {t : Tree κ} (h : Holds root (frame :: path) t) :
    root.mem frame.entry.addr =
      some (sideCell frame.side frame.color frame.entry (parentOf path) t.ptr frame.other.ptr) :=
  ((holds_cons frame t).mp h).load

/-- A pointer in the path differs from the tree at its end. -/
theorem ptr_ne_of_owns {mem : Ptr → Option (RbNode κ)} {t : Tree κ} {p q : Ptr} {c : RbNode κ}
    {rest : Multiset (Ptr × RbNode κ)} (h : Owns mem ((p, c) ::ₘ (t.cells q + rest)))
    (hp : p ≠ 0) : t.ptr ≠ p := by
  cases t with
  | nil => exact hp.symm
  | node color entry left right =>
      have hmem : (entry.addr.1, nodeCell color entry q left.ptr right.ptr) ∈
          (Tree.node color entry left right).cells q + rest :=
        Multiset.mem_add.mpr (Or.inl (Multiset.mem_cons_self _ _))
      exact h.ne_of_mem_rest hmem

/-- A node in view is not its own sibling. -/
theorem Holds.sibling_ne (h : Holds root path (Tree.make side color entry near far)) :
    ∀ frame ∈ path.head?, frame.other.ptr ≠ entry.addr := by
  intro frame hframe
  cases path with
  | nil => cases hframe
  | cons first path =>
      cases Option.some.inj hframe
      have howns : Owns root.mem
          ((entry.addr.1, sideCell side color entry frame.entry.addr near.ptr far.ptr) ::ₘ
            (frame.other.cells frame.entry.addr +
              ((frame.entry.addr.1, sideCell frame.side frame.color frame.entry (parentOf path)
                  entry.addr frame.other.ptr) ::ₘ
                (pathCells path frame.entry.addr +
                  (near.cells entry.addr + far.cells entry.addr))))) := by
        convert h.owns using 1
        rw [pathCells, Tree.cells_make, Tree.ptr_make, parentOf]
        simp only [← Multiset.singleton_add]
        ac_rfl
      exact ptr_ne_of_owns howns entry.addr.2.1

end Views

/-! ## Stores -/

/-- Nothing but the contents of nodes and the root pointer differs. -/
structure Relinked (root root' : RbRoot κ) : Prop where
  min : root'.min = root.min
  max : root'.max = root.max
  size : root'.size = root.size
  live : ∀ p, (root'.mem p).isSome = (root.mem p).isSome

theorem Relinked.refl (root : RbRoot κ) : Relinked root root := ⟨rfl, rfl, rfl, fun _ ↦ rfl⟩

theorem Relinked.trans {root root' root'' : RbRoot κ} (h : Relinked root root')
    (h' : Relinked root' root'') : Relinked root root'' :=
  ⟨h'.min.trans h.min, h'.max.trans h.max, h'.size.trans h.size,
    fun p ↦ (h'.live p).trans (h.live p)⟩

/-- Nothing but the memory differs. -/
structure Stored (root root' : RbRoot κ) : Prop extends Relinked root root' where
  node : root'.node = root.node

theorem Stored.refl (root : RbRoot κ) : Stored root root := ⟨Relinked.refl root, rfl⟩

section Stores

variable {root : RbRoot κ} {rest : Multiset (Ptr × RbNode κ)}

theorem store_owns {p : Ptr} {c : RbNode κ} (h : Owns root.mem ((p, c) ::ₘ rest))
    (change : RbNode κ → RbNode κ) :
    ∃ root', store root p change = some root' ∧ Stored root root' ∧
      Owns root'.mem ((p, change c) ::ₘ rest) := by
  refine ⟨{ root with mem := Function.update root.mem p (some (change c)) },
    by rw [store, h.load]; rfl, ⟨⟨rfl, rfl, rfl, ?_⟩, rfl⟩, h.store (change c)⟩
  intro q
  change (Function.update root.mem p (some (change c)) q).isSome = _
  by_cases heq : q = p
  · rw [heq, Function.update_self, h.load]
    rfl
  · rw [Function.update_of_ne heq]

variable {side : Side} {color : Color} {entry : Entry κ} {parent near far : Ptr} {p : Ptr}

theorem setChild_near (child : Ptr)
    (h : Owns root.mem ((p, sideCell side color entry parent near far) ::ₘ rest)) :
    ∃ root', setChild root p side child = some root' ∧ Stored root root' ∧
      Owns root'.mem ((p, sideCell side color entry parent child far) ::ₘ rest) := by
  rcases store_owns h fun n ↦ n.withChild side child with ⟨root', hstore, hkeep, howns⟩
  exact ⟨root', hstore, hkeep, by rwa [sideCell_withNear] at howns⟩

theorem setChild_far (child : Ptr)
    (h : Owns root.mem ((p, sideCell side color entry parent near far) ::ₘ rest)) :
    ∃ root', setChild root p side.other child = some root' ∧ Stored root root' ∧
      Owns root'.mem ((p, sideCell side color entry parent near child) ::ₘ rest) := by
  rcases store_owns h fun n ↦ n.withChild side.other child with ⟨root', hstore, hkeep, howns⟩
  exact ⟨root', hstore, hkeep, by rwa [sideCell_withFar] at howns⟩

theorem rbSetParent_cell (parent' : Ptr) (hparent : parent &&& 3 = 0)
    (h : Owns root.mem ((p, sideCell side color entry parent near far) ::ₘ rest)) :
    ∃ root', rbSetParent root p parent' = some root' ∧ Stored root root' ∧
      Owns root'.mem ((p, sideCell side color entry parent' near far) ::ₘ rest) := by
  rcases store_owns h fun n ↦ { n with parent := n.parent &&& 3 ||| parent' } with
    ⟨root', hstore, hkeep, howns⟩
  refine ⟨root', hstore, hkeep, ?_⟩
  rwa [sideCell_word, pack_keep hparent, sideCell_withWord] at howns

/-- A tree is given another parent. -/
theorem setParentIf_owns {t : Tree κ} (parent' : Ptr) (hparent : parent &&& 3 = 0)
    (h : Owns root.mem (t.cells parent + rest)) :
    ∃ root', setParentIf root t.ptr parent' = some root' ∧ Stored root root' ∧
      Owns root'.mem (t.cells parent' + rest) := by
  rcases t.eq_nil_or_make .left with rfl | ⟨entry, near, far, ht⟩
  · exact ⟨root, rfl, Stored.refl root, h⟩
  · have hne : t.ptr ≠ 0 := by
      rw [ht, Tree.ptr_make]
      exact entry.addr.2.1
    rw [setParentIf, if_pos hne]
    rw [ht, Tree.cells_make, Multiset.cons_add] at h
    rcases rbSetParent_cell parent' hparent h with ⟨root', hstore, hkeep, howns⟩
    refine ⟨root', by rw [ht, Tree.ptr_make]; exact hstore, hkeep, ?_⟩
    rwa [ht, Tree.cells_make, Multiset.cons_add]

/-- The link above a hole is turned from one pointer to another. -/
theorem replaceChild_owns {path : List (Frame κ)} {old : Ptr} (new : Ptr)
    (hroot : root.node = rootOf path old) (hdistinct : ∀ frame ∈ path.head?, frame.other.ptr ≠ old)
    (h : Owns root.mem (pathCells path old + rest)) :
    ∃ root', replaceChild root (parentOf path) old new = some root' ∧ Relinked root root' ∧
      root'.node = rootOf path new ∧ Owns root'.mem (pathCells path new + rest) := by
  cases path with
  | nil => exact ⟨{ root with node := new }, rfl, ⟨rfl, rfl, rfl, fun _ ↦ rfl⟩, rfl, h⟩
  | cons frame path =>
      rcases frame with ⟨side, color, entry, other⟩
      have hne : other.ptr ≠ old := hdistinct _ rfl
      rw [pathCells, Multiset.cons_add] at h
      rcases setChild_near new h with ⟨root', hset, hkeep, howns⟩
      refine ⟨root', ?_, hkeep.toRelinked, hkeep.node.trans hroot, by
        rwa [pathCells, Multiset.cons_add]⟩
      rw [replaceChild, parentOf, if_pos entry.addr.2.1, h.load]
      cases side with
      | left =>
          have hleft : (sideCell .left color entry (parentOf path) old other.ptr).left = old := rfl
          simp only [Option.bind_eq_bind, Option.bind_some, hleft, if_true]
          exact hset
      | right =>
          have hleft : (sideCell .right color entry (parentOf path) old other.ptr).left =
            other.ptr := rfl
          simp only [Option.bind_eq_bind, Option.bind_some, hleft, if_neg hne]
          exact hset

end Stores

end CPractice.RbMap
