import CPractice.RbMap.Erase
import Mathlib.Data.Fintype.Card

/-!
# Erasing a node

`Represents root t entries` is the invariant of a map: the memory links up the tree `t`, the tree is
a red-black tree with the given entries in order, and `min`, `max`, `size` and the live nodes are
those of the entries.  Erasing the node of an entry takes the entry out.
-/

namespace CPractice.RbMap

open Lib

variable {κ : Type}

/-! ## The invariant of a map -/

/-- The first node of a sequence. -/
def firstPtr : List (Entry κ) → Ptr
  | [] => 0
  | entry :: _ => entry.addr

/-- The last node of a sequence. -/
def lastPtr (entries : List (Entry κ)) : Ptr := firstPtr entries.reverse

/-- The invariant of a map. -/
structure Represents (root : RbRoot κ) (t : Tree κ) (entries : List (Entry κ)) : Prop where
  settled : Settled root t entries
  min : root.min = firstPtr entries
  max : root.max = lastPtr entries
  size : root.size = entries.length
  live : ∀ p, (root.mem p).isSome → ∃ entry ∈ entries, entry.addr.1 = p

theorem cells_addrs (t : Tree κ) (parent : Ptr) :
    (t.cells parent).map Prod.fst = ↑(t.inorder.map fun entry ↦ entry.addr.1) := by
  induction t generalizing parent with
  | nil => rfl
  | node color entry left right ihl ihr =>
      rw [Tree.cells, Multiset.map_cons, Multiset.map_add, ihl, ihr, Tree.inorder, List.map_append,
        List.map_cons, Multiset.coe_add, Multiset.cons_coe, Multiset.coe_eq_coe]
      exact List.perm_middle.symm

/-- The entries of a tree in memory have different addresses. -/
theorem Holds.nodup {root : RbRoot κ} {t : Tree κ} (h : Holds root [] t) :
    (t.inorder.map fun entry ↦ entry.addr.1).Nodup := by
  have hnodup := (h.owns.mono (Multiset.le_add_left _ _)).nodup
  rwa [cells_addrs, Multiset.coe_nodup] at hnodup

/-- There are fewer nodes than words: neither `0` nor `1` is an address. -/
theorem length_lt_of_nodup {entries : List (Entry κ)}
    (h : (entries.map fun entry ↦ entry.addr.1).Nodup) :
    entries.length + 1 < 18446744073709551616 := by
  have hzero : (0 : Ptr) ∉ entries.map fun entry ↦ entry.addr.1 := by
    intro hmem
    rcases List.mem_map.mp hmem with ⟨entry, -, heq⟩
    exact entry.addr.2.1 heq
  have hone : (1 : Ptr) ∉ (0 : Ptr) :: entries.map fun entry ↦ entry.addr.1 := by
    intro hmem
    rcases List.mem_cons.mp hmem with heq | hmem
    · exact absurd heq (by decide)
    · rcases List.mem_map.mp hmem with ⟨entry, -, heq⟩
      have haligned := entry.addr.2.2
      rw [heq] at haligned
      exact absurd haligned (by decide)
  have hfin : (((1 : Ptr) :: 0 :: entries.map fun entry ↦ entry.addr.1).map BitVec.toFin).Nodup :=
    (List.nodup_cons.mpr ⟨hone, List.nodup_cons.mpr ⟨hzero, h⟩⟩).map
      fun a b heq ↦ BitVec.eq_of_toFin_eq heq
  have hcard := hfin.length_le_card
  rw [Fintype.card_fin, List.length_map, List.length_cons, List.length_cons, List.length_map] at hcard
  have hpow : (2 : ℕ) ^ 64 = 18446744073709551616 := by decide
  omega

/-- The check for an overflow of the size never fires. -/
theorem Represents.size_ok {root : RbRoot κ} {t : Tree κ} {entries : List (Entry κ)}
    (h : Represents root t entries) : u8 (root.size + 1) = root.size + 1 := by
  have hbound := length_lt_of_nodup h.settled.holds.nodup
  rw [h.settled.inorder] at hbound
  rw [h.size, u8_of_lt hbound]

/-! ## The cached ends -/

theorem firstPtr_eq_zero_iff (entries : List (Entry κ)) : firstPtr entries = 0 ↔ entries = [] := by
  cases entries with
  | nil => simp [firstPtr]
  | cons entry rest =>
      constructor
      · intro hzero
        exact absurd hzero entry.addr.2.1
      · intro hnil
        cases hnil

theorem firstPtr_append {front : List (Entry κ)} (hne : front ≠ []) (rest : List (Entry κ)) :
    firstPtr (front ++ rest) = firstPtr front := by
  cases front with
  | nil => exact absurd rfl hne
  | cons entry front => rfl

theorem lastPtr_append {rest : List (Entry κ)} (hne : rest ≠ []) (front : List (Entry κ)) :
    lastPtr (front ++ rest) = lastPtr rest := by
  rw [lastPtr, List.reverse_append, firstPtr_append (List.reverse_ne_nil_iff.mpr hne), lastPtr]

/-- The first node stays when another one is taken out. -/
theorem firstPtr_of_ne {before after : List (Entry κ)} {entry : Entry κ}
    (hne : firstPtr (before ++ entry :: after) ≠ entry.addr) :
    firstPtr (before ++ after) = firstPtr (before ++ entry :: after) := by
  cases before with
  | nil => exact absurd rfl hne
  | cons first before => rfl

theorem lastPtr_of_ne {before after : List (Entry κ)} {entry : Entry κ}
    (hne : lastPtr (before ++ entry :: after) ≠ entry.addr) :
    lastPtr (before ++ after) = lastPtr (before ++ entry :: after) := by
  have hreverse : (before ++ entry :: after).reverse =
      after.reverse ++ entry :: before.reverse := by simp
  rw [lastPtr, hreverse] at hne
  rw [lastPtr, lastPtr, hreverse, List.reverse_append, firstPtr_of_ne hne]

/-- The walk along one side ends at the first or the last node. -/
theorem extreme_eq (side : Side) {fuel : ℕ} {root : RbRoot κ} {path : List (Frame κ)} {t : Tree κ}
    (h : Holds root path t) (ht : t ≠ .nil) (hfuel : t.inorder.length ≤ fuel) :
    extreme root side fuel t.ptr = some (match side with
      | .left => firstPtr t.inorder
      | .right => lastPtr t.inorder) := by
  rcases extreme_holds side h ht hfuel with ⟨inner, color, entry, far, hplug, hall, hextreme⟩
  rw [hextreme, hplug, inorder_plug]
  cases side with
  | left =>
      rw [entriesBefore_of_left hall]
      rfl
  | right =>
      simp [entriesAfter_of_right hall, Tree.make, Tree.inorder, lastPtr, firstPtr]

theorem extreme_root {side : Side} {root : RbRoot κ} {t : Tree κ} {entries : List (Entry κ)}
    (h : Settled root t entries) (hne : root.node ≠ 0) (hsize : entries.length ≤ turns root) :
    extreme root side (turns root) root.node = some (match side with
      | .left => firstPtr entries
      | .right => lastPtr entries) := by
  have hnode : root.node = t.ptr := h.holds.root_eq
  rw [hnode] at hne ⊢
  have ht : t ≠ .nil := fun hnil ↦ hne (t.ptr_eq_zero_iff.mpr hnil)
  rw [extreme_eq side h.holds ht (by rwa [h.inorder]), h.inorder]

theorem Tree.inorder_eq_nil_iff (t : Tree κ) : t.inorder = [] ↔ t = .nil := by
  cases t with
  | nil => simp [Tree.inorder]
  | node color entry left right => simp [Tree.inorder]

theorem node_eq_zero_iff {root : RbRoot κ} {t : Tree κ} {entries : List (Entry κ)}
    (h : Settled root t entries) : root.node = 0 ↔ entries = [] := by
  have hnode : root.node = t.ptr := h.holds.root_eq
  rw [hnode, t.ptr_eq_zero_iff, ← h.inorder, t.inorder_eq_nil_iff]

/-- `rb_update_min` finds the first node. -/
theorem rbUpdateMin_eq {root : RbRoot κ} {t : Tree κ} {entries : List (Entry κ)}
    (h : Settled root t entries) (hsize : entries.length ≤ turns root) :
    rbUpdateMin root = some { root with min := firstPtr entries } := by
  rw [rbUpdateMin]
  by_cases hzero : root.node = 0
  · rw [if_pos hzero, (node_eq_zero_iff h).mp hzero]
    rfl
  · rw [if_neg hzero, extreme_root h hzero hsize]
    rfl

/-- `rb_update_max` finds the last node. -/
theorem rbUpdateMax_eq {root : RbRoot κ} {t : Tree κ} {entries : List (Entry κ)}
    (h : Settled root t entries) (hsize : entries.length ≤ turns root) :
    rbUpdateMax root = some { root with max := lastPtr entries } := by
  rw [rbUpdateMax]
  by_cases hzero : root.node = 0
  · rw [if_pos hzero, (node_eq_zero_iff h).mp hzero]
    rfl
  · rw [if_neg hzero, extreme_root h hzero hsize]
    rfl

/-! ## What unlinking leaves -/

/-- What a path expects does not depend on its entries. -/
theorem Allows.replace_entry {inner outer : List (Frame κ)} {side : Side} {color expected : Color}
    {entry : Entry κ} {other : Tree κ} {height : ℕ}
    (h : Allows (inner ++ ⟨side, color, entry, other⟩ :: outer) expected height)
    (entry' : Entry κ) : Allows (inner ++ ⟨side, color, entry', other⟩ :: outer) expected height := by
  induction inner generalizing expected height with
  | nil => cases color <;> exact h
  | cons frame inner ih =>
      rcases frame with ⟨side', color', entry'', other'⟩
      cases color' with
      | red => exact ⟨h.1, h.2.1, h.2.2.1, ih h.2.2.2⟩
      | black => exact ⟨h.1, ih h.2⟩

/-- The tree after unlinking: short of one black node when a black one was taken. -/
structure Unlinked (root : RbRoot κ) (path : List (Frame κ)) (x : Tree κ) (black : Bool)
    (entries : List (Entry κ)) : Prop where
  holds : Holds root path x
  inorder : (plug path x).inorder = entries
  short : black = true → ∃ height, x.Balanced height ∧ Allows path .black (height + 1)
  whole : black = false → ∃ height, x.Balanced height ∧ Allows path x.color height

/-- A node without a child on one side: what is left in its place when it goes. -/
theorem unlinked_balance {path : List (Frame κ)} {side : Side} {color : Color} {entry : Entry κ}
    {far : Tree κ} {height : ℕ}
    (hbalanced : (Tree.make side color entry .nil far).Balanced height)
    (hallows : Allows path color height) :
    (decide (color = .black) = true →
        ∃ height, far.Balanced height ∧ Allows path .black (height + 1)) ∧
      (decide (color = .black) = false →
        ∃ height, far.Balanced height ∧ Allows path far.color height) := by
  cases color with
  | red =>
      rcases (Tree.balanced_red ..).mp hbalanced with ⟨-, hfarColor, hnil, hfar⟩
      refine ⟨fun h ↦ (by cases h), fun _ ↦ ⟨height, hfar, ?_⟩⟩
      rw [hfarColor]
      exact hallows.black
  | black =>
      rcases (Tree.balanced_black ..).mp hbalanced with ⟨below, rfl, hnil, hfar⟩
      exact ⟨fun _ ↦ ⟨below, hfar, hallows⟩, fun h ↦ (by cases h)⟩

/-- Freeing the node that was unlinked leaves the rest. -/
theorem rbFreeNode_owns {root : RbRoot κ} {p : Ptr} {c : RbNode κ}
    {rest : Multiset (Ptr × RbNode κ)} (h : Owns root.mem ((p, c) ::ₘ rest)) :
    rbFreeNode root p = some { root with mem := Function.update root.mem p none } ∧
      Owns (Function.update root.mem p none) rest := by
  refine ⟨?_, h.free⟩
  rw [rbFreeNode, h.load]
  rfl

/-- Unlinking and freeing a node. -/
theorem unlink_holds {root : RbRoot κ} {path : List (Frame κ)} {color : Color} {entry : Entry κ}
    {left right : Tree κ} {whole : ℕ} (h : Holds root path (.node color entry left right))
    (hblack : (plug path (.node color entry left right)).color = .black)
    (hbalanced : (plug path (.node color entry left right)).Balanced whole)
    (hsize : right.inorder.length ≤ turns root) :
    ∃ root₁ path' x black n, root.mem entry.addr = some n ∧
      unlink root entry.addr n = some (root₁, parentOf path', x.ptr, black) ∧
      Relinked root root₁ ∧
      rbFreeNode root₁ entry.addr =
        some { root₁ with mem := Function.update root₁.mem entry.addr none } ∧
      Unlinked { root₁ with mem := Function.update root₁.mem entry.addr none } path' x black
        (entriesBefore path ++ left.inorder ++ (right.inorder ++ entriesAfter path)) := by
  have hload : root.mem entry.addr =
      some (nodeCell color entry (parentOf path) left.ptr right.ptr) := by
    have hnode : Holds root path (Tree.make .left color entry left right) := h
    exact hnode.load
  by_cases hboth : left ≠ .nil ∧ right ≠ .nil
  · have hcond : (nodeCell color entry (parentOf path) left.ptr right.ptr).left ≠ 0 ∧
        (nodeCell color entry (parentOf path) left.ptr right.ptr).right ≠ 0 :=
      ⟨fun hzero ↦ hboth.1 (left.ptr_eq_zero_iff.mp hzero),
        fun hzero ↦ hboth.2 (right.ptr_eq_zero_iff.mp hzero)⟩
    have hview : Holds root (⟨.right, color, entry, left⟩ :: path) right := (holds_cons _ _).mpr h
    rcases extreme_holds .left hview hboth.2 hsize with
      ⟨inner, color', next, far, hright, hall, hextreme⟩
    rcases unlinkTwo_owns h hboth.1 hright hall hextreme with
      ⟨root₁, hunlink, hkeep, hroot, howns⟩
    rcases rbFreeNode_owns howns with ⟨hfree, howns'⟩
    -- the place the successor is taken from
    have hplug : plug path (.node color entry left right) =
        plug (inner ++ ⟨.right, color, entry, left⟩ :: path)
          (Tree.make .left color' next .nil far) := by
      rw [plug_append, ← hright]
      rfl
    rw [hplug] at hblack hbalanced
    rcases allows_of_plug hblack hbalanced with ⟨height, hnext, hallows⟩
    rw [Tree.color_make] at hallows
    rcases unlinked_balance hnext (hallows.replace_entry next) with ⟨hshort, hsame⟩
    refine ⟨root₁, inner ++ ⟨.right, color, next, left⟩ :: path, far, decide (color' = .black), _,
      hload, ?_, hkeep, hfree, ?_, ?_, hshort, hsame⟩
    · rw [unlink, if_pos hcond, hunlink]
    · rw [holds_append, holds_cons]
      exact ⟨hroot, howns'⟩
    · rw [plug_append, plug, inorder_plug, Frame.fill, hright]
      simp only [inorder_plug, entriesBefore_of_left hall, Tree.make,
        Tree.inorder, List.nil_append, List.append_assoc, List.cons_append]
  · have hone : ∃ child, (child = left ∧ right = .nil ∨ child = right ∧ left = .nil) := by
      by_cases hleft : left = .nil
      · exact ⟨right, Or.inr ⟨rfl, hleft⟩⟩
      · refine ⟨left, Or.inl ⟨rfl, ?_⟩⟩
        by_contra hright
        exact hboth ⟨hleft, hright⟩
    rcases hone with ⟨child, hchild⟩
    have hcond : ¬ ((nodeCell color entry (parentOf path) left.ptr right.ptr).left ≠ 0 ∧
        (nodeCell color entry (parentOf path) left.ptr right.ptr).right ≠ 0) := by
      rintro ⟨hleft, hright⟩
      rcases hchild with ⟨-, rfl⟩ | ⟨-, rfl⟩
      · exact hright rfl
      · exact hleft rfl
    rcases unlinkOne_owns h hchild with ⟨root₁, hunlink, hkeep, hroot, howns⟩
    rcases rbFreeNode_owns howns with ⟨hfree, howns'⟩
    rcases allows_of_plug hblack hbalanced with ⟨height, hnode, hallows⟩
    have hbalance : (decide (color = .black) = true →
          ∃ height, child.Balanced height ∧ Allows path .black (height + 1)) ∧
        (decide (color = .black) = false →
          ∃ height, child.Balanced height ∧ Allows path child.color height) := by
      rcases hchild with ⟨rfl, rfl⟩ | ⟨rfl, rfl⟩
      · have hright : (Tree.make .right color entry .nil child).Balanced height := hnode
        exact unlinked_balance hright hallows
      · have hleft : (Tree.make .left color entry .nil child).Balanced height := hnode
        exact unlinked_balance hleft hallows
    refine ⟨root₁, path, child, decide (color = .black), _, hload, ?_, hkeep, hfree, ⟨hroot, howns'⟩,
      ?_, hbalance.1, hbalance.2⟩
    · rw [unlink, if_neg hcond, hunlink]
    · rw [inorder_plug]
      rcases hchild with ⟨rfl, rfl⟩ | ⟨rfl, rfl⟩
      · simp [Tree.inorder]
      · simp [Tree.inorder]

/-! ## Erasing -/

/-- Rebalancing what unlinking left, when it left anything to do. -/
theorem rbEraseRebalanceIf_settled {root : RbRoot κ} {path : List (Frame κ)} {x : Tree κ}
    {black : Bool} {entries : List (Entry κ)} (h : Unlinked root path x black entries)
    (hsize : entries.length < turns root) :
    ∃ root' t, rbEraseRebalanceIf black root (parentOf path) x.ptr = some root' ∧
      Relinked root root' ∧ Settled root' t entries := by
  cases black with
  | true =>
      rcases h.short rfl with ⟨height, hbalanced, hallows⟩
      have hpath : path.length < turns root := by
        have hlength := length_path_le path x
        rw [h.inorder] at hlength
        omega
      exact rbEraseRebalance_holds ⟨h.holds, ⟨height, hbalanced.short, hallows⟩, h.inorder⟩ hpath
  | false =>
      rcases h.whole rfl with ⟨height, hbalanced, hallows⟩
      rcases hallows.plug hbalanced with ⟨hblack, hwhole⟩
      exact ⟨root, plug path x, rfl, Relinked.refl root, (holds_plug x).mp h.holds, hblack, hwhole,
        h.inorder⟩

/-- The cached ends after an erase. -/
theorem updateEnds_represents {root : RbRoot κ} {t : Tree κ} {before after : List (Entry κ)}
    {entry : Entry κ} (h : Settled root t (before ++ after))
    (hmin : root.min = firstPtr (before ++ entry :: after))
    (hmax : root.max = lastPtr (before ++ entry :: after))
    (hsize : root.size = (before ++ after).length)
    (hlive : ∀ p, (root.mem p).isSome → ∃ other ∈ before ++ after, other.addr.1 = p) :
    ∃ root₁ root₂,
      rbUpdateMinIf (decide (firstPtr (before ++ entry :: after) = entry.addr)) root = some root₁ ∧
      rbUpdateMaxIf (decide (lastPtr (before ++ entry :: after) = entry.addr)) root₁ = some root₂ ∧
      Represents root₂ t (before ++ after) := by
  have hturns : (before ++ after).length ≤ turns root := by
    rw [turns, hsize]
    omega
  have hminIf : rbUpdateMinIf (decide (firstPtr (before ++ entry :: after) = entry.addr)) root =
      some { root with min := firstPtr (before ++ after) } := by
    by_cases heq : firstPtr (before ++ entry :: after) = entry.addr
    · rw [rbUpdateMinIf, if_pos (decide_eq_true heq), rbUpdateMin_eq h hturns]
    · have hsame : root = { root with min := firstPtr (before ++ after) } := by
        rw [firstPtr_of_ne heq, ← hmin]
      rw [rbUpdateMinIf, if_neg fun htrue ↦ heq (of_decide_eq_true htrue), ← hsame]
  have h₁ : Settled { root with min := firstPtr (before ++ after) } t (before ++ after) :=
    ⟨⟨h.holds.root_eq, h.holds.owns⟩, h.black, h.balanced, h.inorder⟩
  have hmaxIf : rbUpdateMaxIf (decide (lastPtr (before ++ entry :: after) = entry.addr))
        { root with min := firstPtr (before ++ after) } =
      some { root with min := firstPtr (before ++ after), max := lastPtr (before ++ after) } := by
    by_cases heq : lastPtr (before ++ entry :: after) = entry.addr
    · rw [rbUpdateMaxIf, if_pos (decide_eq_true heq), rbUpdateMax_eq h₁ hturns]
    · have hsame : { root with min := firstPtr (before ++ after) } =
          { root with min := firstPtr (before ++ after), max := lastPtr (before ++ after) } := by
        rw [lastPtr_of_ne heq, ← hmax]
      rw [rbUpdateMaxIf, if_neg fun htrue ↦ heq (of_decide_eq_true htrue), ← hsame]
  exact ⟨_, _, hminIf, hmaxIf, ⟨⟨h.holds.root_eq, h.holds.owns⟩, h.black, h.balanced, h.inorder⟩,
    rfl, rfl, hsize, hlive⟩

/-- Erasing the node of an entry takes the entry out. -/
theorem eraseNode_represents {root : RbRoot κ} {t : Tree κ} {entries : List (Entry κ)}
    (h : Represents root t entries) {entry : Entry κ} (hentry : entry ∈ entries) :
    ∃ root' t' before after, entries = before ++ entry :: after ∧
      eraseNode root entry.addr = some root' ∧ Represents root' t' (before ++ after) := by
  rcases h.settled.balanced with ⟨whole, hwhole⟩
  have hmem : entry ∈ t.inorder := by rwa [h.settled.inorder]
  rcases exists_path hmem with ⟨path, color, left, right, rfl⟩
  have hentries : entries = entriesBefore path ++ left.inorder ++
      entry :: (right.inorder ++ entriesAfter path) := by
    rw [← h.settled.inorder, inorder_plug]
    simp [Tree.inorder]
  have hright : right.inorder.length ≤ turns root := by
    rw [turns, h.size, hentries]
    simp
    omega
  rcases unlink_holds ((holds_plug _).mpr h.settled.holds) h.settled.black hwhole hright with
    ⟨root₁, path', x, black, n, hload, hunlink, hkeep₁, hfree, hunlinked⟩
  generalize hbefore : entriesBefore path ++ left.inorder = before at hentries hunlinked
  generalize hafter : right.inorder ++ entriesAfter path = after at hentries hunlinked
  have hcount : entries.length = (before ++ after).length + 1 := by
    rw [hentries]
    simp
    omega
  have hbound := length_lt_of_nodup h.settled.holds.nodup
  rw [h.settled.inorder] at hbound
  have hsize : u8Sub root₁.size 1 = (before ++ after).length := by
    rw [hkeep₁.size, h.size, u8Sub_of_le (by omega) (by omega), hcount, Nat.add_sub_cancel]
  have hunlinked₂ : Unlinked { root₁ with
      mem := Function.update root₁.mem entry.addr none, size := u8Sub root₁.size 1 } path' x black
      (before ++ after) :=
    ⟨⟨hunlinked.holds.root_eq, hunlinked.holds.owns⟩, hunlinked.inorder, hunlinked.short,
      hunlinked.whole⟩
  have hturns : (before ++ after).length < turns { root₁ with
      mem := Function.update root₁.mem entry.addr none, size := u8Sub root₁.size 1 } := by
    change (before ++ after).length < u8Sub root₁.size 1 + 2
    omega
  rcases rbEraseRebalanceIf_settled hunlinked₂ hturns with ⟨root₃, t', hrebalance, hkeep₃, hsettled⟩
  have hlive : ∀ p, (root₃.mem p).isSome → ∃ other ∈ before ++ after, other.addr.1 = p := by
    intro p hp
    rw [hkeep₃.live p] at hp
    change (Function.update root₁.mem entry.addr none p).isSome at hp
    by_cases heq : p = entry.addr
    · rw [heq, Function.update_self] at hp
      cases hp
    · rw [Function.update_of_ne heq, hkeep₁.live p] at hp
      rcases h.live p hp with ⟨other, hother, haddr⟩
      refine ⟨other, ?_, haddr⟩
      rw [hentries] at hother
      rcases List.mem_append.mp hother with hin | hin
      · exact List.mem_append_left _ hin
      · rcases List.mem_cons.mp hin with rfl | hin
        · exact absurd haddr.symm heq
        · exact List.mem_append_right _ hin
  have hmin : root₁.min = firstPtr (before ++ entry :: after) := by
    rw [hkeep₁.min, h.min, hentries]
  have hmax : root₁.max = lastPtr (before ++ entry :: after) := by
    rw [hkeep₁.max, h.max, hentries]
  rcases updateEnds_represents hsettled (hkeep₃.min.trans hmin) (hkeep₃.max.trans hmax)
    (hkeep₃.size.trans hsize) hlive with ⟨root₄, root₅, hminIf, hmaxIf, hrepresents⟩
  refine ⟨root₅, t', before, after, hentries, ?_, hrepresents⟩
  rw [← hmin] at hminIf
  rw [← hmax] at hmaxIf
  simp only [eraseNode, hload, Option.bind_eq_bind, Option.bind_some, hunlink, hfree, hrebalance,
    hminIf, hmaxIf]

end CPractice.RbMap
