import CPractice.RbMap.Removal

/-!
# Searching, and inserting a node

A search of a sorted tree ends at the node of its key, or at the empty subtree where the key belongs.
A new node is attached there in red, and the tree is rebalanced.
-/

namespace CPractice.RbMap

open Lib

variable {κ : Type} [LinearOrder κ] {cmp : κ → κ → ℤ}

/-- The keys ascend. -/
def Sorted (entries : List (Entry κ)) : Prop := entries.Pairwise fun a b ↦ a.key < b.key

/-- The key belongs between the entries in front of the hole and those behind it. -/
structure Between (path : List (Frame κ)) (key : κ) : Prop where
  before : ∀ entry ∈ entriesBefore path, entry.key < key
  after : ∀ entry ∈ entriesAfter path, key < entry.key

/-- Where a search ends: at the node of the key, or at the hole where it belongs. -/
inductive Ends (whole : Tree κ) (key : κ) : Ptr × Ptr → Prop where
  | found {path : List (Frame κ)} {color : Color} {entry : Entry κ} {left right : Tree κ}
      {parent : Ptr} :
      plug path (.node color entry left right) = whole → entry.key = key →
      Ends whole key (entry.addr, parent)
  | missing {path : List (Frame κ)} :
      plug path .nil = whole → Between path key → Ends whole key (0, parentOf path)

/-- The order around a node in view. -/
theorem Sorted.around {path : List (Frame κ)} {color : Color} {entry : Entry κ}
    {left right : Tree κ} (h : Sorted (plug path (.node color entry left right)).inorder) :
    (∀ other ∈ left.inorder, other.key < entry.key) ∧
      ∀ other ∈ right.inorder, entry.key < other.key := by
  rw [inorder_plug, Sorted, List.pairwise_append, List.pairwise_append, Tree.inorder,
    List.pairwise_append, List.pairwise_cons] at h
  exact ⟨fun other hother ↦ h.1.2.1.2.2 other hother entry List.mem_cons_self,
    h.1.2.1.2.1.1⟩

theorem searchLoop_ends (hcmp : TotalOrderCmp cmp) {root : RbRoot κ} {key : κ} {fuel : ℕ}
    {path : List (Frame κ)} {t : Tree κ} (h : Holds root path t)
    (hsorted : Sorted (plug path t).inorder) (hbetween : Between path key)
    (hfuel : t.inorder.length < fuel) :
    ∃ result, searchLoop cmp root key fuel t.ptr (parentOf path) = some result ∧
      Ends (plug path t) key result := by
  induction fuel generalizing path t with
  | zero => exact absurd hfuel (Nat.not_lt_zero _)
  | succ fuel ih =>
      cases t with
      | nil => exact ⟨_, rfl, .missing rfl hbetween⟩
      | node color entry left right =>
          have hnode : Holds root path (Tree.make .left color entry left right) := h
          have hload : root.mem entry.addr =
              some (nodeCell color entry (parentOf path) left.ptr right.ptr) := hnode.load
          have hkey : (nodeCell color entry (parentOf path) left.ptr right.ptr).key = entry.key := rfl
          have haround := hsorted.around
          have hptr : (Tree.node color entry left right).ptr = entry.addr := rfl
          have hne : entry.addr.1 ≠ 0 := entry.addr.2.1
          rw [Tree.inorder, List.length_append, List.length_cons] at hfuel
          rcases lt_trichotomy key entry.key with hlt | heq | hgt
          · -- to the left
            have hzero : cmp key entry.key ≠ 0 := by
              rw [ne_eq, hcmp.zero_iff]
              exact hlt.ne
            have hneg : cmp key entry.key < 0 := (hcmp.neg_iff key entry.key).mpr hlt
            have hview : Holds root (⟨.left, color, entry, right⟩ :: path) left :=
              (holds_cons _ _).mpr h
            have hbetween' : Between (⟨.left, color, entry, right⟩ :: path) key := by
              refine ⟨hbetween.before, ?_⟩
              intro other hother
              rcases List.mem_cons.mp hother with rfl | hrest
              · exact hlt
              · rcases List.mem_append.mp hrest with hright | hafter
                · exact hlt.trans (haround.2 other hright)
                · exact hbetween.after other hafter
            rcases ih hview hsorted hbetween' (by omega) with ⟨result, hloop, hends⟩
            refine ⟨result, ?_, hends⟩
            rw [searchLoop, hptr, if_neg hne, hload, Option.bind_eq_bind, Option.bind_some, hkey,
              if_neg hzero, if_pos hneg]
            exact hloop
          · -- found
            have hzero : cmp key entry.key = 0 := (hcmp.zero_iff key entry.key).mpr heq
            refine ⟨(entry.addr, parentOf path), ?_, .found rfl heq.symm⟩
            rw [searchLoop, hptr, if_neg hne, hload, Option.bind_eq_bind, Option.bind_some, hkey,
              if_pos hzero]
          · -- to the right
            have hzero : cmp key entry.key ≠ 0 := by
              rw [ne_eq, hcmp.zero_iff]
              exact hgt.ne'
            have hneg : ¬ cmp key entry.key < 0 := by
              rw [hcmp.neg_iff]
              exact hgt.le.not_gt
            have hview : Holds root (⟨.right, color, entry, left⟩ :: path) right :=
              (holds_cons _ _).mpr h
            have hbetween' : Between (⟨.right, color, entry, left⟩ :: path) key := by
              refine ⟨?_, hbetween.after⟩
              intro other hother
              rcases List.mem_append.mp hother with hrest | hlast
              · rcases List.mem_append.mp hrest with hbefore | hleft
                · exact hbetween.before other hbefore
                · exact (haround.1 other hleft).trans hgt
              · rw [List.mem_singleton.mp hlast]
                exact hgt
            rcases ih hview hsorted hbetween' (by omega) with ⟨result, hloop, hends⟩
            refine ⟨result, ?_, hends⟩
            rw [searchLoop, hptr, if_neg hne, hload, Option.bind_eq_bind, Option.bind_some, hkey,
              if_neg hzero, if_neg hneg]
            exact hloop

/-- The search of a map. -/
theorem rbSearch_ends (hcmp : TotalOrderCmp cmp) {root : RbRoot κ} {t : Tree κ}
    {entries : List (Entry κ)} (h : Represents root t entries) (hsorted : Sorted entries) (key : κ) :
    ∃ result, rbSearch cmp root key = some result ∧ Ends t key result := by
  have hbetween : Between ([] : List (Frame κ)) key :=
    ⟨fun entry hentry ↦ (by cases hentry), fun entry hentry ↦ (by cases hentry)⟩
  have hnode : root.node = t.ptr := h.settled.holds.root_eq
  have hfuel : t.inorder.length < turns root := by
    rw [h.settled.inorder, turns, h.size]
    omega
  have hinorder : Sorted (plug [] t).inorder := by
    rw [plug, h.settled.inorder]
    exact hsorted
  rw [rbSearch, hnode]
  exact searchLoop_ends hcmp h.settled.holds hinorder hbetween hfuel

end CPractice.RbMap
