import CPractice.RbMap.Refinement

/-!
# Iterating over a map

The entries beyond a node in one direction are those of its subtree on that side and then those
beyond its path (`beyond`).  `rb_node_next` finds the first of them: the outermost node of the
subtree, or the first node up the path that is reached from the other side.  So an iterator from
`map_begin` runs through the entries in order and then is at the end, and one from `map_rbegin`
runs through them backwards.
-/

namespace CPractice.RbMap

open Lib

variable {κ : Type}

/-! ## Directions -/

/-- A sequence in the direction of a side. -/
def towards (side : Side) (entries : List (Entry κ)) : List (Entry κ) :=
  match side with
  | .left => entries.reverse
  | .right => entries

/-- The entries beyond a hole in the direction of a side. -/
def beyond (side : Side) (path : List (Frame κ)) : List (Entry κ) :=
  match side with
  | .left => (entriesBefore path).reverse
  | .right => entriesAfter path

theorem towards_eq_nil_iff (side : Side) (entries : List (Entry κ)) :
    towards side entries = [] ↔ entries = [] := by
  cases side with
  | left => exact List.reverse_eq_nil_iff
  | right => exact Iff.rfl

theorem mem_towards (side : Side) {entries : List (Entry κ)} {entry : Entry κ} :
    entry ∈ towards side entries ↔ entry ∈ entries := by
  cases side with
  | left => exact List.mem_reverse
  | right => exact Iff.rfl

theorem Holds.nodup_towards {root : RbRoot κ} {t : Tree κ} (h : Holds root [] t) (side : Side) :
    ((towards side t.inorder).map fun entry ↦ entry.addr.1).Nodup := by
  cases side with
  | left =>
      rw [towards, List.map_reverse]
      exact List.nodup_reverse.mpr h.nodup
  | right => exact h.nodup

/-- The entries of a tree in one direction, from a node in view. -/
theorem towards_plug (side : Side) (path : List (Frame κ)) (color : Color) (entry : Entry κ)
    (near far : Tree κ) :
    towards side (plug path (Tree.make side color entry near far)).inorder =
      (beyond side.other path).reverse ++ towards side far.inorder ++
        entry :: (towards side near.inorder ++ beyond side path) := by
  rw [inorder_plug]
  cases side with
  | left => simp [towards, beyond, Side.other, Tree.make, Tree.inorder]
  | right => simp [towards, beyond, Side.other, Tree.make, Tree.inorder]

/-- Beyond a frame on the same side nothing is new; on the other side its node comes next. -/
theorem firstPtr_beyond_cons (side : Side) (frame : Frame κ) (path : List (Frame κ)) :
    firstPtr (beyond side (frame :: path)) =
      if frame.side = side then firstPtr (beyond side path) else frame.entry.addr := by
  rcases frame with ⟨side', color, entry, other⟩
  cases side <;> cases side' <;> simp [beyond, entriesBefore, entriesAfter, firstPtr]

/-! ## The next node -/

variable {root : RbRoot κ}

/-- The climb ends at the first node that is reached from the other side. -/
theorem climb_eq (side : Side) {path : List (Frame κ)} {t : Tree κ} {fuel : ℕ}
    (h : Holds root path t) (ht : t ≠ .nil) (hfuel : path.length < fuel) :
    climb root side fuel t.ptr (parentOf path) = some (firstPtr (beyond side path)) := by
  induction path generalizing t fuel with
  | nil =>
      cases fuel with
      | zero => exact absurd hfuel (Nat.not_lt_zero _)
      | succ fuel => cases side <;> rfl
  | cons frame path ih =>
      cases fuel with
      | zero => exact absurd hfuel (Nat.not_lt_zero _)
      | succ fuel =>
          have hload := h.load_parent
          have hview := (holds_cons frame t).mp h
          have hparent : rbParent (sideCell frame.side frame.color frame.entry (parentOf path) t.ptr
              frame.other.ptr) = parentOf path :=
            rbParent_sideCell _ _ _ _ _ (parentOf_aligned path)
          have hrest := ih hview (frame.fill_ne_nil t) (Nat.lt_of_succ_lt_succ hfuel)
          rw [Frame.fill_ptr] at hrest
          rw [climb, parentOf_cons, if_neg frame.entry.addr.2.1, hload, Option.bind_eq_bind,
            Option.bind_some, hparent, firstPtr_beyond_cons]
          by_cases hside : frame.side = side
          · rw [← hside, sideCell_near, if_pos rfl, if_pos rfl, hside]
            exact hrest
          · have hother : side = frame.side.other := by
              cases side <;> cases hframe : frame.side <;> simp_all [Side.other]
            have hne : t.ptr ≠ frame.other.ptr := by
              rcases t.eq_nil_or_make .left with hnil | ⟨entry, near, far, hmake⟩
              · exact absurd hnil ht
              · rw [hmake] at h ⊢
                rw [Tree.ptr_make]
                exact (h.sibling_ne frame rfl).symm
            rw [if_neg hside, hother, sideCell_far, if_neg hne]

/-- The last node in a direction. -/
def lastIn (side : Side) (root : RbRoot κ) : Ptr :=
  match side with
  | .left => root.min
  | .right => root.max

theorem Represents.lastIn_eq {t : Tree κ} {entries : List (Entry κ)} (h : Represents root t entries)
    (side : Side) : lastIn side root = lastPtr (towards side entries) := by
  cases side with
  | left =>
      rw [lastIn, h.min, lastPtr, towards, List.reverse_reverse]
  | right => exact h.max

/-- A node is the last one exactly when nothing is beyond it. -/
theorem lastPtr_eq_iff {front rest : List (Entry κ)} {entry : Entry κ}
    (hnodup : ((front ++ entry :: rest).map fun entry ↦ entry.addr.1).Nodup) :
    lastPtr (front ++ entry :: rest) = entry.addr ↔ rest = [] := by
  rw [lastPtr_append (List.cons_ne_nil _ _)]
  rcases List.eq_nil_or_concat rest with rfl | ⟨middle, last, rfl⟩
  · exact ⟨fun _ ↦ rfl, fun _ ↦ rfl⟩
  · constructor
    · intro heq
      rw [List.concat_eq_append, ← List.cons_append, lastPtr_append (List.cons_ne_nil _ _)] at heq
      rw [List.map_append, List.map_cons] at hnodup
      have hcons := (List.nodup_append.mp hnodup).2.1
      refine absurd (List.mem_map.mpr ⟨last, by simp, ?_⟩) (List.nodup_cons.mp hcons).1
      exact heq
    · intro hnil
      simp at hnil

/-- The step of an iterator from a node in view. -/
theorem nodeStep_view (side : Side) {path : List (Frame κ)} {color : Color} {entry : Entry κ}
    {near far : Tree κ} {entries : List (Entry κ)}
    (h : Represents root (plug path (Tree.make side color entry near far)) entries) :
    nodeStep side (lastIn side root) root entry.addr =
      some (some (firstPtr (towards side near.inorder ++ beyond side path))) := by
  have hinorder := h.settled.inorder
  have hview := (holds_plug _).mpr h.settled.holds
  have hload := hview.load
  have hparent : rbParent (sideCell side color entry (parentOf path) near.ptr far.ptr) =
      parentOf path := rbParent_sideCell _ _ _ _ _ (parentOf_aligned path)
  have hnode : root.node ≠ 0 := by
    rw [ne_eq, node_eq_zero_iff h.settled, ← hinorder, inorder_plug, Tree.inorder_make]
    cases side <;> simp
  have hlast : entry.addr = lastIn side root ↔ towards side near.inorder ++ beyond side path = [] := by
    have hnodup := h.settled.holds.nodup_towards side
    rw [towards_plug] at hnodup
    rw [h.lastIn_eq side, ← hinorder, towards_plug, eq_comm]
    exact lastPtr_eq_iff hnodup
  simp only [nodeStep, hload, Option.bind_eq_bind, Option.bind_some, if_neg hnode, sideCell_near,
    hparent]
  by_cases hend : towards side near.inorder ++ beyond side path = []
  · rw [if_pos (hlast.mpr hend), hend]
    rfl
  rw [if_neg fun heq ↦ hend (hlast.mp heq)]
  by_cases hnear : near = .nil
  · -- nothing below: the next node is up the path
    have hzero : ¬ near.ptr ≠ 0 := fun hne ↦ hne (near.ptr_eq_zero_iff.mpr hnear)
    have hnil : towards side near.inorder = [] := by
      rw [towards_eq_nil_iff, hnear]
      rfl
    rw [hnil, List.nil_append] at hend ⊢
    rw [if_neg hzero]
    cases path with
    | nil => exact absurd (by cases side <;> rfl) hend
    | cons frame path =>
        have hloadParent := hview.load_parent
        rw [Tree.ptr_make] at hloadParent
        rw [parentOf_cons, hloadParent, Option.bind_some]
        by_cases hside : frame.side = side.other
        · have hne : frame.side ≠ side := by
            rw [hside]
            cases side <;> simp [Side.other]
          rw [← hside, sideCell_near, if_pos rfl, firstPtr_beyond_cons, if_neg hne]
        · have hsame : frame.side = side := by
            cases side <;> cases hframe : frame.side <;> simp_all [Side.other]
          have hdistinct : frame.other.ptr ≠ entry.addr := hview.sibling_ne frame rfl
          have hfuel : (frame :: path).length < turns root := by
            have hlength := length_path_le (frame :: path) (Tree.make side color entry near far)
            rw [hinorder, ← h.size] at hlength
            rw [turns]
            omega
          have hclimb := climb_eq side hview (fun hnil ↦ by cases side <;> cases hnil) hfuel
          rw [Tree.ptr_make, parentOf_cons] at hclimb
          have hfirst : firstPtr (beyond side (frame :: path)) ≠ 0 := by
            rw [ne_eq, firstPtr_eq_zero_iff]
            exact hend
          rw [← hsame, sideCell_far, if_neg hdistinct, hsame, hclimb, Option.bind_some,
            if_neg hfirst]
  · have hfirst : near.ptr ≠ 0 := fun hzero ↦ hnear (near.ptr_eq_zero_iff.mp hzero)
    have hfuel : near.inorder.length ≤ turns root := by
      have hlength := length_path_le path (Tree.make side color entry near far)
      rw [hinorder, ← h.size, Tree.inorder_make] at hlength
      rw [turns]
      cases side <;> simp at hlength <;> omega
    rw [if_pos hfirst, extreme_eq side.other (holds_near.mp hview) hnear hfuel, Option.bind_some]
    have hne : towards side near.inorder ≠ [] := by
      rw [ne_eq, towards_eq_nil_iff]
      intro hnil
      exact hnear (near.inorder_eq_nil_iff.mp hnil)
    rw [firstPtr_append hne]
    cases side <;> rfl

/-- The step of an iterator goes to the entry that comes next. -/
theorem nodeStep_eq (side : Side) {t : Tree κ} {entries front rest : List (Entry κ)}
    {entry : Entry κ} (h : Represents root t entries)
    (hentries : towards side entries = front ++ entry :: rest) :
    nodeStep side (lastIn side root) root entry.addr = some (some (firstPtr rest)) := by
  have hmem : entry ∈ t.inorder := by
    rw [h.settled.inorder, ← mem_towards side, hentries]
    simp
  rcases exists_path hmem with ⟨path, color, left, right, rfl⟩
  rcases (Tree.node color entry left right).eq_nil_or_make side with hnil | ⟨entry', near, far, hmake⟩
  · cases hnil
  · have hentry : entry' = entry := by
      cases side <;> cases hmake <;> rfl
    rw [hentry] at hmake
    rw [hmake] at h
    have hnodup := (h.settled.holds.nodup_towards side).of_map
    rw [h.settled.inorder, hentries, List.nodup_append, List.nodup_cons] at hnodup
    have hplug := towards_plug side path color entry near far
    rw [show color = (Tree.node color entry left right).color from rfl, h.settled.inorder, hentries,
      List.append_cons_inj_of_notMem
        (fun hin ↦ hnodup.2.2 _ hin _ List.mem_cons_self rfl) hnodup.2.1.1] at hplug
    rw [nodeStep_view side h, hplug.2.2]

/-! ## Whole walks -/

/-- An iterator moved a number of times: the nodes it was at, and where it is then.  A call that does
not return `0` ends in `none`. -/
def walk (next : RbRoot κ → Ptr → Option (ℤ × Ptr)) (root : RbRoot κ) :
    ℕ → Ptr → Option (List Ptr × Ptr)
  | 0, it => some ([], it)
  | steps + 1, it => do
      let (code, it') ← next root it
      if code = 0 then do
        let (nodes, last) ← walk next root steps it'
        some (it :: nodes, last)
      else none

/-- An iterator that goes from each entry of a sequence to the next visits all of them and is at the
end then. -/
theorem walk_eq {next : RbRoot κ → Ptr → Option (ℤ × Ptr)} {sequence : List (Entry κ)}
    (hnext : ∀ front entry rest, sequence = front ++ entry :: rest →
      next root entry.addr = some (0, firstPtr rest))
    {front rest : List (Entry κ)} (hsequence : sequence = front ++ rest) :
    walk next root rest.length (firstPtr rest) =
      some (rest.map fun entry ↦ entry.addr.1, 0) := by
  induction rest generalizing front with
  | nil => rfl
  | cons entry rest ih =>
      have hrest : walk next root rest.length (firstPtr rest) =
          some (rest.map fun entry ↦ entry.addr.1, 0) :=
        ih (hsequence.trans (List.append_cons front entry rest))
      have hstep : next root (firstPtr (entry :: rest)) = some (0, firstPtr rest) :=
        hnext front entry rest hsequence
      simp only [walk, List.length_cons, hstep, Option.bind_eq_bind, Option.bind_some, if_true, hrest]
      rfl

/-- `map_next` for the right side, `map_rnext` for the left side. -/
def moveIn (side : Side) : RbRoot κ → Ptr → Option (ℤ × Ptr) :=
  iterate fun root ↦ nodeStep side (lastIn side root) root

theorem moveIn_eq (side : Side) {t : Tree κ} {entries : List (Entry κ)}
    (h : Represents root t entries) {front rest : List (Entry κ)} {entry : Entry κ}
    (hentries : towards side entries = front ++ entry :: rest) :
    moveIn side root entry.addr = some (0, firstPtr rest) := by
  have hcond : ¬ (root.node = 0 ∨ entry.addr.1 = 0) := by
    rintro (hzero | hzero)
    · rw [node_eq_zero_iff h.settled] at hzero
      rw [hzero, (towards_eq_nil_iff side []).mpr rfl] at hentries
      simp at hentries
    · exact entry.addr.2.1 hzero
  rw [moveIn, iterate, if_neg hcond]
  simp only [nodeStep_eq side h hentries, Option.bind_eq_bind, Option.bind_some]

variable [LinearOrder κ] {cmp : κ → κ → ℤ}

/-- For every run that leaves a map with nodes in it: the nodes are in ascending order of their keys,
an iterator from `map_begin` visits each once in that order and is at the end after as many steps as
the map has nodes, and one from `map_rbegin` visits them in the reverse order. -/
theorem map_iteration (hcmp : TotalOrderCmp cmp) {log : List (Call κ × Ret κ)}
    (htrace : (machine cmp).Trace root log) (hsize : root.size ≠ 0) :
    ∃ nodes : List Ptr, nodes.length = root.size ∧ nodes.Nodup ∧
      (∀ p, p ∈ nodes ↔ (root.mem p).isSome) ∧ 0 ∉ nodes ∧
      nodes.Pairwise (fun a b ↦
        ∃ x y, root.mem a = some x ∧ root.mem b = some y ∧ x.key < y.key) ∧
      (mapBegin root).1 = 0 ∧ walk mapNext root root.size (mapBegin root).2 = some (nodes, 0) ∧
      (mapRbegin root).1 = 0 ∧
      walk mapRnext root root.size (mapRbegin root).2 = some (nodes.reverse, 0) := by
  have hrelated := htrace.related (fun _ ↦ none) (fun _ hinit ↦ hinit ▸ refines_init)
    (call_simulates hcmp)
  rcases hrelated with ⟨t, entries, h⟩
  have hinorder := h.represents.settled.inorder
  have hnode : root.node ≠ 0 := by
    rw [ne_eq, node_eq_zero_iff h.represents.settled]
    rintro rfl
    exact hsize h.represents.size
  refine ⟨entries.map fun entry ↦ entry.addr.1, ?_, ?_, ?_, ?_, ?_, ?_, ?_, ?_, ?_⟩
  · rw [List.length_map, h.represents.size]
  · rw [← hinorder]
    exact h.represents.settled.holds.nodup
  · intro p
    constructor
    · intro hp
      rcases List.mem_map.mp hp with ⟨entry, hentry, rfl⟩
      rw [← hinorder] at hentry
      rcases h.represents.settled.holds.load_entry hentry with ⟨n, hload, -⟩
      exact Option.isSome_of_eq_some hload
    · intro hp
      rcases h.represents.live p hp with ⟨entry, hentry, rfl⟩
      exact List.mem_map.mpr ⟨entry, hentry, rfl⟩
  · intro hzero
    rcases List.mem_map.mp hzero with ⟨entry, -, heq⟩
    exact entry.addr.2.1 heq
  · apply List.pairwise_map.mpr
    apply h.sorted.imp_of_mem
    intro a b ha hb hlt
    rw [← hinorder] at ha hb
    rcases h.represents.settled.holds.load_entry ha with ⟨x, hx, hxkey, -⟩
    rcases h.represents.settled.holds.load_entry hb with ⟨y, hy, hykey, -⟩
    exact ⟨x, y, hx, hy, by rwa [hxkey, hykey]⟩
  · rw [mapBegin, if_neg hnode]
  · rw [mapBegin, if_neg hnode, h.represents.min, h.represents.size]
    exact walk_eq (fun _ _ _ ↦ moveIn_eq .right h.represents) (List.nil_append entries).symm
  · rw [mapRbegin, if_neg hnode]
  · rw [mapRbegin, if_neg hnode, h.represents.max, h.represents.size, ← List.map_reverse,
      ← List.length_reverse]
    exact walk_eq (fun _ _ _ ↦ moveIn_eq .left h.represents) (List.nil_append entries.reverse).symm

theorem map_iteration_small :
    ∃ root log, (machine numCmp).Trace root log ∧ root.size = 3 ∧
      ∃ nodes : List Ptr, nodes.length = 3 ∧
        walk mapNext root 3 (mapBegin root).2 = some (nodes, 0) := by
  have hsize : (((machine numCmp).execAll rbInit smallCalls).get smallCalls_run).2.size = 3 := by
    with_unfolding_all decide
  rcases map_iteration numCmp_total smallCalls_trace (by rw [hsize]; decide) with
    ⟨nodes, hlength, -, -, -, -, -, hwalk, -, -⟩
  rw [hsize] at hlength hwalk
  exact ⟨_, _, smallCalls_trace, hsize, nodes, hlength, hwalk⟩

end CPractice.RbMap
