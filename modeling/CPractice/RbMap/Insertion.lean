import CPractice.RbMap.Search

/-!
# Inserting and updating

A key that is missing gets a red node at the hole where the search ended; the entry lands between
those in front of the hole and those behind it.  An update writes the value of the node it finds.
-/

namespace CPractice.RbMap

open Lib

variable {κ : Type}

/-- The memory of an entry of the tree. -/
theorem Holds.load_entry {root : RbRoot κ} {t : Tree κ} (h : Holds root [] t) {entry : Entry κ}
    (hentry : entry ∈ t.inorder) :
    ∃ n, root.mem entry.addr = some n ∧ n.key = entry.key ∧ n.value = entry.value := by
  rcases exists_path hentry with ⟨path, color, left, right, rfl⟩
  have hnode : Holds root path (Tree.make .left color entry left right) := (holds_plug _).mpr h
  exact ⟨_, hnode.load, rfl, rfl⟩

/-! ## `map_update` -/

/-- The memory of an entry gets another value. -/
theorem store_value_represents {root : RbRoot κ} {path : List (Frame κ)} {color : Color}
    {entry : Entry κ} {left right : Tree κ} {entries : List (Entry κ)}
    (h : Represents root (plug path (.node color entry left right)) entries) (value : ValueT) :
    ∃ root' before after, entries = before ++ entry :: after ∧
      store root entry.addr (fun n ↦ { n with value := value }) = some root' ∧
      Represents root' (plug path (.node color { entry with value := value } left right))
        (before ++ { entry with value := value } :: after) := by
  have hview := (holds_plug _).mpr h.settled.holds
  have howns := hview.owns
  rw [Tree.cells, Multiset.add_cons] at howns
  rcases store_owns howns fun n ↦ { n with value := value } with ⟨root', hstore, hkeep, howns'⟩
  have hview' : Holds root' path (.node color { entry with value := value } left right) := by
    refine ⟨hkeep.node.trans hview.root_eq, ?_⟩
    rw [Tree.cells, Multiset.add_cons]
    exact howns'
  have hbefore (value : ValueT) :
      (plug path (.node color { entry with value := value } left right)).inorder =
        (entriesBefore path ++ left.inorder) ++
          { entry with value := value } :: (right.inorder ++ entriesAfter path) := by
    rw [inorder_plug]
    simp [Tree.inorder]
  have hentries : entries = (entriesBefore path ++ left.inorder) ++
      entry :: (right.inorder ++ entriesAfter path) :=
    h.settled.inorder.symm.trans (hbefore entry.value)
  generalize entriesBefore path ++ left.inorder = before at hbefore hentries
  generalize right.inorder ++ entriesAfter path = after at hbefore hentries
  rcases h.settled.balanced with ⟨whole, hwhole⟩
  rcases allows_of_plug h.settled.black hwhole with ⟨height, hnode, hallows⟩
  have hnode' : (Tree.node color { entry with value := value } left right).Balanced height := by
    cases color <;> exact hnode
  rcases Allows.plug (t := .node color { entry with value := value } left right) hallows hnode' with
    ⟨hblack, hbalanced⟩
  refine ⟨root', before, after, hentries, hstore,
    ⟨(holds_plug _).mp hview', hblack, hbalanced, hbefore value⟩, ?_, ?_, ?_, ?_⟩
  · rw [hkeep.min, h.min, hentries]
    cases before <;> rfl
  · rw [hkeep.max, h.max, hentries, lastPtr_append (List.cons_ne_nil _ _),
      lastPtr_append (List.cons_ne_nil _ _)]
    rcases List.eq_nil_or_concat after with rfl | ⟨middle, last, rfl⟩
    · rfl
    · rw [List.concat_eq_append, ← List.cons_append, ← List.cons_append,
        lastPtr_append (List.cons_ne_nil _ _), lastPtr_append (List.cons_ne_nil _ _)]
  · rw [hkeep.size, h.size, hentries]
    simp
  · intro p hp
    rw [hkeep.live p] at hp
    rcases h.live p hp with ⟨other, hother, haddr⟩
    rw [hentries] at hother
    rcases List.mem_append.mp hother with hin | hin
    · exact ⟨other, List.mem_append_left _ hin, haddr⟩
    · rcases List.mem_cons.mp hin with rfl | hin
      · exact ⟨_, List.mem_append_right _ List.mem_cons_self, haddr⟩
      · exact ⟨other, List.mem_append_right _ (List.mem_cons_of_mem _ hin), haddr⟩

variable {cmp : κ → κ → ℤ}

/-- The value of a node that was found is overwritten, in its own buffer or in a larger one. -/
theorem mapUpdate_found {root : RbRoot κ} {path : List (Frame κ)} {color : Color}
    {entry : Entry κ} {left right : Tree κ} {entries : List (Entry κ)} {parent : Ptr}
    (h : Represents root (plug path (.node color entry left right)) entries)
    (hbuffer : entry.value.size ≤ entry.value.data.length)
    (hsearch : rbSearch cmp root entry.key = some (entry.addr.1, parent)) {value : Bytes}
    {grown : Bool} (hroom : ¬ (entry.value.size < value.length ∧ grown = false)) :
    ∃ root' before after data, entries = before ++ entry :: after ∧
      mapUpdate cmp root entry.key value grown = some (0, root') ∧
      value.length ≤ data.length ∧ (⟨value.length, data⟩ : ValueT).content = value ∧
      Represents root'
        (plug path (.node color { entry with value := ⟨value.length, data⟩ } left right))
        (before ++ { entry with value := ⟨value.length, data⟩ } :: after) := by
  have hload := (show Holds root path (Tree.make .left color entry left right) from
    (holds_plug _).mpr h.settled.holds).load
  have hcopy : ∃ data, copyInto (if entry.value.size < value.length
        then List.replicate value.length 0 else entry.value.data) value = some data ∧
      value.length ≤ data.length ∧ (⟨value.length, data⟩ : ValueT).content = value := by
    have hfits : value.length ≤ (if entry.value.size < value.length
        then List.replicate value.length 0 else entry.value.data).length := by
      split
      · rw [List.length_replicate]
      · omega
    refine ⟨_, if_pos hfits, ?_, ?_⟩
    · rw [List.length_append]
      omega
    · rw [ValueT.content, List.take_left]
  rcases hcopy with ⟨data, hcopy, hlength, hcontent⟩
  rcases store_value_represents h ⟨value.length, data⟩ with
    ⟨root', before, after, hentries, hstore, hrepresents⟩
  refine ⟨root', before, after, data, hentries, ?_, hlength, hcontent, hrepresents⟩
  simp only [mapUpdate, hsearch, Option.bind_eq_bind, Option.bind_some, if_neg entry.addr.2.1, hload,
    sideCell_value, if_neg hroom, hcopy, hstore]

/-- Without room for a longer value nothing is written. -/
theorem mapUpdate_refused {root : RbRoot κ} {t : Tree κ} {entries : List (Entry κ)}
    {entry : Entry κ} {parent : Ptr} (h : Represents root t entries) (hentry : entry ∈ entries)
    (hsearch : rbSearch cmp root entry.key = some (entry.addr.1, parent)) {value : Bytes}
    {grown : Bool} (hroom : entry.value.size < value.length ∧ grown = false) :
    mapUpdate cmp root entry.key value grown = some (-1, root) := by
  rcases h.settled.holds.load_entry (by rwa [h.settled.inorder]) with ⟨n, hload, -, hvalue⟩
  simp only [mapUpdate, hsearch, Option.bind_eq_bind, Option.bind_some, if_neg entry.addr.2.1, hload,
    hvalue, if_pos hroom]

/-! ## The place of a new node -/

variable [LinearOrder κ]

/-- An entry whose key belongs at the hole keeps the order. -/
theorem Between.sorted {path : List (Frame κ)} {entry : Entry κ} (h : Between path entry.key)
    (hsorted : Sorted (plug path .nil).inorder) :
    Sorted (entriesBefore path ++ entry :: entriesAfter path) := by
  rw [inorder_plug, Tree.inorder, List.append_nil, Sorted, List.pairwise_append] at hsorted
  rw [Sorted, List.pairwise_append, List.pairwise_cons]
  refine ⟨hsorted.1, ⟨h.after, hsorted.2.1⟩, ?_⟩
  intro a ha b hb
  rcases List.mem_cons.mp hb with rfl | hrest
  · exact h.before a ha
  · exact hsorted.2.2 a ha b hrest

/-- The new node hangs at the hole, without children and red. -/
theorem attachNode_holds (hcmp : TotalOrderCmp cmp) {root : RbRoot κ} {path : List (Frame κ)}
    {entry : Entry κ} {value : Bytes} (h : Holds root path .nil)
    (hbetween : Between path entry.key) (hfresh : root.mem entry.addr = none)
    (hvalue : entry.value = ⟨value.length, value⟩) :
    ∃ root', attachNode cmp (rbCreateNode root entry.addr entry.key value) (parentOf path)
        entry.addr entry.key = some root' ∧
      (root'.min = root.min ∧ root'.max = root.max ∧ root'.size = root.size) ∧
      (∀ p, p ≠ entry.addr.1 → (root'.mem p).isSome = (root.mem p).isSome) ∧
      Holds root' path (.node .red entry .nil .nil) := by
  have hcell : (⟨0, 0, 0, entry.key, ⟨value.length, value⟩⟩ : RbNode κ) =
      sideCell .left .red entry 0 0 0 := by
    have hpack : pack 0 .red = 0 := by decide
    rw [sideCell, nodeCell, hpack, hvalue]
  have hzero : (0 : Ptr) &&& 3 = 0 := by decide
  have h₀ : Owns (rbCreateNode root entry.addr entry.key value).mem
      ((entry.addr.1, sideCell .left .red entry 0 0 0) ::ₘ pathCells path 0) := by
    have howns := h.owns
    rw [Tree.cells_nil, Tree.ptr_nil, add_zero] at howns
    rw [rbCreateNode, hcell]
    exact howns.alloc hfresh _
  have hlive : ∀ p, p ≠ entry.addr.1 →
      ((rbCreateNode root entry.addr entry.key value).mem p).isSome = (root.mem p).isSome := by
    intro p hne
    change (Function.update root.mem entry.addr.1 _ p).isSome = _
    rw [Function.update_of_ne hne]
  cases path with
  | nil =>
      refine ⟨{ rbCreateNode root entry.addr entry.key value with node := entry.addr }, rfl,
        ⟨rfl, rfl, rfl⟩, hlive, rfl, ?_⟩
      rw [pathCells, zero_add]
      rwa [pathCells] at h₀
  | cons frame path =>
      have hroot : root.node = rootOf (frame :: path) 0 := h.root_eq
      have h₁ : Owns (rbCreateNode root entry.addr entry.key value).mem
          ((frame.entry.addr.1, sideCell frame.side frame.color frame.entry (parentOf path) 0
              frame.other.ptr) ::ₘ
            ((entry.addr.1, sideCell .left .red entry 0 0 0) ::ₘ
              (frame.other.cells frame.entry.addr + pathCells path frame.entry.addr))) := by
        rw [pathCells] at h₀
        rwa [Multiset.cons_swap]
      have hload := h₁.load
      rcases setChild_near entry.addr.1 h₁ with ⟨root₁, hset, hkeep₁, h₂⟩
      rw [Multiset.cons_swap] at h₂
      rcases rbSetParent_cell frame.entry.addr.1 hzero h₂ with ⟨root₂, hparent, hkeep₂, h₃⟩
      refine ⟨root₂, ?_, ⟨?_, ?_, ?_⟩, ?_, ?_, ?_⟩
      · -- the side is that of the hole, by the order around it
        have hbranch : (if cmp entry.key frame.entry.key < 0
            then setChild (rbCreateNode root entry.addr entry.key value) frame.entry.addr .left
              entry.addr
            else setChild (rbCreateNode root entry.addr entry.key value) frame.entry.addr .right
              entry.addr) = some root₁ := by
          rcases frame with ⟨side, color, above, other⟩
          cases side with
          | left =>
              have hlt : entry.key < above.key := hbetween.after above List.mem_cons_self
              rw [if_pos ((hcmp.neg_iff _ _).mpr hlt)]
              exact hset
          | right =>
              have hgt : above.key < entry.key :=
                hbetween.before above (List.mem_append_right _ List.mem_cons_self)
              rw [if_neg fun hneg ↦ hgt.le.not_gt ((hcmp.neg_iff _ _).mp hneg)]
              exact hset
        rw [attachNode, parentOf_cons, if_pos frame.entry.addr.2.1, hload, Option.bind_eq_bind,
          Option.bind_some, sideCell_key]
        split at hbranch
        · rename_i hneg
          rw [if_pos hneg, hbranch]
          exact hparent
        · rename_i hneg
          rw [if_neg hneg, hbranch]
          exact hparent
      · rw [hkeep₂.min, hkeep₁.min]
        rfl
      · rw [hkeep₂.max, hkeep₁.max]
        rfl
      · rw [hkeep₂.size, hkeep₁.size]
        rfl
      · intro p hne
        rw [hkeep₂.live, hkeep₁.live, hlive p hne]
      · rw [hkeep₂.node, hkeep₁.node]
        exact hroot
      · convert h₃ using 1
        rw [pathCells, Tree.cells, Tree.cells_nil, add_zero, parentOf_cons]
        simp only [← Multiset.singleton_add, add_zero, sideCell, Tree.ptr]
        ac_rfl

/-! ## The cached ends -/

/-- The minimum is the new node when it comes first. -/
theorem insertMin_eq (hcmp : TotalOrderCmp cmp) {root : RbRoot κ} {t : Tree κ}
    {before after : List (Entry κ)} {entry : Entry κ} (h : Holds root [] t)
    (hinorder : t.inorder = before ++ entry :: after) (hsorted : Sorted (before ++ entry :: after))
    (hmin : root.min = firstPtr (before ++ after)) :
    insertMin cmp root entry.addr entry.key =
      some { root with min := firstPtr (before ++ entry :: after) } := by
  cases before with
  | nil =>
      cases after with
      | nil =>
          have hzero : root.min = 0 := hmin
          rw [insertMin, if_pos hzero]
          rfl
      | cons first after =>
          have hfirst : first ∈ t.inorder := by
            rw [hinorder]
            simp
          rcases h.load_entry hfirst with ⟨n, hload, hkey, -⟩
          have hlt : entry.key < first.key :=
            List.rel_of_pairwise_cons hsorted List.mem_cons_self
          have hptr : root.min = first.addr := hmin
          rw [insertMin, hptr, if_neg first.addr.2.1, hload, Option.bind_eq_bind, Option.bind_some,
            hkey, if_pos ((hcmp.neg_iff _ _).mpr hlt)]
          rfl
  | cons first before =>
      have hfirst : first ∈ t.inorder := by
        rw [hinorder]
        simp
      rcases h.load_entry hfirst with ⟨n, hload, hkey, -⟩
      have hlt : first.key < entry.key :=
        List.rel_of_pairwise_cons hsorted (List.mem_append_right _ List.mem_cons_self)
      have hptr : root.min = first.addr := hmin
      have hsame : root = { root with min := firstPtr (first :: before ++ entry :: after) } := by
        change root = { root with min := first.addr.1 }
        rw [← hptr]
      rw [insertMin, hptr, if_neg first.addr.2.1, hload, Option.bind_eq_bind, Option.bind_some,
        hkey, if_neg fun hneg ↦ hlt.le.not_gt ((hcmp.neg_iff _ _).mp hneg), ← hsame]

/-- The maximum is the new node when it comes last. -/
theorem insertMax_eq (hcmp : TotalOrderCmp cmp) {root : RbRoot κ} {t : Tree κ}
    {before after : List (Entry κ)} {entry : Entry κ} (h : Holds root [] t)
    (hinorder : t.inorder = before ++ entry :: after) (hsorted : Sorted (before ++ entry :: after))
    (hmax : root.max = lastPtr (before ++ after)) :
    insertMax cmp root entry.addr entry.key =
      some { root with max := lastPtr (before ++ entry :: after) } := by
  rw [Sorted, List.pairwise_append, List.pairwise_cons] at hsorted
  have hconcat (front : List (Entry κ)) (last : Entry κ) : lastPtr (front ++ [last]) = last.addr := by
    rw [lastPtr_append (List.cons_ne_nil last [])]
    rfl
  rcases List.eq_nil_or_concat after with rfl | ⟨middle, last, rfl⟩
  · rw [hconcat]
    rcases List.eq_nil_or_concat before with rfl | ⟨front, last, rfl⟩
    · have hzero : root.max = 0 := hmax
      rw [insertMax, if_pos hzero]
    · rw [List.concat_eq_append] at hinorder hsorted hmax
      have hlast : last ∈ t.inorder := by
        rw [hinorder]
        simp
      rcases h.load_entry hlast with ⟨n, hload, hkey, -⟩
      have hlt : last.key < entry.key := hsorted.2.2 last (by simp) entry List.mem_cons_self
      rw [List.append_nil, hconcat] at hmax
      rw [insertMax, hmax, if_neg last.addr.2.1, hload, Option.bind_eq_bind, Option.bind_some,
        hkey, if_pos ((hcmp.pos_iff _ _).mpr hlt)]
  · rw [List.concat_eq_append] at hinorder hsorted hmax ⊢
    have hlast : last ∈ t.inorder := by
      rw [hinorder]
      simp
    rcases h.load_entry hlast with ⟨n, hload, hkey, -⟩
    have hlt : entry.key < last.key := hsorted.2.1.1 last (by simp)
    rw [← List.append_assoc, hconcat] at hmax
    have hsame : root =
        { root with max := lastPtr (before ++ entry :: (middle ++ [last])) } := by
      rw [← List.cons_append, ← List.append_assoc, hconcat, ← hmax]
    rw [insertMax, hmax, if_neg last.addr.2.1, hload, Option.bind_eq_bind, Option.bind_some,
      hkey, if_neg fun hpos ↦ hlt.le.not_gt ((hcmp.pos_iff _ _).mp hpos), ← hsame]

/-! ## `map_insert` -/

/-- The node of a missing key is created and linked. -/
theorem mapInsert_missing (hcmp : TotalOrderCmp cmp) {root : RbRoot κ} {path : List (Frame κ)}
    {entries : List (Entry κ)} {entry : Entry κ} {value : Bytes} {alloc : Alloc}
    (h : Represents root (plug path .nil) entries) (hsorted : Sorted entries)
    (hbetween : Between path entry.key) (hfresh : root.mem entry.addr = none)
    (hvalue : entry.value = ⟨value.length, value⟩) (haddr : alloc.node = entry.addr)
    (halloc : alloc.granted) (hsearch : rbSearch cmp root entry.key = some (0, parentOf path)) :
    ∃ root' t', mapInsert cmp root entry.key value alloc = some (0, root') ∧
      Represents root' t' (entriesBefore path ++ entry :: entriesAfter path) := by
  have hentries : entries = entriesBefore path ++ entriesAfter path := by
    rw [← h.settled.inorder, inorder_plug, Tree.inorder, List.append_nil]
  have hsorted' : Sorted (entriesBefore path ++ entry :: entriesAfter path) := by
    rw [← h.settled.inorder] at hsorted
    exact hbetween.sorted hsorted
  rcases attachNode_holds hcmp ((holds_plug _).mpr h.settled.holds) hbetween hfresh hvalue with
    ⟨root₁, hattach, ⟨hmin₁, hmax₁, hsize₁⟩, hlive₁, hview₁⟩
  rcases h.settled.balanced with ⟨whole, hwhole⟩
  rcases allows_of_plug h.settled.black hwhole with ⟨height, hnil, hallows⟩
  have hfocus : RedFocus { root₁ with size := u8 (root₁.size + 1) } path
      (.node .red entry .nil .nil) (entriesBefore path ++ entry :: entriesAfter path) := by
    refine ⟨⟨hview₁.root_eq, hview₁.owns⟩, rfl, ⟨height, ⟨rfl, rfl, hnil, hnil⟩, hallows⟩, ?_⟩
    rw [inorder_plug]
    simp [Tree.inorder]
  have hfuel : path.length < turns { root₁ with size := u8 (root₁.size + 1) } := by
    have hlength := length_path_le path (.nil : Tree κ)
    rw [h.settled.inorder, ← h.size] at hlength
    change path.length < u8 (root₁.size + 1) + 2
    rw [hsize₁, h.size_ok]
    omega
  rcases rbInsertRebalance_holds hfocus hfuel with
    ⟨root₂, t, hrebalance, hkeep₂, hview₂, hblack, hinorder, hbalanced⟩
  have hminIf := insertMin_eq hcmp hview₂ hinorder hsorted' (by
    rw [hkeep₂.min, ← hentries, ← h.min, ← hmin₁])
  have hmaxIf := insertMax_eq hcmp
    (⟨hview₂.root_eq, hview₂.owns⟩ : Holds { root₂ with
      min := firstPtr (entriesBefore path ++ entry :: entriesAfter path) } [] t) hinorder hsorted' (by
    change root₂.max = _
    rw [hkeep₂.max, ← hentries, ← h.max, ← hmax₁])
  refine ⟨{ root₂ with
    min := firstPtr (entriesBefore path ++ entry :: entriesAfter path)
    max := lastPtr (entriesBefore path ++ entry :: entriesAfter path) }, t, ?_,
    ⟨⟨hview₂.root_eq, hview₂.owns⟩, hblack, hbalanced, hinorder⟩, rfl, rfl, ?_, ?_⟩
  · have hsize : ¬ u8 (root.size + 1) < root.size := by
      rw [h.size_ok]
      omega
    have hptr : (Tree.node .red entry .nil .nil).ptr = entry.addr := rfl
    rw [hptr] at hrebalance
    rw [mapInsert, if_neg hsize, hsearch, haddr]
    simp only [Option.bind_eq_bind, Option.bind_some, ne_eq, not_true_eq_false, if_false,
      if_pos halloc, hattach, hrebalance, hminIf, hmaxIf]
  · change root₂.size = _
    rw [hkeep₂.size]
    change u8 (root₁.size + 1) = _
    rw [hsize₁, h.size_ok, h.size, hentries]
    simp
    omega
  · intro p hp
    change (root₂.mem p).isSome at hp
    rw [hkeep₂.live p] at hp
    by_cases heq : p = entry.addr
    · exact ⟨entry, by simp, heq.symm⟩
    · change (root₁.mem p).isSome at hp
      rw [hlive₁ p heq] at hp
      rcases h.live p hp with ⟨other, hother, haddr⟩
      refine ⟨other, ?_, haddr⟩
      rw [hentries] at hother
      rcases List.mem_append.mp hother with hin | hin
      · exact List.mem_append_left _ hin
      · exact List.mem_append_right _ (List.mem_cons_of_mem _ hin)

end CPractice.RbMap
