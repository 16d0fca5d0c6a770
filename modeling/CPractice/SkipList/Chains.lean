import CPractice.SkipList.Model
import CPractice.Lib.Linked

/-!
# The chains of a skip list

`Repr s items` describes a list by the sequence of its items, each with the level of its node: the
keys descend, and on every level the pointers lead from `header` through the items that reach the
level to `tail`.  That a chain is a sublist of the one below is then a fact about filters.  A search
for a key cuts the items into those above the key and the rest; on every level it ends behind the
last item above the key.
-/

namespace CPractice.SkipList

open Lib

variable {κ ν : Type}

/-- A node of the list, its key and value and its level. -/
structure Item (κ ν : Type) where
  addr : ℕ
  key : κ
  value : ν
  level : ℕ

/-- The items whose node reaches `level`. -/
def levelItems (items : List (Item κ ν)) (level : ℕ) : List (Item κ ν) :=
  items.filter fun it ↦ level ≤ it.level

/-- The nodes of a level. -/
def addrs (items : List (Item κ ν)) (level : ℕ) : List ℕ := (levelItems items level).map Item.addr

/-- The nodes of a level with the sentinels. -/
def pathAt (s : SkipListT κ ν) (items : List (Item κ ν)) (level : ℕ) : List ℕ :=
  s.header :: (addrs items level ++ [s.tail])

/-- The list `s` holds `items`. -/
structure Repr [LinearOrder κ] (s : SkipListT κ ν) (items : List (Item κ ν)) : Prop where
  item_node : ∀ it ∈ items, ∃ n, s.nodes it.addr = some n ∧ n.entry = some (it.key, it.value) ∧
    n.level = it.level
  item_level : ∀ it ∈ items, it.level ≤ s.level
  item_header : ∀ it ∈ items, it.addr ≠ s.header
  item_tail : ∀ it ∈ items, it.addr ≠ s.tail
  header_node : ∃ n, s.nodes s.header = some n ∧ n.level = skipListMaxLevel
  tail_node : (s.nodes s.tail).isSome
  header_tail : s.header ≠ s.tail
  sorted : items.Pairwise fun a b ↦ b.key < a.key
  level_lt : s.level < skipListMaxLevel
  paths : ∀ level < skipListMaxLevel, Path (nextAt s level) (pathAt s items level)
  count : items.length ≤ s.allocs

/-! ## Lists of items -/

theorem levelItems_append (xs ys : List (Item κ ν)) (level : ℕ) :
    levelItems (xs ++ ys) level = levelItems xs level ++ levelItems ys level := by
  simp [levelItems]

theorem addrs_append (xs ys : List (Item κ ν)) (level : ℕ) :
    addrs (xs ++ ys) level = addrs xs level ++ addrs ys level := by
  simp [addrs, levelItems_append]

theorem addrs_cons_of_le {it : Item κ ν} {level : ℕ} (h : level ≤ it.level)
    (items : List (Item κ ν)) : addrs (it :: items) level = it.addr :: addrs items level := by
  simp [addrs, levelItems, h]

theorem addrs_cons_of_lt {it : Item κ ν} {level : ℕ} (h : it.level < level)
    (items : List (Item κ ν)) : addrs (it :: items) level = addrs items level := by
  simp [addrs, levelItems, Nat.not_le.mpr h]

theorem mem_addrs {items : List (Item κ ν)} {level a : ℕ} :
    a ∈ addrs items level ↔ ∃ it ∈ items, level ≤ it.level ∧ it.addr = a := by
  simp [addrs, levelItems, and_assoc]

/-- A chain is a sublist of the chain below. -/
theorem addrs_sublist (items : List (Item κ ν)) {level level' : ℕ} (h : level ≤ level') :
    (addrs items level').Sublist (addrs items level) := by
  apply List.Sublist.map
  have hfilter : levelItems items level' = (levelItems items level).filter
      fun it ↦ level' ≤ it.level := by
    unfold levelItems
    rw [List.filter_filter]
    apply List.filter_congr
    intro it _
    simpa using fun hle : level' ≤ it.level ↦ h.trans hle
  rw [hfilter]
  exact List.filter_sublist

/-! ## The chain read from the heap -/

theorem chainFrom_spec {s : SkipListT κ ν} {level fuel pre : ℕ} {xs : List ℕ}
    (hpath : Path (nextAt s level) (pre :: (xs ++ [s.tail]))) (htail : s.tail ∉ xs)
    (hfuel : xs.length < fuel) : chainFrom s level fuel pre = some xs := by
  induction xs generalizing fuel pre with
  | nil =>
      rcases fuel with _ | fuel
      · exact absurd hfuel (Nat.not_lt_zero _)
      · have hnext : nextAt s level pre = some s.tail := Path.next_head hpath
        simp [chainFrom, hnext]
  | cons x xs ih =>
      rcases fuel with _ | fuel
      · exact absurd hfuel (Nat.not_lt_zero _)
      · have hnext : nextAt s level pre = some x := Path.next_head hpath
        have hne : x ≠ s.tail := fun heq ↦ htail (heq ▸ List.mem_cons_self)
        have hrest := ih (List.IsChain.tail hpath)
          (fun hmem ↦ htail (List.mem_cons_of_mem x hmem)) (Nat.lt_of_succ_lt_succ hfuel)
        simp [chainFrom, hnext, hne, hrest]

/-! ## Geometry of a represented list -/

section Geometry

variable [LinearOrder κ] {s : SkipListT κ ν} {items : List (Item κ ν)}

theorem Repr.entryAt_eq (h : Repr s items) {it : Item κ ν} (hit : it ∈ items) :
    entryAt s it.addr = some (it.key, it.value) := by
  have hnode := h.item_node it hit
  rcases hnode with ⟨n, hn, hentry, -⟩
  simp [entryAt, hn, hentry]

/-- Different items have different nodes. -/
theorem Repr.addr_nodup (h : Repr s items) : (items.map Item.addr).Nodup := by
  apply List.pairwise_map.mpr
  apply List.Pairwise.imp_of_mem _ h.sorted
  intro a b ha hb hlt heq
  have hkeyA := h.entryAt_eq ha
  have hkeyB := h.entryAt_eq hb
  rw [heq, hkeyB] at hkeyA
  have hkey : b.key = a.key := (Prod.mk.inj (Option.some.inj hkeyA)).1
  exact hlt.ne hkey

theorem Repr.path_nodup (h : Repr s items) (level : ℕ) : (pathAt s items level).Nodup := by
  have haddrs : (addrs items level).Nodup :=
    h.addr_nodup.sublist (List.filter_sublist.map Item.addr)
  have hheader : s.header ∉ addrs items level := by
    intro hmem
    rcases mem_addrs.mp hmem with ⟨it, hit, -, heq⟩
    exact h.item_header it hit heq
  have htail : s.tail ∉ addrs items level := by
    intro hmem
    rcases mem_addrs.mp hmem with ⟨it, hit, -, heq⟩
    exact h.item_tail it hit heq
  apply List.nodup_cons.mpr
  constructor
  · simp [hheader, h.header_tail]
  · apply List.nodup_append.mpr
    refine ⟨haddrs, List.nodup_singleton _, ?_⟩
    intro a ha b hb heq
    rw [List.mem_singleton.mp hb] at heq
    exact htail (heq ▸ ha)

/-- Above the level of the list every chain is empty. -/
theorem Repr.addrs_above (h : Repr s items) {level : ℕ} (hlevel : s.level < level) :
    addrs items level = [] := by
  apply List.eq_nil_iff_forall_not_mem.mpr
  intro a ha
  rcases mem_addrs.mp ha with ⟨it, hit, hle, -⟩
  have hbound := h.item_level it hit
  omega

theorem Repr.length_addrs_le (h : Repr s items) (level : ℕ) :
    (addrs items level).length ≤ s.allocs := by
  calc
    (addrs items level).length = (levelItems items level).length := List.length_map _
    _ ≤ items.length := List.length_filter_le _ _
    _ ≤ s.allocs := h.count

theorem Repr.chainAt_eq (h : Repr s items) {level : ℕ} (hlevel : level < skipListMaxLevel) :
    chainAt s level = some (addrs items level) := by
  apply chainFrom_spec (h.paths level hlevel)
  · intro hmem
    rcases mem_addrs.mp hmem with ⟨it, hit, -, heq⟩
    exact h.item_tail it hit heq
  · exact Nat.lt_succ_of_le (h.length_addrs_le level)

/-! ## The search -/

/-- The walk on one level: over the items above the key, up to the first that is not. -/
theorem walkLevel_spec {cmp : κ → κ → ℤ} (hcmp : TotalOrderCmp cmp) (h : Repr s items) {key : κ}
    {level pre : ℕ} (fuel : ℕ) {above rest : List (Item κ ν)}
    (hpath : Path (nextAt s level)
      (pre :: (above.map Item.addr ++ (rest.map Item.addr ++ [s.tail]))))
    (habove : ∀ it ∈ above, it ∈ items ∧ key < it.key)
    (hrest : ∀ it ∈ rest, it ∈ items ∧ ¬ key < it.key) (hfuel : above.length < fuel) :
    walkLevel cmp s key level fuel pre =
      some (lastFrom pre (above.map Item.addr), firstOr s.tail (rest.map Item.addr)) := by
  induction above generalizing fuel pre with
  | nil =>
      rcases fuel with _ | fuel
      · exact absurd hfuel (Nat.not_lt_zero _)
      cases rest with
      | nil =>
          have hnext : nextAt s level pre = some s.tail := Path.next_head hpath
          simp [walkLevel, hnext]
      | cons it rest =>
          have hnext : nextAt s level pre = some it.addr := Path.next_head hpath
          have hit := hrest it List.mem_cons_self
          have hne := h.item_tail it hit.1
          have hkey : ¬ cmp key it.key < 0 := fun hlt ↦ hit.2 ((hcmp.neg_iff _ _).mp hlt)
          simp [walkLevel, hnext, hne, h.entryAt_eq hit.1, hkey]
  | cons it above ih =>
      rcases fuel with _ | fuel
      · exact absurd hfuel (Nat.not_lt_zero _)
      have hnext : nextAt s level pre = some it.addr := Path.next_head hpath
      have hit := habove it List.mem_cons_self
      have hne := h.item_tail it hit.1
      have hkey : cmp key it.key < 0 := (hcmp.neg_iff _ _).mpr hit.2
      have htail := ih fuel (List.IsChain.tail hpath)
        (fun it' hit' ↦ habove it' (List.mem_cons_of_mem it hit')) (Nat.lt_of_succ_lt_succ hfuel)
      simp [walkLevel, hnext, hne, h.entryAt_eq hit.1, hkey, htail]

/-- The items above `key` and the rest. -/
structure Cut (items above rest : List (Item κ ν)) (key : κ) : Prop where
  eq : items = above ++ rest
  above_lt : ∀ it ∈ above, key < it.key
  rest_le : ∀ it ∈ rest, ¬ key < it.key

theorem Repr.exists_cut (h : Repr s items) (key : κ) : ∃ above rest, Cut items above rest key := by
  refine ⟨items.filter fun it ↦ key < it.key, items.filter fun it ↦ ¬ key < it.key, ?_, ?_, ?_⟩
  · have hsorted := h.sorted
    clear h
    induction items with
    | nil => rfl
    | cons it items ih =>
        have hparts := List.pairwise_cons.mp hsorted
        by_cases hlt : key < it.key
        · have hrest := ih hparts.2
          simp only [hlt, decide_true, List.filter_cons_of_pos, not_true_eq_false,
            decide_false, Bool.false_eq_true, not_false_eq_true, List.filter_cons_of_neg,
            List.cons_append]
          rw [← hrest]
        · -- Once an item is not above the key, none of the following is.
          have hnone : ∀ it' ∈ items, ¬ key < it'.key := by
            intro it' hit' hlt'
            exact hlt (hlt'.trans (hparts.1 it' hit'))
          have hempty : (it :: items).filter (fun it ↦ key < it.key) = [] := by
            apply List.filter_eq_nil_iff.mpr
            intro it' hit'
            rcases List.mem_cons.mp hit' with rfl | hmem
            · simpa using hlt
            · simpa using hnone it' hmem
          have hall : (it :: items).filter (fun it ↦ ¬ key < it.key) = it :: items := by
            apply List.filter_eq_self.mpr
            intro it' hit'
            rcases List.mem_cons.mp hit' with rfl | hmem
            · simpa using hlt
            · simpa using hnone it' hmem
          rw [hempty, hall, List.nil_append]
  · intro it hit
    simpa using (List.mem_filter.mp hit).2
  · intro it hit
    simpa using (List.mem_filter.mp hit).2

/-- The predecessor the search finds on a level. -/
def lastAbove (s : SkipListT κ ν) (above : List (Item κ ν)) (level : ℕ) : ℕ :=
  lastFrom s.header (addrs above level)

/-- The node the search ends at. -/
def firstRest (s : SkipListT κ ν) (rest : List (Item κ ν)) (level : ℕ) : ℕ :=
  firstOr s.tail (addrs rest level)

/-- From the header, or any node of the level above the key, the walk ends behind the last item
above the key. -/
theorem walkLevel_cut {cmp : κ → κ → ℤ} (hcmp : TotalOrderCmp cmp) (h : Repr s items) {key : κ}
    {above rest : List (Item κ ν)} (hcut : Cut items above rest key) {level pre : ℕ}
    (hlevel : level < skipListMaxLevel) (hpre : pre = s.header ∨ pre ∈ addrs above level) :
    walkLevel cmp s key level (s.allocs + 1) pre =
      some (lastAbove s above level, firstRest s rest level) := by
  have hpath := h.paths level hlevel
  have hmemAbove : ∀ it ∈ levelItems above level, it ∈ items ∧ key < it.key := by
    intro it hit
    have hmem : it ∈ above := (List.mem_filter.mp hit).1
    exact ⟨hcut.eq ▸ List.mem_append_left _ hmem, hcut.above_lt it hmem⟩
  have hmemRest : ∀ it ∈ levelItems rest level, it ∈ items ∧ ¬ key < it.key := by
    intro it hit
    have hmem : it ∈ rest := (List.mem_filter.mp hit).1
    exact ⟨hcut.eq ▸ List.mem_append_right _ hmem, hcut.rest_le it hmem⟩
  have hlength : (levelItems above level).length ≤ s.allocs := by
    have hbound := h.length_addrs_le level
    rw [hcut.eq, addrs_append] at hbound
    simp only [List.length_append, addrs, List.length_map] at hbound
    omega
  rw [pathAt, hcut.eq, addrs_append, List.append_assoc] at hpath
  rcases hpre with rfl | hmem
  · exact walkLevel_spec hcmp h _ hpath hmemAbove hmemRest (Nat.lt_succ_of_le hlength)
  · -- The walk starts in the middle: the items before `pre` are skipped.
    rcases List.mem_map.mp hmem with ⟨it, hit, rfl⟩
    rcases List.append_of_mem hit with ⟨front, back, hsplit⟩
    have hdrop : Path (nextAt s level)
        (it.addr :: (back.map Item.addr ++ ((levelItems rest level).map Item.addr ++ [s.tail]))) := by
      apply Path.drop (s.header :: front.map Item.addr)
      simpa [addrs, hsplit] using hpath
    have hwalk := walkLevel_spec hcmp h (s.allocs + 1) hdrop
      (fun it' hit' ↦ hmemAbove it' (hsplit ▸ List.mem_append_right _ (List.mem_cons_of_mem it hit')))
      hmemRest (by rw [hsplit] at hlength; simp at hlength; omega)
    rw [hwalk]
    simp [lastAbove, firstRest, addrs, hsplit]

/-- The search fills `update` with the last node above the key, level by level, and ends at the
first item that is not above it. -/
theorem descend_spec {cmp : κ → κ → ℤ} (hcmp : TotalOrderCmp cmp) (h : Repr s items) {key : κ}
    {above rest : List (Item κ ν)} (hcut : Cut items above rest key) {level pre : ℕ}
    (hlevel : level < skipListMaxLevel) (hpre : pre = s.header ∨ pre ∈ addrs above level)
    (update : ℕ → Option ℕ) :
    ∃ update', descend cmp s key level pre update = some (update', firstRest s rest 0) ∧
      ∀ i, update' i = if i ≤ level then some (lastAbove s above i) else update i := by
  induction level generalizing pre update with
  | zero =>
      have hwalk := walkLevel_cut hcmp h hcut hlevel hpre
      refine ⟨Function.update update 0 (some (lastAbove s above 0)), ?_, ?_⟩
      · simp [descend, hwalk]
      · intro i
        by_cases hi : i = 0
        · simp [hi]
        · simp [hi]
  | succ level ih =>
      have hwalk := walkLevel_cut hcmp h hcut hlevel hpre
      have hnextPre : lastAbove s above (level + 1) = s.header ∨
          lastAbove s above (level + 1) ∈ addrs above level :=
        (lastFrom_mem s.header (addrs above (level + 1))).imp id
          fun hmem ↦ (addrs_sublist above (Nat.le_succ level)).subset hmem
      rcases ih (Nat.lt_of_succ_lt hlevel) hnextPre
        (Function.update update (level + 1) (some (lastAbove s above (level + 1)))) with
        ⟨update', hdescend, hupdate⟩
      refine ⟨update', by simp [descend, hwalk, hdescend], ?_⟩
      intro i
      rw [hupdate i]
      by_cases hi : i = level + 1
      · simp [hi]
      · have hiff : i ≤ level ↔ i ≤ level + 1 := by omega
        simp [hi, hiff]

theorem search_spec {cmp : κ → κ → ℤ} (hcmp : TotalOrderCmp cmp) (h : Repr s items) {key : κ}
    {above rest : List (Item κ ν)} (hcut : Cut items above rest key) :
    ∃ update, search cmp s key = some (update, firstRest s rest 0) ∧
      ∀ i ≤ s.level, update i = some (lastAbove s above i) := by
  rcases descend_spec hcmp h hcut h.level_lt (.inl rfl) fun _ ↦ none with
    ⟨update, hsearch, hupdate⟩
  refine ⟨update, hsearch, ?_⟩
  intro i hi
  rw [hupdate i, if_pos hi]

/-- The key is in the list exactly if it is the key of the first item not above it. -/
theorem Repr.rest_lt (h : Repr s items) {key : κ} {above rest : List (Item κ ν)}
    (hcut : Cut items above rest key) (hhead : ∀ it ∈ rest.head?, it.key ≠ key) :
    ∀ it ∈ rest, it.key < key := by
  have hsorted : rest.Pairwise fun a b ↦ b.key < a.key := by
    have hall := h.sorted
    rw [hcut.eq] at hall
    exact (List.pairwise_append.mp hall).2.1
  intro it hit
  cases rest with
  | nil => exact absurd hit List.not_mem_nil
  | cons first rest =>
      have hfirst : first.key < key := by
        have hle := hcut.rest_le first List.mem_cons_self
        have hne := hhead first rfl
        exact lt_of_le_of_ne (not_lt.mp hle) hne
      rcases List.mem_cons.mp hit with rfl | hmem
      · exact hfirst
      · exact ((List.pairwise_cons.mp hsorted).1 it hmem).trans hfirst

end Geometry

end CPractice.SkipList
