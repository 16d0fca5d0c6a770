import CPractice.Lib.Bindings
import CPractice.SkipList.Splice

/-!
# The skip list refines a finite map

The abstract object is a partial function from keys to values.  An insert binds an unbound key if
its allocations are granted, an erase unbinds its key, and `skip_list_find` reads the binding.
-/

namespace CPractice.SkipList

open Lib

variable {κ ν : Type} [LinearOrder κ] {cmp : κ → κ → ℤ} {s : SkipListT κ ν}
  {items above rest : List (Item κ ν)} {key : κ} {bindings : κ → Option ν}

/-! ## The abstract object -/

/-- The bindings after a call. -/
def mapStep (bindings : κ → Option ν) (call : Call κ ν) (_ : Ret ν) : κ → Option ν :=
  match call with
  | .insert key value _ alloc =>
      if bindings key = none ∧ alloc.granted then Function.update bindings key (some value)
      else bindings
  | .erase key => Function.update bindings key none
  | .find _ => bindings

/-- The result of a call on the bindings before it. -/
def mapResult (bindings : κ → Option ν) : Call κ ν → Ret ν
  | .insert key _ _ alloc =>
      match bindings key with
      | some _ => .code (-3)
      | none => if alloc.granted then .code 0 else .code (-2)
  | .erase _ => .done
  | .find key =>
      match bindings key with
      | some value => .found 0 (some value)
      | none => .found (-2) none

/-- The bindings after a run. -/
def contents (log : List (Call κ ν × Ret ν)) : κ → Option ν :=
  Machine.replay mapStep (fun _ ↦ none) log

/-- The items hold exactly the bindings. -/
def Holds (items : List (Item κ ν)) (bindings : κ → Option ν) : Prop :=
  ∀ key value, bindings key = some value ↔ ∃ it ∈ items, it.key = key ∧ it.value = value

/-! ## The result of a search -/

/-- The search ends at the item of the key, if there is one. -/
theorem matchesKey_spec (hcmp : TotalOrderCmp cmp) (h : Repr s items)
    (hcut : Cut items above rest key) :
    (∃ it rest', rest = it :: rest' ∧ it.key = key ∧ firstRest s rest 0 = it.addr ∧
      matchesKey cmp s it.addr key = some true ∧ matchesNode cmp s it.addr key = some true) ∨
    ((∀ it ∈ rest, it.key < key) ∧ matchesKey cmp s (firstRest s rest 0) key = some false ∧
      matchesNode cmp s (firstRest s rest 0) key = some false) := by
  cases rest with
  | nil =>
      right
      refine ⟨by simp, ?_, ?_⟩
      · simp [matchesKey, firstRest, addrs, levelItems]
      · simp [matchesNode, firstRest, addrs, levelItems]
  | cons it rest =>
      have hmem : it ∈ items := hcut.eq ▸ List.mem_append_right _ List.mem_cons_self
      have hfirst : firstRest s (it :: rest) 0 = it.addr := by
        simp [firstRest, addrs_cons_of_le (Nat.zero_le it.level)]
      have hne := h.item_tail it hmem
      have hentry := h.entryAt_eq hmem
      by_cases hkey : it.key = key
      · left
        have hzero := (hcmp.zero_iff it.key key).mpr hkey
        have hzero' := (hcmp.zero_iff key it.key).mpr hkey.symm
        refine ⟨it, rest, rfl, hkey, hfirst, ?_, ?_⟩
        · simp [matchesKey, hne, hentry, hzero]
        · simp [matchesNode, hne, hentry, hzero']
      · right
        have hzero : ¬ cmp it.key key = 0 := fun hz ↦ hkey ((hcmp.zero_iff _ _).mp hz)
        have hzero' : ¬ cmp key it.key = 0 := fun hz ↦ hkey ((hcmp.zero_iff _ _).mp hz).symm
        refine ⟨h.rest_lt hcut (by simpa using hkey), ?_, ?_⟩
        · simp [matchesKey, hfirst, hne, hentry, hzero]
        · simp [matchesNode, hfirst, hne, hentry, hzero']

/-- The key of a search without a match is not in the list. -/
theorem Cut.key_ne (hcut : Cut items above rest key) (hlt : ∀ it ∈ rest, it.key < key) :
    ∀ it ∈ above ++ rest, it.key ≠ key := by
  intro it hit
  rcases List.mem_append.mp hit with hmem | hmem
  · exact (hcut.above_lt it hmem).ne'
  · exact (hlt it hmem).ne

theorem Holds.none_of_cut (hholds : Holds items bindings) (hcut : Cut items above rest key)
    (hlt : ∀ it ∈ rest, it.key < key) : bindings key = none := by
  have hne := hcut.key_ne hlt
  rw [← hcut.eq] at hne
  exact Binds.eq_none hholds hne

/-! ## One call -/

theorem skipListFind_spec (hcmp : TotalOrderCmp cmp) (h : Repr s items)
    (hholds : Holds items bindings) (key : κ) :
    callExec cmp s (.find key) = some (mapResult bindings (.find key), s) := by
  rcases h.exists_cut key with ⟨above, rest, hcut⟩
  rcases search_spec hcmp h hcut with ⟨update, hsearch, -⟩
  rcases matchesKey_spec hcmp h hcut with ⟨it, rest', hrest, hkey, hfirst, hmatch, -⟩ |
    ⟨hlt, hmatch, -⟩
  · have hmem : it ∈ items := by
      rw [hcut.eq, hrest]
      exact List.mem_append_right _ List.mem_cons_self
    have hbound : bindings key = some it.value := (hholds key it.value).mpr ⟨it, hmem, hkey, rfl⟩
    simp [callExec, skipListFind, hsearch, hfirst, hmatch, h.entryAt_eq hmem, mapResult, hbound]
  · have hunbound := hholds.none_of_cut hcut hlt
    simp [callExec, skipListFind, hsearch, hmatch, mapResult, hunbound]

/-- The call as `Simulates` asks for it. -/
def Simulated (cmp : κ → κ → ℤ) (s : SkipListT κ ν) (bindings : κ → Option ν) (call : Call κ ν) :
    Prop :=
  ∃ s' items', callExec cmp s call = some (mapResult bindings call, s') ∧ Repr s' items' ∧
    Holds items' (mapStep bindings call (mapResult bindings call))

theorem holds_insert (hholds : Holds items bindings) (hcut : Cut items above rest key)
    (hlt : ∀ it ∈ rest, it.key < key) (it : Item κ ν) (hkey : it.key = key) :
    Holds (above ++ it :: rest) (Function.update bindings key (some it.value)) := by
  have hbinds : Binds Item.key Item.value (above ++ rest) bindings := hcut.eq ▸ hholds
  subst hkey
  exact hbinds.insert (hcut.key_ne hlt)

theorem insert_simulated (hcmp : TotalOrderCmp cmp) (h : Repr s items)
    (hholds : Holds items bindings) {value : ν} {level : ℕ} {alloc : Alloc}
    (hok : callOk s (.insert key value level alloc)) :
    Simulated cmp s bindings (.insert key value level alloc) := by
  rcases h.exists_cut key with ⟨above, rest, hcut⟩
  rcases search_spec hcmp h hcut with ⟨update, hsearch, hupdate⟩
  rcases matchesKey_spec hcmp h hcut with ⟨it, rest', hrest, hkey, hfirst, hmatch, -⟩ |
    ⟨hlt, hmatch, -⟩
  · -- The key is bound: nothing changes.
    have hmem : it ∈ items := by
      rw [hcut.eq, hrest]
      exact List.mem_append_right _ List.mem_cons_self
    have hbound : bindings key = some it.value := (hholds key it.value).mpr ⟨it, hmem, hkey, rfl⟩
    refine ⟨s, items, ?_, h, ?_⟩
    · simp [callExec, skipListInsert, hsearch, hfirst, hmatch, mapResult, hbound]
    · simpa [mapStep, hbound] using hholds
  · have hunbound := hholds.none_of_cut hcut hlt
    have hraised := h.raised hok.1
    by_cases hgranted : alloc.granted
    · have hfresh : (raised s level).nodes alloc.node = none := by
        rw [(raised_same s level).2.2]
        exact hok.2 hgranted.1
      have hlast : lastAbove (raised s level) above = lastAbove s above := by
        funext i
        rw [lastAbove, lastAbove, (raised_same s level).1]
      have hlevelLt : ∀ i ≤ insertLevel s level, i < skipListMaxLevel := by
        intro i hi
        exact (hi.trans (insertLevel_le s level)).trans_lt hraised.level_lt
      have husable : ∀ i ≤ insertLevel s level,
          Usable (addNode (raised s level) alloc.node (insertLevel s level) key value)
            (lastAbove s above i) alloc.node i := by
        intro i hi
        rw [← hlast]
        rcases hraised.node_lastAbove hcut (hlevelLt i hi) with ⟨n, hn, hle⟩
        have hne : lastAbove (raised s level) above i ≠ alloc.node := by
          intro heq
          rw [heq, hfresh] at hn
          cases hn
        refine ⟨hne, ⟨n, by simp [addNode, hne, hn], hle⟩, firstRest (raised s level) rest i, ?_⟩
        rw [← hraised.next_lastAbove hcut (hlevelLt i hi)]
        simp [nextAt, addNode, hne]
      have hnew : (addNode (raised s level) alloc.node (insertLevel s level) key value).nodes
          alloc.node = some ⟨some (key, value), insertLevel s level, fun _ ↦ none⟩ := by
        simp [addNode]
      rcases splice_spec (raisedUpdate_spec h hcut hupdate) husable hnew le_rfl with
        ⟨s', hsplice, hspliced⟩
      rw [← hlast] at hspliced
      refine ⟨s', above ++ ⟨alloc.node, key, value, insertLevel s level⟩ :: rest, ?_,
        hraised.insert hcut hlt hfresh (insertLevel_le s level) hspliced, ?_⟩
      · simp [callExec, skipListInsert, hsearch, hmatch, hgranted, hsplice, mapResult, hunbound]
      · simp only [mapStep, hunbound, hgranted, and_self, if_true]
        exact holds_insert hholds hcut hlt ⟨alloc.node, key, value, insertLevel s level⟩ rfl
    · -- A refused allocation leaves the items; the list may have been raised.
      refine ⟨raised s level, items, ?_, hraised, ?_⟩
      · simp [callExec, skipListInsert, hsearch, hmatch, hgranted, mapResult, hunbound]
      · simpa [mapStep, hgranted] using hholds

theorem firstOr_ne_item (h : Repr s items) {it : Item κ ν}
    (hcut : Cut items above (it :: rest) key) (i : ℕ) :
    firstOr s.tail (addrs rest i) ≠ it.addr := by
  have hmem : it ∈ items := hcut.eq ▸ List.mem_append_right _ List.mem_cons_self
  cases haddrs : addrs rest i with
  | nil => exact (h.item_tail it hmem).symm
  | cons a as =>
      intro heq
      have ha : a ∈ addrs rest i := haddrs ▸ List.mem_cons_self
      rcases mem_addrs.mp ha with ⟨it', hit', -, haddr⟩
      have hnodup := h.addr_nodup
      rw [hcut.eq, List.map_append, List.map_cons] at hnodup
      have hcons := (List.nodup_append.mp hnodup).2.1
      apply (List.nodup_cons.mp hcons).1
      rw [← heq, firstOr_cons, ← haddr]
      exact List.mem_map_of_mem hit'

/-- No other item has the key of the item the search ended at. -/
theorem Repr.only_key (h : Repr s items) {it : Item κ ν} (hcut : Cut items above (it :: rest) key)
    (hkey : it.key = key) : ∀ other ∈ above ++ rest, other.key ≠ it.key := by
  have hsorted := h.sorted
  rw [hcut.eq] at hsorted
  have hrest := (List.pairwise_cons.mp (List.pairwise_append.mp hsorted).2.1).1
  intro other hother
  rcases List.mem_append.mp hother with hmem | hmem
  · rw [hkey]
    exact (hcut.above_lt other hmem).ne'
  · exact (hrest other hmem).ne

theorem holds_erase (h : Repr s items) (hholds : Holds items bindings) {it : Item κ ν}
    (hcut : Cut items above (it :: rest) key) (hkey : it.key = key) :
    Holds (above ++ rest) (Function.update bindings key none) := by
  have hbinds : Binds Item.key Item.value (above ++ it :: rest) bindings := hcut.eq ▸ hholds
  rw [← hkey]
  exact hbinds.erase (h.only_key hcut hkey)

/-- The item of the key can be unlinked on all its levels. -/
theorem Repr.unlinkable (h : Repr s items) {it : Item κ ν} (hcut : Cut items above (it :: rest) key)
    (hkey : it.key = key) :
    Unlinkable s (lastAbove s above) it.addr 0 it.level s.level := by
  have hmem : it ∈ items := by
    rw [hcut.eq]
    exact List.mem_append_right _ List.mem_cons_self
  have hlevelLt : ∀ i ≤ s.level, i < skipListMaxLevel := fun i hi ↦ hi.trans_lt h.level_lt
  refine ⟨h.item_level it hmem, ?_, ?_, ?_⟩
  · intro i hi _
    refine ⟨?_, h.node_lastAbove hcut (hlevelLt i hi), _,
      h.next_lastAbove hcut (hlevelLt i hi)⟩
    rcases lastFrom_mem s.header (addrs above i) with heq | hlast
    · rw [lastAbove, heq]
      exact (h.item_header it hmem).symm
    · intro heq
      rcases mem_addrs.mp hlast with ⟨it', hit', -, haddr⟩
      have hentry := h.entryAt_eq hmem
      have hentry' := h.entryAt_eq (hcut.eq ▸ List.mem_append_left _ hit' : it' ∈ items)
      rw [haddr, ← lastAbove, heq, hentry] at hentry'
      have hkeys : it.key = it'.key := (Prod.mk.inj (Option.some.inj hentry')).1
      exact (hcut.above_lt it' hit').ne (hkey.symm.trans hkeys)
  · intro i hi _
    rw [h.next_lastAbove hcut (hlevelLt i hi), Option.some_inj]
    by_cases hreach : i ≤ it.level
    · simp [firstRest, addrs_cons_of_le hreach, hreach]
    · simp only [firstRest, addrs_cons_of_lt (Nat.not_le.mp hreach), hreach, iff_false]
      exact firstOr_ne_item h hcut i
  · intro i hi _
    exact ⟨_, h.next_first hcut (hlevelLt i (hi.trans (h.item_level it hmem))) hi⟩

theorem erase_simulated (hcmp : TotalOrderCmp cmp) (h : Repr s items)
    (hholds : Holds items bindings) (key : κ) : Simulated cmp s bindings (.erase key) := by
  rcases h.exists_cut key with ⟨above, rest, hcut⟩
  rcases search_spec hcmp h hcut with ⟨update, hsearch, hupdate⟩
  rcases matchesKey_spec hcmp h hcut with ⟨it, rest', hrest, hkey, hfirst, -, hmatch⟩ |
    ⟨hlt, -, hmatch⟩
  · subst hrest
    have hmem : it ∈ items := by
      rw [hcut.eq]
      exact List.mem_append_right _ List.mem_cons_self
    have hunlinkable := h.unlinkable hcut hkey
    rcases unlinkLevels_spec hupdate (Nat.add_zero (s.level + 1)) (Nat.zero_le _) hunlinkable with
      ⟨s₁, hunlink, hunlinked⟩
    have hrepr := h.erase hcut hunlinked
    have hsub : (above ++ rest').Sublist items := by
      rw [hcut.eq]
      exact (List.Sublist.refl above).append (List.sublist_cons_self it rest')
    have hfree : freeNode s₁ it.addr =
        some { s₁ with nodes := Function.update s₁.nodes it.addr none } := by
      rcases h.item_node it hmem with ⟨n, hn, -⟩
      rcases hunlinked.same.exists_node hn with ⟨n', hn', -⟩
      simp [freeNode, hn']
    rcases hrepr.lowerTop_spec h.level_lt
      (fun it' hit' ↦ h.item_level it' (hsub.subset hit')) with ⟨top, hlower, htop, hbound⟩
    refine ⟨{ s₁ with nodes := Function.update s₁.nodes it.addr none, level := top },
      above ++ rest', ?_, ?_, ?_⟩
    · simp [callExec, skipListErase, hsearch, hfirst, hmatch, removeNode, hunlink, hfree, hlower,
        mapResult]
    · refine { hrepr with item_level := hbound, level_lt := ?_, paths := ?_ }
      · exact htop.trans_lt h.level_lt
      · exact hrepr.paths
    · exact holds_erase h hholds hcut hkey
  · have hunbound := hholds.none_of_cut hcut hlt
    refine ⟨s, items, ?_, h, ?_⟩
    · simp [callExec, skipListErase, hsearch, hmatch, mapResult]
    · have hsame : Function.update bindings key none = bindings :=
        Function.update_eq_self_iff.mpr hunbound.symm
      simpa [mapStep, hsame] using hholds

/-! ## Runs -/

/-- The relation between a list and the bindings it holds. -/
def Refines (s : SkipListT κ ν) (bindings : κ → Option ν) : Prop :=
  ∃ items, Repr s items ∧ Holds items bindings

theorem refines_init (hinit : (machine (ν := ν) cmp).init s) : Refines s fun _ ↦ none := by
  rcases hinit with ⟨tail, header, -, -, hne, rfl⟩
  refine ⟨[], ?_, by simp [Holds]⟩
  refine
    { item_node := by simp, item_level := by simp, item_header := by simp, item_tail := by simp
      header_node := ⟨_, Function.update_self _ _ _, rfl⟩
      tail_node := by simp [skipListInit, hne], header_tail := hne.symm
      sorted := List.Pairwise.nil, level_lt := Nat.zero_lt_succ _, paths := ?_, count := le_rfl }
  intro level hlevel
  apply List.isChain_pair.mpr
  have hle : level ≤ skipListMaxLevel := hlevel.le
  simp [nextAt, skipListInit, hle, hlevel]

theorem call_simulates (hcmp : TotalOrderCmp cmp) :
    Machine.Simulates (machine (ν := ν) cmp) mapStep
      (fun bindings call r ↦ r = mapResult bindings call) Refines := by
  intro s bindings call hrefines hok
  rcases hrefines with ⟨items, h, hholds⟩
  cases call with
  | insert key value level alloc =>
      rcases insert_simulated hcmp h hholds hok with ⟨s', items', hexec, hrepr, hholds'⟩
      exact ⟨_, s', hexec, rfl, items', hrepr, hholds'⟩
  | erase key =>
      rcases erase_simulated hcmp h hholds key with ⟨s', items', hexec, hrepr, hholds'⟩
      exact ⟨_, s', hexec, rfl, items', hrepr, hholds'⟩
  | find key =>
      exact ⟨_, s, skipListFind_spec hcmp h hholds key, rfl, items, h, hholds⟩

/-- For every run: on each level the chain from `header` ends at `tail` with strictly descending
keys, is empty above the list's level and has the chain of the next level as a sublist; the nodes of
the lowest chain hold exactly the bindings of the finite map; and every further call returns what
the map returns. -/
theorem skip_list_refines_map (hcmp : TotalOrderCmp cmp) {log : List (Call κ ν × Ret ν)}
    (htrace : (machine cmp).Trace s log) :
    (∀ level < skipListMaxLevel, ∃ chain, chainAt s level = some chain ∧
      chain.Pairwise (fun a b ↦ ∃ x y, entryAt s a = some x ∧ entryAt s b = some y ∧ y.1 < x.1) ∧
      (s.level < level → chain = []) ∧
      (level + 1 < skipListMaxLevel →
        ∃ upper, chainAt s (level + 1) = some upper ∧ upper.Sublist chain)) ∧
    (∃ chain, chainAt s 0 = some chain ∧ ∀ key value, contents log key = some value ↔
      ∃ a ∈ chain, entryAt s a = some (key, value)) ∧
    ∀ call, callOk s call →
      ∃ s', callExec cmp s call = some (mapResult (contents log) call, s') := by
  have hboth := htrace.refines (fun _ ↦ none) (fun _ hinit ↦ refines_init hinit)
    (call_simulates hcmp)
  rcases hboth with ⟨⟨items, h, hholds⟩, hcalls⟩
  refine ⟨?_, ?_, ?_⟩
  · intro level hlevel
    refine ⟨addrs items level, h.chainAt_eq hlevel, ?_, h.addrs_above, ?_⟩
    · apply List.pairwise_map.mpr
      apply List.Pairwise.imp_of_mem _ (h.sorted.sublist List.filter_sublist)
      intro a b ha hb hlt
      exact ⟨_, _, h.entryAt_eq (List.mem_filter.mp ha).1, h.entryAt_eq (List.mem_filter.mp hb).1,
        hlt⟩
    · intro hnext
      exact ⟨_, h.chainAt_eq hnext, addrs_sublist items (Nat.le_succ level)⟩
  · refine ⟨addrs items 0, h.chainAt_eq (by decide), ?_⟩
    intro key value
    have hbindings := hholds key value
    rw [contents, hbindings]
    constructor
    · rintro ⟨it, hit, rfl, rfl⟩
      exact ⟨it.addr, mem_addrs.mpr ⟨it, hit, Nat.zero_le _, rfl⟩, h.entryAt_eq hit⟩
    · rintro ⟨a, ha, hentry⟩
      rcases mem_addrs.mp ha with ⟨it, hit, -, rfl⟩
      rw [h.entryAt_eq hit, Option.some_inj] at hentry
      exact ⟨it, hit, congrArg Prod.fst hentry, congrArg Prod.snd hentry⟩
  · intro call hok
    rcases hcalls call hok with ⟨r, s', hexec, rfl⟩
    exact ⟨s', hexec⟩

/-- Comparison of numbers by difference. -/
def numCmp (a b : ℕ) : ℤ := a - b

theorem numCmp_total : TotalOrderCmp numCmp where
  neg_iff a b := by unfold numCmp; omega
  pos_iff a b := by unfold numCmp; omega

/-- Three inserts on different levels, one of them refused, and an erase. -/
def smallCalls : List (Call ℕ ℕ) :=
  [.insert 5 50 0 ⟨3, true, true⟩, .insert 7 70 4 ⟨4, true, true⟩, .insert 5 51 0 ⟨5, true, true⟩,
    .insert 6 60 2 ⟨5, true, false⟩, .insert 1 10 1 ⟨5, true, true⟩, .erase 7]

instance (s : SkipListT ℕ ℕ) : (call : Call ℕ ℕ) → Decidable ((machine numCmp).ok s call)
  | .insert _ _ level alloc =>
      have : Decidable (s.nodes alloc.node = none) :=
        decidable_of_iff ((s.nodes alloc.node).isNone = true) Option.isNone_iff_eq_none
      inferInstanceAs (Decidable (level < skipListMaxLevel ∧
        (alloc.node ≠ 0 → s.nodes alloc.node = none)))
  | .erase _ => inferInstanceAs (Decidable True)
  | .find _ => inferInstanceAs (Decidable True)

theorem smallCalls_run :
    ((machine numCmp).execAll (skipListInit 1 2) smallCalls).isSome := by decide

theorem skip_list_refines_map_small :
    ∃ s log, (machine numCmp).Trace s log ∧ contents log 1 = some 10 ∧
      ∃ s', callExec numCmp s (.find 7) = some (.found (-2) none, s') := by
  have hinit : (machine (ν := ℕ) numCmp).init (skipListInit 1 2) :=
    ⟨1, 2, by decide, by decide, by decide, rfl⟩
  have htrace := Machine.trace_execAll hinit (by decide) (Option.some_get smallCalls_run).symm
  have hcontents : contents
      (((machine numCmp).execAll (skipListInit 1 2) smallCalls).get smallCalls_run).1 7 = none := by
    decide
  have hfind := (skip_list_refines_map numCmp_total htrace).2.2 (.find 7) trivial
  rw [mapResult, hcontents] at hfind
  exact ⟨_, _, htrace, by decide, hfind⟩

end CPractice.SkipList
