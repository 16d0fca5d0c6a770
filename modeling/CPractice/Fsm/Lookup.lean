import CPractice.Fsm.Model
import Mathlib.Data.List.Nodup
import Mathlib.Data.List.Perm.Subperm

/-!
# What the lookup sees

`fsm_node_arr_sort` takes the first switch whose next state is `INVALID_STATE` for the terminator,
although that is also the final state, and wipes what is behind it.  So the lookup sees the declared
switches up to the first one that leads to the final state: exactly the declared ones if such a
switch is the last of its node.
-/

namespace CPractice.Fsm

variable {lib : StdLib} {decl : NodeDecl} {decls : List NodeDecl} {sw : Switcher}

/-! ## The comparison of ids -/

theorem idCmp_neg_iff (a b : ℤ) : idCmp a b < 0 ↔ a ≠ -1 ∧ (b = -1 ∨ a < b) := by
  unfold idCmp
  grind

theorem idCmp_eq_zero_iff (a b : ℤ) : idCmp a b = 0 ↔ a ≠ -1 ∧ a = b := by
  unfold idCmp
  grind

theorem idCmp_pos_iff (a b : ℤ) : idCmp a b > 0 ↔ a = -1 ∨ (b ≠ -1 ∧ b < a) := by
  unfold idCmp
  split_ifs <;> omega

/-- Both comparisons order the elements by an id. -/
theorem idCmp_isStrictWeakOrder {α : Type} (f : α → ℤ) :
    IsStrictWeakOrder α fun a b ↦ idCmp (f a) (f b) < 0 where
  irrefl a := by
    rw [idCmp_neg_iff]
    omega
  trans a b c := by
    simp only [idCmp_neg_iff]
    omega
  incomp_trans a b c := by
    simp only [idCmp_neg_iff]
    omega

/-- A sorted array is partitioned by every key. -/
theorem partitioned_of_sorted {α : Type} (f : α → ℤ) (key : α) {arr : List α}
    (hsorted : arr.Pairwise fun a b ↦ ¬ idCmp (f b) (f a) < 0) :
    Partitioned (fun a b ↦ idCmp (f a) (f b)) key arr := by
  apply hsorted.imp
  intro a b hle
  simp only [idCmp_neg_iff, idCmp_pos_iff] at hle ⊢
  omega

/-! ## The switches that are kept -/

/-- The switches up to the first one that leads to the final state. -/
def keptSwitches : List Switcher → List Switcher
  | [] => []
  | sw :: rest => if sw.state = invalidState then [sw] else sw :: keptSwitches rest

theorem clearSwitchers_true (l : List Switcher) :
    clearSwitchers true l = List.replicate l.length terminator := by
  induction l with
  | nil => rfl
  | cons sw rest ih =>
      rw [clearSwitchers, ih]
      rfl

/-- What is left of a node's switches: those kept, and terminators. -/
theorem mem_clearSwitchers (switches zeros : List Switcher) :
    sw ∈ clearSwitchers false (switches ++ terminator :: zeros) ↔
      sw ∈ keptSwitches switches ∨ sw = terminator := by
  induction switches with
  | nil =>
      have hfinal : decide (terminator.state = invalidState) = true := rfl
      rw [List.nil_append, clearSwitchers, hfinal, clearSwitchers_true, keptSwitches]
      simp
  | cons sw' rest ih =>
      rw [List.cons_append, clearSwitchers, keptSwitches, List.mem_cons]
      by_cases hfinal : sw'.state = invalidState
      · rw [if_pos hfinal, decide_eq_true hfinal, clearSwitchers_true]
        simp
      · rw [if_neg hfinal, decide_eq_false hfinal, ih, List.mem_cons, or_assoc]

theorem keptSwitches_initial (switches : List Switcher) : keptSwitches switches <+: switches := by
  induction switches with
  | nil => exact List.prefix_refl _
  | cons sw rest ih =>
      rw [keptSwitches]
      split
      · exact (List.prefix_cons_inj sw).mpr List.nil_prefix
      · exact (List.prefix_cons_inj sw).mpr ih

/-- A switch that leads to the final state is the last of its node. -/
def FinalLast (switches : List Switcher) : Prop :=
  ∀ sw ∈ switches.dropLast, sw.state ≠ invalidState

theorem keptSwitches_eq_iff (switches : List Switcher) :
    keptSwitches switches = switches ↔ FinalLast switches := by
  induction switches with
  | nil => simp [keptSwitches, FinalLast]
  | cons sw rest ih =>
      unfold FinalLast at ih ⊢
      rw [keptSwitches]
      cases rest with
      | nil => simp [keptSwitches]
      | cons sw' rest =>
          rw [List.dropLast_cons_cons, List.forall_mem_cons]
          by_cases hfinal : sw.state = invalidState
          · simp [hfinal]
          · rw [if_neg hfinal, List.cons_inj_right, ih]
            simp [hfinal]

/-! ## The lookup -/

/-- A table as the macros can declare it. -/
structure WellFormed (decls : List NodeDecl) : Prop where
  states : (decls.map NodeDecl.state).Nodup
  state_valid : ∀ decl ∈ decls, decl.state ≠ invalidState
  events : ∀ decl ∈ decls, (decl.switches.map Switcher.event).Nodup
  event_valid : ∀ decl ∈ decls, ∀ sw ∈ decl.switches, sw.event ≠ invalidEvent
  fits : ∀ decl ∈ decls, decl.switches.length < maxSwitchNum

theorem mem_nodeArr {node : FsmNode} :
    node ∈ nodeArr decls ↔ (∃ decl ∈ decls, decl.node = node) ∨ node = endNode := by
  simp [nodeArr]

/-- The switches of a node after the sort. -/
def sortedSwitchers (lib : StdLib) (node : FsmNode) : List Switcher :=
  lib.qsort switcherCmp (clearSwitchers false node.switcher)

/-- Sorting the switches of the nodes does not disturb the search for a state. -/
theorem bsearch_node (hlib : lib.Correct) {state : ℤ} (hstate : state ≠ invalidState)
    (arr : List FsmNode) :
    (∀ node, lib.bsearch fsmNodeCmp ⟨state, []⟩ (fsmNodeArrSort lib arr) = some node →
        ∃ node' ∈ arr, node'.state = state ∧ node.switcher = sortedSwitchers lib node') ∧
      (lib.bsearch fsmNodeCmp ⟨state, []⟩ (fsmNodeArrSort lib arr) = none →
        ∀ node' ∈ arr, node'.state ≠ state) := by
  have hperm := hlib.qsort_perm fsmNodeCmp arr
  have hsorted := hlib.qsort_sorted fsmNodeCmp arr (idCmp_isStrictWeakOrder FsmNode.state)
  have hsorted' : (fsmNodeArrSort lib arr).Pairwise fun a b ↦ ¬ idCmp b.state a.state < 0 :=
    List.pairwise_map.mpr hsorted
  constructor
  · intro node hfound
    rcases hlib.bsearch_some _ _ _ _ hfound with ⟨hmem, hzero⟩
    rcases List.mem_map.mp hmem with ⟨node', hnode', rfl⟩
    exact ⟨node', hperm.mem_iff.mp hnode', ((idCmp_eq_zero_iff _ _).mp hzero).2.symm, rfl⟩
  · intro hmissing node' hnode' heq
    have hpart := partitioned_of_sorted FsmNode.state ⟨state, []⟩ hsorted'
    have hnot := hlib.bsearch_none fsmNodeCmp _ _ hpart hmissing _
      (List.mem_map_of_mem (hperm.mem_iff.mpr hnode'))
    exact hnot ((idCmp_eq_zero_iff _ _).mpr ⟨hstate, heq.symm⟩)

/-- The search for an event in a sorted node. -/
theorem bsearch_switcher (hlib : lib.Correct) {event : ℤ} (hevent : event ≠ invalidEvent)
    (decl : NodeDecl) :
    (∀ sw, lib.bsearch switcherCmp ⟨0, event, 0, 0⟩ (sortedSwitchers lib decl.node) = some sw →
        sw ∈ keptSwitches decl.switches ∧ sw.event = event) ∧
      (lib.bsearch switcherCmp ⟨0, event, 0, 0⟩ (sortedSwitchers lib decl.node) = none →
        ∀ sw ∈ keptSwitches decl.switches, sw.event ≠ event) := by
  have hperm := hlib.qsort_perm switcherCmp (clearSwitchers false decl.node.switcher)
  have hsorted := hlib.qsort_sorted switcherCmp (clearSwitchers false decl.node.switcher)
    (idCmp_isStrictWeakOrder Switcher.event)
  constructor
  · intro sw hfound
    rcases hlib.bsearch_some _ _ _ _ hfound with ⟨hmem, hzero⟩
    have heq : sw.event = event := ((idCmp_eq_zero_iff _ _).mp hzero).2.symm
    rcases (mem_clearSwitchers _ _).mp (hperm.mem_iff.mp hmem) with hkept | rfl
    · exact ⟨hkept, heq⟩
    · exact absurd heq.symm hevent
  · intro hmissing sw hsw heq
    have hpart := partitioned_of_sorted Switcher.event ⟨0, event, 0, 0⟩ hsorted
    have hmem := hperm.mem_iff.mpr ((mem_clearSwitchers decl.switches _).mpr (.inl hsw))
    exact hlib.bsearch_none switcherCmp _ _ hpart hmissing sw hmem
      ((idCmp_eq_zero_iff _ _).mpr ⟨hevent, heq.symm⟩)

theorem WellFormed.decl_unique (hwf : WellFormed decls) {decl decl' : NodeDecl}
    (h : decl ∈ decls) (h' : decl' ∈ decls) (heq : decl.state = decl'.state) : decl = decl' :=
  List.inj_on_of_nodup_map hwf.states h h' heq

theorem WellFormed.switch_unique (hwf : WellFormed decls) (h : decl ∈ decls) {sw sw' : Switcher}
    (hsw : sw ∈ decl.switches) (hsw' : sw' ∈ decl.switches) (heq : sw.event = sw'.event) :
    sw = sw' := List.inj_on_of_nodup_map (hwf.events decl h) hsw hsw' heq

/-- The lookup finds the kept switches of the declared node. -/
theorem fsmLookup_eq_some_iff (hlib : lib.Correct) (hwf : WellFormed decls) {state event : ℤ}
    (hstate : state ≠ invalidState) (hevent : event ≠ invalidEvent) (sw : Switcher) :
    fsmLookup lib (fsmNodeArrSort lib (nodeArr decls)) state event = some sw ↔
      ∃ decl ∈ decls, decl.state = state ∧ sw ∈ keptSwitches decl.switches ∧ sw.event = event := by
  have hnode := bsearch_node hlib hstate (nodeArr decls)
  unfold fsmLookup
  cases hfound : lib.bsearch fsmNodeCmp ⟨state, []⟩ (fsmNodeArrSort lib (nodeArr decls)) with
  | none =>
      rw [hfound] at hnode
      have hmissing := hnode.2 rfl
      constructor
      · intro hnone
        cases hnone
      · rintro ⟨decl, hdecl, rfl, -⟩
        exact absurd rfl (hmissing decl.node (mem_nodeArr.mpr (.inl ⟨decl, hdecl, rfl⟩)))
  | some node =>
      rcases hnode.1 node hfound with ⟨node', hnode', hstate', hswitcher⟩
      rcases mem_nodeArr.mp hnode' with ⟨decl, hdecl, rfl⟩ | rfl
      · have hsearch := bsearch_switcher hlib hevent decl
        rw [Option.bind_eq_bind, Option.bind_some, hswitcher]
        constructor
        · intro hsw
          rcases hsearch.1 sw hsw with ⟨hkept, hev⟩
          exact ⟨decl, hdecl, hstate', hkept, hev⟩
        · rintro ⟨decl', hdecl', heq, hkept, hev⟩
          have hsame := hwf.decl_unique hdecl' hdecl (heq.trans hstate'.symm)
          subst hsame
          cases hresult : lib.bsearch switcherCmp ⟨0, event, 0, 0⟩
              (sortedSwitchers lib decl'.node) with
          | none => exact absurd hev (hsearch.2 hresult sw hkept)
          | some sw' =>
              rcases hsearch.1 sw' hresult with ⟨hkept', hev'⟩
              have hinitial := keptSwitches_initial decl'.switches
              have hunique := hwf.switch_unique hdecl' (hinitial.subset hkept')
                (hinitial.subset hkept) (hev'.trans hev.symm)
              rw [hunique]
      · exact absurd hstate'.symm hstate

/-- The invalid event is never found. -/
theorem fsmLookup_invalidEvent (hlib : lib.Correct) (arr : List FsmNode) (state : ℤ) :
    fsmLookup lib arr state invalidEvent = none := by
  rw [Option.eq_none_iff_forall_ne_some]
  intro sw hfound
  rcases Option.bind_eq_some_iff.mp hfound with ⟨node, -, hfound⟩
  have hzero := (hlib.bsearch_some _ _ _ _ hfound).2
  exact ((idCmp_eq_zero_iff _ _).mp hzero).1 rfl

/-- Nothing declared is lost where a switch to the final state is the last one. -/
theorem fsmLookup_of_finalLast (hlib : lib.Correct) (hwf : WellFormed decls)
    (hlast : ∀ decl ∈ decls, FinalLast decl.switches) {state : ℤ} (hstate : state ≠ invalidState)
    (event : ℤ) (sw : Switcher) :
    fsmLookup lib (fsmNodeArrSort lib (nodeArr decls)) state event = some sw ↔
      ∃ decl ∈ decls, decl.state = state ∧ sw ∈ decl.switches ∧ sw.event = event := by
  by_cases hevent : event = invalidEvent
  · rw [hevent, fsmLookup_invalidEvent hlib]
    constructor
    · intro hnone
      cases hnone
    · rintro ⟨decl, hdecl, -, hsw, heq⟩
      exact absurd heq (hwf.event_valid decl hdecl sw hsw)
  · rw [fsmLookup_eq_some_iff hlib hwf hstate hevent sw]
    constructor
    · rintro ⟨decl, hdecl, heq, hkept, hev⟩
      exact ⟨decl, hdecl, heq, (keptSwitches_initial _).subset hkept, hev⟩
    · rintro ⟨decl, hdecl, heq, hsw, hev⟩
      rw [← (keptSwitches_eq_iff _).mpr (hlast decl hdecl)] at hsw
      exact ⟨decl, hdecl, heq, hsw, hev⟩

/-- The lookup finds exactly the declared switches. -/
def LookupExact (lib : StdLib) (decls : List NodeDecl) : Prop :=
  ∀ state event, state ≠ invalidState → event ≠ invalidEvent → ∀ sw,
    fsmLookup lib (fsmNodeArrSort lib (nodeArr decls)) state event = some sw ↔
      ∃ decl ∈ decls, decl.state = state ∧ sw ∈ decl.switches ∧ sw.event = event

/-- The lookup sees exactly the declared switches just if in every node a switch to the final state
is the last one. -/
theorem fsm_lookup_exact (hlib : lib.Correct) (hwf : WellFormed decls) :
    LookupExact lib decls ↔ ∀ decl ∈ decls, FinalLast decl.switches := by
  constructor
  · intro hexact decl hdecl
    rw [← keptSwitches_eq_iff]
    have hinitial := keptSwitches_initial decl.switches
    have hsubset : decl.switches ⊆ keptSwitches decl.switches := by
      intro sw hsw
      have hfound := (hexact decl.state sw.event (hwf.state_valid decl hdecl)
        (hwf.event_valid decl hdecl sw hsw) sw).mpr ⟨decl, hdecl, rfl, hsw, rfl⟩
      rcases (fsmLookup_eq_some_iff hlib hwf (hwf.state_valid decl hdecl)
        (hwf.event_valid decl hdecl sw hsw) sw).mp hfound with ⟨decl', hdecl', heq, hkept, -⟩
      rwa [hwf.decl_unique hdecl' hdecl heq] at hkept
    have hnodup : decl.switches.Nodup := List.Nodup.of_map Switcher.event (hwf.events decl hdecl)
    exact hinitial.eq_of_length_le (hnodup.subperm hsubset).length_le
  · intro hlast state event hstate _ sw
    exact fsmLookup_of_finalLast hlib hwf hlast hstate event sw

/-! ## Two tables -/

/-- A stable sort and a linear search. -/
def plainLib : StdLib where
  qsort cmp arr := arr.mergeSort fun a b ↦ ¬ cmp b a < 0
  bsearch cmp key arr := arr.find? fun a ↦ cmp key a = 0

/-- In a strict weak order "not below" is transitive. -/
theorem not_lt_trans {α : Type} {lt : α → α → Prop} (h : IsStrictWeakOrder α lt) {a b c : α}
    (hab : ¬ lt b a) (hbc : ¬ lt c b) : ¬ lt c a := by
  intro hca
  have hab' : ¬ lt a b := fun hlt ↦ hbc (h.trans c a b hca hlt)
  have hbc' : ¬ lt b c := fun hlt ↦ hab (h.trans b c a hlt hca)
  exact (h.incomp_trans a b c ⟨hab', hab⟩ ⟨hbc', hbc⟩).2 hca

theorem plainLib_correct : plainLib.Correct where
  qsort_perm cmp arr := List.mergeSort_perm arr _
  qsort_sorted := by
    intro α cmp arr h
    refine (List.pairwise_mergeSort ?_ ?_ arr).imp of_decide_eq_true
    · intro a b c hab hbc
      exact decide_eq_true (not_lt_trans h (of_decide_eq_true hab) (of_decide_eq_true hbc))
    · intro a b
      rw [Bool.or_eq_true, decide_eq_true_iff, decide_eq_true_iff]
      by_contra hboth
      rcases not_or.mp hboth with ⟨hba, hab⟩
      exact h.irrefl a (h.trans a b a (not_not.mp hab) (not_not.mp hba))
  bsearch_some := by
    intro α cmp key a arr hfound
    exact ⟨List.mem_of_find?_eq_some hfound, by simpa using List.find?_some hfound⟩
  bsearch_none := by
    intro α cmp key arr _ hmissing a ha
    have hnot := List.find?_eq_none.mp hmissing a ha
    simpa using hnot

instance (decls : List NodeDecl) : Decidable (WellFormed decls) :=
  decidable_of_iff
    ((decls.map NodeDecl.state).Nodup ∧ (∀ decl ∈ decls, decl.state ≠ invalidState) ∧
      (∀ decl ∈ decls, (decl.switches.map Switcher.event).Nodup) ∧
      (∀ decl ∈ decls, ∀ sw ∈ decl.switches, sw.event ≠ invalidEvent) ∧
      ∀ decl ∈ decls, decl.switches.length < maxSwitchNum)
    ⟨fun ⟨h₁, h₂, h₃, h₄, h₅⟩ ↦ ⟨h₁, h₂, h₃, h₄, h₅⟩, fun h ↦
      ⟨h.states, h.state_valid, h.events, h.event_valid, h.fits⟩⟩

instance (switches : List Switcher) : Decidable (FinalLast switches) :=
  inferInstanceAs (Decidable (∀ _ ∈ _, _ ≠ _))

/-- Two states that switch into each other, the second with a final state behind. -/
def watchDecls : List NodeDecl :=
  [⟨2, [⟨1, 4, 11, 0⟩, ⟨invalidState, 8, 12, 0⟩]⟩, ⟨1, [⟨2, 2, 10, 0⟩]⟩]

theorem fsm_lookup_exact_watch :
    fsmLookup plainLib (fsmNodeArrSort plainLib (nodeArr watchDecls)) 2 8 =
      some ⟨invalidState, 8, 12, 0⟩ := by
  have hwf : WellFormed watchDecls := by decide
  have hexact := (fsm_lookup_exact plainLib_correct hwf).mpr (by decide)
  exact (hexact 2 8 (by decide) (by decide) _).mpr
    ⟨_, List.mem_cons_self, rfl, by decide, rfl⟩

/-- A node with the switch to the final state in front of another one. -/
def finalFirst : List NodeDecl := [⟨1, [⟨invalidState, 8, 12, 0⟩, ⟨2, 2, 10, 0⟩]⟩]

theorem fsm_lookup_loses_switch :
    WellFormed finalFirst ∧ plainLib.Correct ∧
      fsmLookup plainLib (fsmNodeArrSort plainLib (nodeArr finalFirst)) 1 2 = none ∧
      ¬ LookupExact plainLib finalFirst := by
  have hwf : WellFormed finalFirst := by decide
  have hnone : fsmLookup plainLib (fsmNodeArrSort plainLib (nodeArr finalFirst)) 1 2 = none := by
    rw [Option.eq_none_iff_forall_ne_some]
    intro sw hsw
    rcases (fsmLookup_eq_some_iff plainLib_correct hwf (by decide) (by decide) sw).mp hsw with
      ⟨decl, hdecl, -, hkept, hevent⟩
    obtain rfl := List.mem_singleton.mp hdecl
    obtain rfl := List.mem_singleton.mp hkept
    exact absurd hevent (by decide)
  refine ⟨hwf, plainLib_correct, hnone, ?_⟩
  intro hexact
  have hfound := (hexact 1 2 (by decide) (by decide) ⟨2, 2, 10, 0⟩).mpr
    ⟨_, List.mem_singleton_self _, rfl, by decide, rfl⟩
  rw [hnone] at hfound
  cases hfound

end CPractice.Fsm
