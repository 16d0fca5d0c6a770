import CPractice.Timer.Firing
import Mathlib.Logic.Equiv.Basic

/-!
# Timers up to the addresses of their nodes

A permutation of the addresses takes the lists of one timer to those of another one, and the nodes
have the same contents (`Renamed`).  Nothing is said about the ring and the nodes that are in no
list.  Clock steps and the moving and erasing of nodes do not tell such timers apart, and neither
does `timer_add` as long as the nodes it takes are in no list.
-/

namespace CPractice.Timer

variable {t t' : LiskTimer} {σ : Equiv.Perm ℕ} {id level : ℕ} {content : TimerNode}

/-- The lists of the second timer are those of the first one under other addresses. -/
structure Renamed (σ : Equiv.Perm ℕ) (t t' : LiskTimer) : Prop where
  time : t'.time = t.time
  clock : t'.clock = t.clock
  hand : t'.hand = t.hand
  levels : ∀ level, maxTimerLevel ≤ level → t.list level = []
  list : ∀ level, t'.list level = (t.list level).map σ
  node : ∀ level, ∀ id ∈ t.list level,
    ∃ content, t.node id = some content ∧ t'.node (σ id) = some content
  not_null : ∀ level, 0 ∉ t'.list level

/-- A timer, and one that differs in nodes which are in no list. -/
theorem Inv.renamed (h : Inv t) (hlist : t'.list = t.list) (htime : t'.time = t.time)
    (hclock : t'.clock = t.clock) (hhand : t'.hand = t.hand)
    (hnode : ∀ level, ∀ id ∈ t.list level, t'.node id = t.node id) :
    Renamed (Equiv.refl ℕ) t t' where
  time := htime
  clock := hclock
  hand := hhand
  levels := h.levels
  list level := by
    rw [hlist, Equiv.coe_refl, List.map_id]
  node level id hid := by
    rcases Option.isSome_iff_exists.mp (h.nodes level id hid).1 with ⟨content, hcontent⟩
    exact ⟨content, hcontent, (hnode level id hid).trans hcontent⟩
  not_null level hmem := (h.nodes level 0 (hlist ▸ hmem)).2 rfl

namespace Renamed

theorem mem_iff (h : Renamed σ t t') : σ id ∈ t'.list level ↔ id ∈ t.list level := by
  rw [h.list, List.mem_map_of_injective σ.injective]

theorem linked_iff (h : Renamed σ t t') : t'.Linked (σ id) ↔ t.Linked id := by
  simp only [LiskTimer.Linked, h.mem_iff]

theorem linked (h : Renamed σ t t') (hmem : id ∈ t.list level) : t.Linked id := by
  refine ⟨level, ?_, hmem⟩
  by_contra hge
  rw [h.levels level (Nat.not_lt.mp hge)] at hmem
  cases hmem

theorem isSome (h : Renamed σ t t') (hmem : id ∈ t.list level) : (t.node id).isSome := by
  rcases h.node level id hmem with ⟨content, hcontent, -⟩
  rw [hcontent]
  rfl

theorem isSome' (h : Renamed σ t t') (hmem : id ∈ t'.list level) : (t'.node id).isSome := by
  rw [h.list] at hmem
  rcases List.mem_map.mp hmem with ⟨cur, hcur, rfl⟩
  rcases h.node level cur hcur with ⟨content, -, hcontent⟩
  rw [hcontent]
  rfl

theorem node_eq (h : Renamed σ t t') (hlinked : t.Linked id) (hnode : t.node id = some content) :
    t'.node (σ id) = some content := by
  rcases hlinked with ⟨level, -, hmem⟩
  rcases h.node level id hmem with ⟨other, hother, hother'⟩
  rw [hother] at hnode
  rw [hother', hnode]

/-! ## Nodes are unlinked, written and placed -/

theorem unlink (h : Renamed σ t t') (id : ℕ) : Renamed σ (t.unlink id) (t'.unlink (σ id)) where
  time := h.time
  clock := h.clock
  hand := h.hand
  levels level hlevel := by
    rw [LiskTimer.unlink]
    simp only [h.levels level hlevel, List.filter_nil]
  list level := by
    simp only [LiskTimer.unlink, h.list, List.filter_map, Function.comp_def, ne_eq,
      EmbeddingLike.apply_eq_iff_eq]
  node level cur hcur := h.node level cur (mem_unlink.mp hcur).1
  not_null level hmem := h.not_null level (mem_unlink.mp hmem).1

theorem write (h : Renamed σ t t') (id : ℕ) (content : TimerNode) :
    Renamed σ (t.write id content) (t'.write (σ id) content) where
  time := h.time
  clock := h.clock
  hand := h.hand
  levels := h.levels
  list := h.list
  node level cur hcur := by
    rcases h.node level cur hcur with ⟨other, hother, hother'⟩
    by_cases heq : cur = id
    · rw [heq]
      exact ⟨content, Function.update_self .., Function.update_self ..⟩
    · refine ⟨other, ?_, ?_⟩
      · exact (Function.update_of_ne heq ..).trans hother
      · exact (Function.update_of_ne (fun hσ ↦ heq (σ.injective hσ)) ..).trans hother'
  not_null := h.not_null

theorem place (h : Renamed σ t t') (hlevel : level < maxTimerLevel) (hnode : t.node id = some content)
    (hnode' : t'.node (σ id) = some content) (hid' : σ id ≠ 0) :
    Renamed σ (t.place level id) (t'.place level (σ id)) where
  time := h.time
  clock := h.clock
  hand := h.hand
  levels level' hlevel' := by
    have hne : level' ≠ level := by omega
    rw [LiskTimer.place]
    simp only [Function.update_of_ne hne, h.levels level' hlevel']
  list level' := by
    simp only [LiskTimer.place]
    by_cases heq : level' = level
    · subst heq
      rw [Function.update_self, Function.update_self, h.list]
      have htrig : ∀ cur ∈ t.list level', trigOf t'.node (σ cur) = trigOf t.node cur := by
        intro cur hcur
        rcases h.node level' cur hcur with ⟨other, hother, hother'⟩
        rw [trigOf_eq hother, trigOf_eq hother']
      refine (List.map_orderedInsert _ _ σ _ _ ?_ ?_).symm
      · intro cur hcur
        rw [Earlier, Earlier, htrig cur hcur, trigOf_eq hnode, trigOf_eq hnode']
      · intro cur hcur
        rw [Earlier, Earlier, htrig cur hcur, trigOf_eq hnode, trigOf_eq hnode']
    · rw [Function.update_of_ne heq, Function.update_of_ne heq, h.list]
  node level' cur hcur := by
    rcases mem_place.mp hcur with hmem | ⟨-, rfl⟩
    · exact h.node level' cur hmem
    · exact ⟨content, hnode, hnode'⟩
  not_null level' hmem := by
    rcases mem_place.mp hmem with hmem | ⟨-, heq⟩
    · exact h.not_null level' hmem
    · exact hid' heq.symm

/-- The address of a node of a list is not null in the second timer either. -/
theorem ne_zero (h : Renamed σ t t') (hlinked : t.Linked id) : σ id ≠ 0 := by
  rcases hlinked with ⟨level, -, hmem⟩
  intro hzero
  exact h.not_null level (hzero ▸ h.mem_iff.mpr hmem)

/-- A node of a list is moved to the list for its time. -/
theorem timerInsNode (h : Renamed σ t t') (hlinked : t.Linked id) {out : (ℤ × ℕ) × LiskTimer}
    (hout : timerInsNode t (.own id) = some out) :
    ∃ u', Timer.timerInsNode t' (.own (σ id)) = some ((0, σ id), u') ∧ Renamed σ out.2 u' := by
  have ⟨level, _, hmem⟩ := hlinked
  rcases h.node level id hmem with ⟨content, hnode, hnode'⟩
  rw [timerInsNode_place hnode hlinked fun _ _ hcur ↦ h.isSome hcur] at hout
  cases hout
  refine ⟨_, timerInsNode_place hnode' (h.linked_iff.mpr hlinked) fun _ _ hcur ↦ h.isSome' hcur, ?_⟩
  rw [h.clock]
  exact (h.unlink id).place (insLevel_lt _ _) hnode hnode' (h.ne_zero hlinked)

/-! ## Clock steps -/

theorem cascadeLoop (h : Renamed σ t t') {turns : ℕ} {u : LiskTimer}
    (hu : cascadeLoop level turns t = some u) :
    ∃ u', Timer.cascadeLoop level turns t' = some u' ∧ Renamed σ u u' := by
  induction turns generalizing t t' with
  | zero => cases hu
  | succ turns ih =>
      rw [Timer.cascadeLoop] at hu
      rw [Timer.cascadeLoop, h.list level]
      cases hlist : t.list level with
      | nil =>
          rw [hlist] at hu
          cases hu
          exact ⟨t', rfl, h⟩
      | cons cur rest =>
          have hmem : cur ∈ t.list level := hlist ▸ List.mem_cons_self
          rcases h.node level cur hmem with ⟨content, hnode, hnode'⟩
          rw [hlist] at hu
          simp only [hnode, Option.bind_eq_bind, Option.bind_some] at hu
          simp only [List.map_cons, hnode', Option.bind_eq_bind, Option.bind_some, h.clock]
          by_cases hguard : cascadeGuard t.clock level content
          · rw [if_pos hguard] at hu
            cases hu
            rw [if_pos hguard]
            exact ⟨t', rfl, h⟩
          · rw [if_neg hguard] at hu
            rw [if_neg hguard]
            rcases Option.bind_eq_some_iff.mp hu with ⟨out, hout, hrest⟩
            rcases h.timerInsNode (h.linked hmem) hout with ⟨u₁, hu₁, hrenamed⟩
            rw [hu₁]
            exact ih hrenamed hrest

theorem timerCascade (h : Renamed σ t t') {u : LiskTimer}
    (hu : (timerCascade t level).map Prod.snd = some u) :
    ∃ u', (Timer.timerCascade t' level).map Prod.snd = some u' ∧ Renamed σ u u' := by
  rw [Timer.timerCascade] at hu ⊢
  split at hu
  · next hlevel =>
      cases hu
      rw [if_pos hlevel]
      exact ⟨t', rfl, h⟩
  · next hlevel =>
      rw [if_neg hlevel, h.list, List.length_map]
      rw [Option.map_map] at hu
      rcases Option.map_eq_some_iff.mp hu with ⟨u, hloop, rfl⟩
      rcases h.cascadeLoop hloop with ⟨u', hloop', hrenamed⟩
      rw [hloop']
      exact ⟨u', rfl, hrenamed⟩

theorem cascades (h : Renamed σ t t') {levels : List ℕ} {u : LiskTimer}
    (hu : levels.foldlM (fun t idx ↦ (Timer.timerCascade t idx).map Prod.snd) t = some u) :
    ∃ u', levels.foldlM (fun t idx ↦ (Timer.timerCascade t idx).map Prod.snd) t' = some u' ∧
      Renamed σ u u' := by
  induction levels generalizing t t' with
  | nil =>
      cases hu
      exact ⟨t', rfl, h⟩
  | cons level levels ih =>
      rw [List.foldlM_cons] at hu ⊢
      rcases Option.bind_eq_some_iff.mp hu with ⟨u₁, hcascade, hrest⟩
      rcases h.timerCascade hcascade with ⟨u₁', hcascade', hrenamed⟩
      rw [hcascade']
      exact ih hrenamed hrest

theorem timerUpdate (h : Renamed σ t t') {ret : ℤ} {u : LiskTimer}
    (hu : timerUpdate t = some (ret, u)) :
    ∃ u', Timer.timerUpdate t' = some (ret, u') ∧ Renamed σ u u' := by
  rw [Timer.timerUpdate] at hu
  rw [Timer.timerUpdate]
  simp only [h.time, h.clock, h.hand] at hu ⊢
  split at hu
  · next hlt =>
      cases hu
      rw [if_pos hlt]
      exact ⟨t', rfl, h⟩
  · next hlt =>
      rw [if_neg hlt]
      rcases Option.bind_eq_some_iff.mp hu with ⟨u, hfold, hlast⟩
      cases hlast
      have hturned : Renamed σ
          { t with
            clock := t.time / 1000
            hand := (turnHands t.hand (u4 (ptrOffset (t.time / 1000) t.clock))).1 }
          { t' with
            time := t.time
            clock := t.time / 1000
            hand := (turnHands t.hand (u4 (ptrOffset (t.time / 1000) t.clock))).1 } :=
        ⟨rfl, rfl, rfl, h.levels, h.list, h.node, h.not_null⟩
      rcases hturned.cascades hfold with ⟨u', hfold', hrenamed⟩
      simp only [Option.bind_eq_bind, hfold', Option.bind_some]
      exact ⟨u', rfl, hrenamed⟩

end Renamed

/-! ## Erasing -/

/-- A node was taken out of its list; its memory may be gone. -/
structure Erased (t : LiskTimer) (id : ℕ) (u : LiskTimer) : Prop where
  time : u.time = t.time
  clock : u.clock = t.clock
  hand : u.hand = t.hand
  list : u.list = (t.unlink id).list
  node : ∀ cur, cur ≠ id → u.node cur = t.node cur

theorem timerDelNode_erased (h : (t.node id).isSome) :
    ∃ u, timerDelNode t id = some u ∧ Erased t id u := by
  rcases timerDelNode_cases h with hdel | ⟨num, hdel⟩
  · exact ⟨_, hdel, rfl, rfl, rfl, rfl, fun _ _ ↦ rfl⟩
  · exact ⟨_, hdel, rfl, rfl, rfl, rfl, fun cur hne ↦ Function.update_of_ne hne _ _⟩

theorem Renamed.erase {u u' : LiskTimer} (h : Renamed σ t t') (hu : Erased t id u)
    (hu' : Erased t' (σ id) u') : Renamed σ u u' := by
  have hunlink := h.unlink id
  refine ⟨?_, ?_, ?_, ?_, ?_, ?_, ?_⟩
  · rw [hu'.time, hu.time, h.time]
  · rw [hu'.clock, hu.clock, h.clock]
  · rw [hu'.hand, hu.hand, h.hand]
  · rw [hu.list]
    exact hunlink.levels
  · rw [hu.list, hu'.list]
    exact hunlink.list
  · rw [hu.list]
    intro level cur hcur
    have hne := (mem_unlink.mp hcur).2
    rw [hu.node cur hne, hu'.node (σ cur) fun hσ ↦ hne (σ.injective hσ)]
    exact hunlink.node level cur hcur
  · rw [hu'.list]
    exact hunlink.not_null

/-- Erasing a node that is in no list. -/
theorem Erased.renamed {u : LiskTimer} (hu : Erased t id u) (h : Inv t) (hnot : ¬ t.Linked id) :
    Renamed (Equiv.refl ℕ) t u := by
  have hne : ∀ level, ∀ cur ∈ t.list level, cur ≠ id := by
    rintro level cur hcur rfl
    exact hnot (h.linked hcur)
  refine h.renamed ?_ hu.time hu.clock hu.hand fun level cur hcur ↦ hu.node cur (hne level cur hcur)
  rw [hu.list]
  funext level
  exact List.filter_eq_self.mpr fun cur hcur ↦ decide_eq_true (hne level cur hcur)

/-! ## Adding -/

/-- The addresses of two nodes that are in no list may be matched. -/
theorem Renamed.match_ids {id' : ℕ} (h : Renamed σ t t') (hnot : ¬ t.Linked id)
    (hnot' : ¬ t'.Linked id') :
    ∃ τ : Equiv.Perm ℕ, τ id = id' ∧ (∀ cur, t.Linked cur → τ cur = σ cur) ∧ Renamed τ t t' := by
  have hsame : ∀ cur, t.Linked cur → σ.trans (Equiv.swap (σ id) id') cur = σ cur := by
    intro cur hcur
    apply Equiv.swap_apply_of_ne_of_ne
    · intro hσ
      exact hnot (σ.injective hσ ▸ hcur)
    · intro hσ
      exact hnot' (hσ ▸ h.linked_iff.mpr hcur)
  refine ⟨σ.trans (Equiv.swap (σ id) id'), Equiv.swap_apply_left _ _, hsame, h.time, h.clock, h.hand,
    h.levels, ?_, ?_, h.not_null⟩
  · intro level
    rw [h.list]
    exact List.map_congr_left fun cur hcur ↦ (hsame cur (h.linked hcur)).symm
  · intro level cur hcur
    rw [hsame cur (h.linked hcur)]
    exact h.node level cur hcur

/-- Both timers take a node that is in no list, or neither adds a timer. -/
theorem Renamed.timerAdd {alloc alloc' : Option ℕ} {key : TimerKey} (h : Renamed σ t t')
    (hfront : FrontErased t) (hfront' : key.Legal → FrontErased t') (halloc : Fresh t alloc)
    (halloc' : Fresh t' alloc') (hgranted : alloc.isSome) (hgranted' : alloc'.isSome)
    {ret : ℤ} {u : LiskTimer} (hadd : timerAdd t key alloc = some ((ret, id), u)) :
    ∃ (τ : Equiv.Perm ℕ) (id' : ℕ) (u' : LiskTimer),
      Timer.timerAdd t' key alloc' = some ((ret, id'), u') ∧ (ret = 0 → id' = τ id) ∧
      (∀ cur, t.Linked cur → τ cur = σ cur) ∧ Renamed τ u u' := by
  by_cases hlegal : key.Legal
  · rcases timerAdd_legal (fun _ _ hcur ↦ h.isSome hcur) hfront halloc hlegal with
      ⟨rfl, -⟩ | ⟨id₁, num, ring, htakes, hadd₁⟩
    · cases hgranted
    · rcases timerAdd_legal (fun _ _ hcur ↦ h.isSome' hcur) (hfront' hlegal) halloc' hlegal with
        ⟨rfl, -⟩ | ⟨id', num', ring', htakes', hadd'⟩
      · cases hgranted'
      · rw [hadd₁] at hadd
        cases hadd
        rcases h.match_ids htakes.not_linked htakes'.not_linked with ⟨τ, rfl, hsame, hrenamed⟩
        refine ⟨τ, _, _, hadd', fun _ ↦ rfl, hsame, ?_⟩
        have hrings : Renamed τ { t with num := num, ring := ring }
            { t' with clock := t.clock, num := num', ring := ring' } :=
          ⟨hrenamed.time, rfl, hrenamed.hand, hrenamed.levels, hrenamed.list, hrenamed.node,
            hrenamed.not_null⟩
        rw [h.clock]
        exact (hrings.write id (keyNode t.clock key)).place (insLevel_lt _ _)
          (Function.update_self ..) (Function.update_self ..)
          (htakes'.ne_zero (hfront' hlegal) halloc')
  · rw [timerAdd_illegal hlegal] at hadd
    cases hadd
    exact ⟨σ, 0, t', timerAdd_illegal hlegal, by simp, fun _ _ ↦ rfl, h⟩

end CPractice.Timer
