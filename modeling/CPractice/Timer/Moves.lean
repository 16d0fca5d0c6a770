import CPractice.Timer.History

/-!
# What a cascade moves

A list is sorted by time, so the nodes with less than a unit of the level left are its front.  The
cascade takes them one after another, puts each into the lower list for its time, and stops at the
first node that has a unit left.
-/

namespace CPractice.Timer

variable {t : LiskTimer} {id level : ℕ} {live : ℕ → Option TimerNode} {history : List (ℕ × ℕ)}
  {lists : ℕ → List ℕ}

/-- The time left of a node is below the unit of the level. -/
def BelowUnit (t : LiskTimer) (level id : ℕ) : Prop := trigOf t.node id - t.clock < msLimit level

instance (t : LiskTimer) (level id : ℕ) : Decidable (BelowUnit t level id) :=
  inferInstanceAs (Decidable (trigOf t.node id - t.clock < msLimit level))

/-- The lists after a cascade of the level: its nodes with less than a unit left are in the lower
lists for their times, and everything else is where it was and in the same order. -/
structure Moves (t : LiskTimer) (level : ℕ) (lists : ℕ → List ℕ) : Prop where
  rest : lists level = (t.list level).filter fun id ↦ decide (¬ BelowUnit t level id)
  above : ∀ level', level < level' → lists level' = t.list level'
  lower : ∀ level' < level, ∀ id, id ∈ lists level' ↔
    id ∈ t.list level' ∨
      (id ∈ t.list level ∧ BelowUnit t level id ∧ insLevel t.clock (trigOf t.node id) = level')
  kept : ∀ level' < level, (t.list level').Sublist (lists level')

theorem cascadeGuard_iff {content : TimerNode} (hlevel : level < maxTimerLevel)
    (hnode : t.node id = some content) :
    cascadeGuard t.clock level content ↔ ¬ BelowUnit t level id := by
  have hunit := msLimit_pos hlevel
  rw [cascadeGuard, BelowUnit, trigOf_eq hnode, Nat.one_le_div_iff hunit]
  omega

/-- A node with less than a unit left belongs in a lower list. -/
theorem insLevel_lt_of_below (hpos : 0 < level) (h : BelowUnit t level id) :
    insLevel t.clock (trigOf t.node id) < level := by
  rcases insLevel_spec t.clock (trigOf t.node id) with hzero | ⟨-, hle⟩
  · omega
  · by_contra hge
    have hmono := msLimit_mono (Nat.not_lt.mp hge) (insLevel_lt t.clock (trigOf t.node id))
    rw [BelowUnit] at h
    omega

theorem Moves.moved (h : Moves t level lists) (hpos : 0 < level)
    (hmem : id ∈ t.list level) (hbelow : BelowUnit t level id) :
    ∃ level' < level, id ∈ lists level' := by
  have hlower := insLevel_lt_of_below hpos hbelow
  exact ⟨_, hlower, (h.lower _ hlower id).mpr (.inr ⟨hmem, hbelow, rfl⟩)⟩

/-- Nothing moves where no node has less than a unit left. -/
theorem Moves.none (h : ∀ id ∈ t.list level, ¬ BelowUnit t level id) : Moves t level t.list where
  rest := by
    symm
    rw [List.filter_eq_self]
    intro id hid
    exact decide_eq_true (h id hid)
  above _ _ := rfl
  lower level' _ id :=
    ⟨.inl, fun hid ↦ hid.elim (fun hmem ↦ hmem) fun ⟨hmem, hbelow, _⟩ ↦ absurd hbelow (h id hmem)⟩
  kept _ _ := List.Sublist.refl _

/-! ## One move -/

theorem mem_moved {content : TimerNode} {cur level' : ℕ} :
    cur ∈ (moved t id content).list level' ↔
      (cur ∈ t.list level' ∧ cur ≠ id) ∨ level' = insLevel t.clock content.trig ∧ cur = id := by
  rw [moved, mem_place]
  exact or_congr_left mem_unlink

/-- The front of a list that goes to another one leaves the rest of its list. -/
theorem Inv.moved_front (h : Inv t) {content : TimerNode} {rest : List ℕ}
    (hlist : t.list level = id :: rest) (hne : level ≠ insLevel t.clock content.trig) :
    (Timer.moved t id content).list level = rest := by
  have hnodup := h.nodup level
  rw [hlist] at hnodup
  have hnot := (List.nodup_cons.mp hnodup).1
  simp only [Timer.moved, LiskTimer.place, LiskTimer.write, LiskTimer.unlink,
    Function.update_of_ne hne, hlist]
  rw [List.filter_cons_of_neg (by simp), List.filter_eq_self]
  intro cur hcur
  exact decide_eq_true fun heq ↦ hnot (heq ▸ hcur)

/-- The other lists keep their nodes in order, and only the list for its time gets the node. -/
theorem Inv.moved_other (h : Inv t) {content : TimerNode} {level' : ℕ} (hmem : id ∈ t.list level)
    (hne : level' ≠ level) :
    (t.list level').Sublist ((Timer.moved t id content).list level') ∧
      (level' ≠ insLevel t.clock content.trig →
        (Timer.moved t id content).list level' = t.list level') := by
  have hkept : (t.list level').filter (· ≠ id) = t.list level' := by
    rw [List.filter_eq_self]
    rintro cur hcur
    refine decide_eq_true ?_
    rintro rfl
    exact hne (h.apart _ _ _ hcur hmem)
  simp only [Timer.moved, LiskTimer.place, LiskTimer.write, LiskTimer.unlink]
  constructor
  · by_cases heq : level' = insLevel t.clock content.trig
    · subst heq
      simp only [Function.update_self, hkept]
      exact List.sublist_orderedInsert _ _
    · simp only [Function.update_of_ne heq, hkept]
      exact List.Sublist.refl _
  · intro heq
    simp only [Function.update_of_ne heq, hkept]

/-- The front of the list is moved, and then the others. -/
theorem Moves.cons {content : TimerNode} {rest : List ℕ} (hinv : Inv t) (hpos : 0 < level)
    (hlist : t.list level = id :: rest)
    (hnode : t.node id = some content) (hbelow : BelowUnit t level id)
    (h : Moves { t with list := (Timer.moved t id content).list } level lists) :
    Moves t level lists := by
  have hmem : id ∈ t.list level := hlist ▸ List.mem_cons_self
  have hlower := insLevel_lt_of_below hpos hbelow
  rw [trigOf_eq hnode] at hlower
  have hrest := hinv.moved_front hlist (Nat.ne_of_gt hlower)
  constructor
  · rw [h.rest, hlist, List.filter_cons_of_neg (by simpa using hbelow)]
    exact congrArg (List.filter _) hrest
  · intro level' hlt
    rw [h.above level' hlt]
    exact (hinv.moved_other hmem (Nat.ne_of_gt hlt)).2 (by omega)
  · intro level' hlt cur
    rw [h.lower level' hlt cur]
    change cur ∈ (Timer.moved t id content).list level' ∨
      (cur ∈ (Timer.moved t id content).list level ∧ BelowUnit t level cur ∧
        insLevel t.clock (trigOf t.node cur) = level') ↔ _
    rw [mem_moved, hrest, hlist, List.mem_cons]
    by_cases heq : cur = id
    · have hnot : id ∉ t.list level' := fun hmem' ↦ Nat.ne_of_lt hlt (hinv.apart _ _ _ hmem' hmem)
      have hnodup := hinv.nodup level
      rw [hlist] at hnodup
      simp [heq, hnot, (List.nodup_cons.mp hnodup).1, hbelow, trigOf_eq hnode, eq_comm]
    · simp [heq]
  · intro level' hlt
    exact (hinv.moved_other hmem (Nat.ne_of_lt hlt)).1.trans (h.kept level' hlt)

/-! ## The loop -/

/-- The loop ends, moves just these nodes, and keeps the lists tidy. -/
theorem cascadeLoop_moves (hpos : 0 < level) (hlevel : level < maxTimerLevel) {turns : ℕ}
    (h : Tidy t history live) (hturns : (t.list level).length < turns) :
    ∃ lists, cascadeLoop level turns t = some { t with list := lists } ∧ Moves t level lists ∧
      Tidy { t with list := lists } (history ++ cascadeLog level turns t) live := by
  induction turns generalizing t history with
  | zero => exact absurd hturns (Nat.not_lt_zero _)
  | succ turns ih =>
      rw [cascadeLoop, cascadeLog]
      cases hlist : t.list level with
      | nil =>
          refine ⟨t.list, rfl, Moves.none ?_, by simpa using h⟩
          rw [hlist]
          simp
      | cons cur rest =>
          have hmem : cur ∈ t.list level := hlist ▸ List.mem_cons_self
          have hlinked := h.inv.linked hmem
          obtain ⟨content, hnode⟩ := Option.isSome_iff_exists.mp (h.inv.nodes level cur hmem).1
          have hguard := cascadeGuard_iff hlevel hnode
          simp only [hnode, Option.elim_some, Option.bind_eq_bind, Option.bind_some]
          by_cases hbelow : BelowUnit t level cur
          · rw [if_neg fun hkeeps ↦ hguard.mp hkeeps hbelow,
              if_neg fun hkeeps ↦ hguard.mp hkeeps hbelow]
            have hins := timerInsNode_own h.inv hlinked content
            rw [write_self hnode] at hins
            obtain ⟨lists₁, hmoved, -⟩ := cascaded_moved h.inv h.lives hlinked hnode
            obtain rfl : lists₁ = (moved t cur content).list := by rw [hmoved]
            have hlive := (h.lives cur content).mpr ⟨hlinked, hnode⟩
            have htidy := h.moved hlinked (h.proper cur content hlive)
            rw [← hlive, Function.update_eq_self, hmoved] at htidy
            have hlower := insLevel_lt_of_below hpos hbelow
            rw [trigOf_eq hnode] at hlower
            have hfront := h.inv.moved_front hlist (Nat.ne_of_gt hlower)
            rw [hlist, List.length_cons] at hturns
            have hless : (({ t with list := (moved t cur content).list } : LiskTimer).list
                level).length < turns := by
              rw [hfront]
              omega
            obtain ⟨lists, hloop, hmoves, htidy'⟩ := ih htidy hless
            refine ⟨lists, ?_, hmoves.cons h.inv hpos hlist hnode hbelow, ?_⟩
            · rw [hins, hmoved]
              exact hloop
            · rw [hins, hmoved]
              rw [List.append_assoc] at htidy'
              exact htidy'
          · rw [if_pos (hguard.mpr hbelow), if_pos (hguard.mpr hbelow)]
            refine ⟨t.list, rfl, Moves.none ?_, by simpa using h⟩
            have hordered := h.inv.ordered level
            rw [Ordered, hlist] at hordered
            intro id hid
            have hle : trigOf t.node cur ≤ trigOf t.node id := by
              rw [hlist] at hid
              rcases List.mem_cons.mp hid with rfl | hid
              · exact le_rfl
              · exact (List.pairwise_cons.mp hordered).1 id hid
            rw [BelowUnit] at hbelow ⊢
            omega

theorem timerCascade_moves (hpos : 0 < level) (hlevel : level < maxTimerLevel)
    (h : Tidy t history live) :
    ∃ lists, timerCascade t level = some (0, { t with list := lists }) ∧ Moves t level lists ∧
      Tidy { t with list := lists } (history ++ cascadeLog level ((t.list level).length + 1) t)
        live := by
  obtain ⟨lists, hloop, hmoves, htidy⟩ := cascadeLoop_moves hpos hlevel h (Nat.lt_succ_self _)
  refine ⟨lists, ?_, hmoves, htidy⟩
  rw [timerCascade, if_neg (by omega), hloop]
  rfl

/-- The cascades of several levels, one after another. -/
theorem cascades_tidy {levels : List ℕ} (hlevels : ∀ level ∈ levels, 0 < level)
    (h : Tidy t history live) :
    ∃ lists, levels.foldlM (fun t idx ↦ (timerCascade t idx).map Prod.snd) t =
        some { t with list := lists } ∧
      Tidy { t with list := lists } (history ++ cascadesLog t levels) live := by
  induction levels generalizing t history with
  | nil => exact ⟨t.list, rfl, by simpa [cascadesLog] using h⟩
  | cons level rest ih =>
      obtain ⟨hpos, hrest⟩ := List.forall_mem_cons.mp hlevels
      have hfirst : ∃ ret lists, timerCascade t level = some (ret, { t with list := lists }) ∧
          Tidy { t with list := lists }
            (history ++ cascadeLog level ((t.list level).length + 1) t) live := by
        by_cases hlevel : level < maxTimerLevel
        · obtain ⟨lists, hcascade, -, htidy⟩ := timerCascade_moves hpos hlevel h
          exact ⟨0, lists, hcascade, htidy⟩
        · have hempty := h.inv.levels level (Nat.not_lt.mp hlevel)
          refine ⟨-1, t.list, ?_, ?_⟩
          · rw [timerCascade, if_pos (.inr (Nat.not_lt.mp hlevel))]
          · simpa [cascadeLog, hempty] using h
      obtain ⟨ret, lists, hcascade, htidy⟩ := hfirst
      obtain ⟨lists', hfold, htidy'⟩ := ih hrest htidy
      refine ⟨lists', ?_, ?_⟩
      · rw [List.foldlM_cons, hcascade]
        exact hfold
      · rw [cascadesLog, hcascade, ← List.append_assoc]
        exact htidy'

/-! ## Clock steps -/

/-- `diff` of `timer_update`. -/
def clockDiff (t : LiskTimer) : ℕ := u4 (ptrOffset (t.time / 1000) t.clock)

/-- The timer after an accepted step of the clock, before its cascades. -/
def turned (t : LiskTimer) : LiskTimer :=
  { t with clock := t.time / 1000, hand := (turnHands t.hand (clockDiff t)).1 }

/-- The levels that an accepted step cascades: from the first one to below `max_idx`. -/
def cascadedLevels (t : LiskTimer) : List ℕ :=
  List.range' 1 ((turnHands t.hand (clockDiff t)).2.2 - 1)

/-- The moves of `timer_update`. -/
def updateLog (t : LiskTimer) : List (ℕ × ℕ) :=
  if clockDiff t < minimumDiff then [] else cascadesLog (turned t) (cascadedLevels t)

theorem timerUpdate_eq (h : minimumDiff ≤ clockDiff t) :
    timerUpdate t = ((cascadedLevels t).foldlM
      (fun t idx ↦ (timerCascade t idx).map Prod.snd) (turned t)).map fun t' ↦ (0, t') := by
  have haccepted : ¬ u4 (ptrOffset (t.time / 1000) t.clock) < minimumDiff := Nat.not_lt.mpr h
  rw [timerUpdate, Option.map_eq_bind]
  simp only [if_neg haccepted]
  rfl

/-- Every step of the clock, of whatever size, leaves tidy lists. -/
theorem timerUpdate_tidy (h : Tidy t history live) :
    ∃ ret t', timerUpdate t = some (ret, t') ∧ Tidy t' (history ++ updateLog t) live ∧
      t'.time = t.time ∧
      ((clockDiff t < minimumDiff ∧ ret = -2 ∧ t' = t) ∨
        (minimumDiff ≤ clockDiff t ∧ ret = 0 ∧ t'.clock = t.time / 1000 ∧
          t'.hand = (turnHands t.hand (clockDiff t)).1)) := by
  by_cases hsmall : clockDiff t < minimumDiff
  · refine ⟨-2, t, ?_, ?_, rfl, .inl ⟨hsmall, rfl, rfl⟩⟩
    · rw [timerUpdate]
      exact if_pos hsmall
    · rw [updateLog, if_pos hsmall, List.append_nil]
      exact h
  · have hlevels : ∀ level ∈ cascadedLevels t, 0 < level := by
      intro level hlevel
      rw [cascadedLevels, List.mem_range'_1] at hlevel
      exact hlevel.1
    have hturned : Tidy (turned t) history live := h.set_clock t.time _ _
    obtain ⟨lists, hfold, htidy⟩ := cascades_tidy hlevels hturned
    refine ⟨0, { turned t with list := lists }, ?_, ?_, rfl,
      .inr ⟨Nat.not_lt.mp hsmall, rfl, rfl, rfl⟩⟩
    · rw [timerUpdate_eq (Nat.not_lt.mp hsmall), hfold]
      rfl
    · rw [updateLog, if_neg hsmall]
      exact htidy

end CPractice.Timer
