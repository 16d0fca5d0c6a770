import CPractice.Timer.Lists

/-!
# Clock steps

A node of a list above the first waits for a tick of this level that lies between the clock and its
time (`Waits`).  It is put there more than such a tick ahead, a clock step that passes no tick of the
level leaves it waiting, and one that does cascades the level.  So no node of these lists is due.
-/

namespace CPractice.Timer

variable {t : LiskTimer} {id level clock trig : ℕ} {hand : ℕ → ℕ} {live : ℕ → Option TimerNode}

/-- A tick of the level lies between the clock and the time. -/
def Waits (clock : ℕ) (hand : ℕ → ℕ) (level trig : ℕ) : Prop :=
  level = 0 ∨ (clock < trig ∧ msLimit level ≤ low hand level + (trig - clock))

/-- The nodes of a list wait for a tick of its level. -/
def Settled (t : LiskTimer) (level : ℕ) : Prop :=
  ∀ id ∈ t.list level, Waits t.clock t.hand level (trigOf t.node id)

/-! ## The list for a time -/

theorem insLevel_lt (clock trig : ℕ) : insLevel clock trig < maxTimerLevel := by
  rw [insLevel]
  split_ifs <;> decide

theorem div_ne_zero_iff {a b : ℕ} (hb : 0 < b) : a / b ≠ 0 ↔ b ≤ a := by
  rw [ne_eq, Nat.div_eq_zero_iff_lt hb, Nat.not_lt]

/-- A node is put into a list at least a tick ahead. -/
theorem insLevel_spec (clock trig : ℕ) :
    insLevel clock trig = 0 ∨
      clock < trig ∧ msLimit (insLevel clock trig) ≤ trig - clock := by
  have hpos {level : ℕ} (hlevel : level < maxTimerLevel) := div_ne_zero_iff (a := trig - clock)
    (msLimit_pos hlevel)
  rw [insLevel]
  split_ifs with hpast h4 h3 h2 h1
  · exact .inl rfl
  · exact .inr ⟨Nat.not_le.mp hpast, (hpos (by decide)).mp h4⟩
  · exact .inr ⟨Nat.not_le.mp hpast, (hpos (by decide)).mp h3⟩
  · exact .inr ⟨Nat.not_le.mp hpast, (hpos (by decide)).mp h2⟩
  · exact .inr ⟨Nat.not_le.mp hpast, (hpos (by decide)).mp h1⟩
  · exact .inl rfl

theorem insLevel_waits (clock trig : ℕ) (hand : ℕ → ℕ) :
    Waits clock hand (insLevel clock trig) trig := by
  rcases insLevel_spec clock trig with hzero | ⟨hlt, hle⟩
  · exact .inl hzero
  · exact .inr ⟨hlt, hle.trans (Nat.le_add_left _ _)⟩

theorem msLimit_mono {level level' : ℕ} (hle : level ≤ level') (hlevel : level' < maxTimerLevel) :
    msLimit level ≤ msLimit level' := by
  induction level', hle using Nat.le_induction with
  | base => exact le_rfl
  | succ level' hle ih =>
      rw [msLimit_succ hlevel]
      exact (ih (Nat.lt_of_succ_lt hlevel)).trans
        (Nat.le_mul_of_pos_right _ (limit_pos (Nat.lt_of_succ_lt hlevel)))

/-- A node that the guard lets go leaves its list for a lower one. -/
theorem insLevel_lt_of_due {content : TimerNode} (hpos : 0 < level) (hlevel : level < maxTimerLevel)
    (hguard : ¬ cascadeGuard clock level content) : insLevel clock content.trig < level := by
  by_contra hge
  have hge := Nat.not_lt.mp hge
  rcases insLevel_spec clock content.trig with hzero | ⟨hlt, hle⟩
  · omega
  · refine hguard ⟨Nat.not_le.mpr hlt, ?_⟩
    have hmono := msLimit_mono hge (insLevel_lt clock content.trig)
    exact (Nat.one_le_div_iff (msLimit_pos hlevel)).mpr (hmono.trans hle)

/-! ## Moving a node -/

/-- The state after a content was written to a node of a list and the node was moved. -/
def moved (t : LiskTimer) (id : ℕ) (content : TimerNode) : LiskTimer :=
  ((t.unlink id).write id content).place (insLevel t.clock content.trig) id

/-- A node of a list goes to the list for its time. -/
theorem timerInsNode_place {content : TimerNode} (hnode : t.node id = some content)
    (hlinked : t.Linked id) (hlist : ∀ level, ∀ cur ∈ t.list level, (t.node cur).isSome) :
    timerInsNode t (.own id) =
      some ((0, id), (t.unlink id).place (insLevel t.clock content.trig) id) := by
  have hinsert := timerListInsert_own hnode hlinked (hlist (insLevel t.clock content.trig))
  simp only [timerInsNode, Elem.content, hnode, Option.bind_eq_bind, Option.bind_some, hinsert]
  rfl

theorem timerInsNode_own (h : Inv t) (hlinked : t.Linked id) (content : TimerNode) :
    timerInsNode (t.write id content) (.own id) = some ((0, id), moved t id content) := by
  have hnode : (t.write id content).node id = some content := Function.update_self ..
  refine timerInsNode_place hnode hlinked ?_
  intro level cur hcur
  by_cases heq : cur = id
  · rw [heq, hnode]
    rfl
  · rw [LiskTimer.write]
    simp only [Function.update_of_ne heq]
    exact (h.nodes level cur hcur).1

theorem Inv.moved (h : Inv t) (hlinked : t.Linked id) (content : TimerNode) :
    Inv (moved t id content) := by
  have hnot : ¬ (t.unlink id).Linked id := fun hmem ↦ (linked_unlink.mp hmem).2 rfl
  rcases hlinked with ⟨level, hlevel, hmem⟩
  apply ((h.unlink id).write hnot content).place (insLevel_lt _ _) hnot
  · intro hring
    exact (h.ring_nodes id hring).2.2 ⟨level, hlevel, hmem⟩
  · rw [LiskTimer.write]
    simp only [Function.update_self, Option.isSome_some]
  · exact (h.nodes level id hmem).2

theorem Lives.moved (h : Lives t live) (content : TimerNode) :
    Lives (moved t id content) (Function.update live id (some content)) := by
  have hlives := (h.unlink id).write_place (insLevel_lt t.clock content.trig) id content
  rwa [Function.update_idem] at hlives

theorem Settled.moved (h : Settled t level) (content : TimerNode) :
    Settled (moved t id content) level := by
  intro cur hcur
  rcases mem_place.mp hcur with hmem | ⟨rfl, rfl⟩
  · rcases mem_unlink.mp hmem with ⟨hmem, hne⟩
    have htrig : trigOf (Timer.moved t id content).node cur = trigOf t.node cur := by
      simp [Timer.moved, LiskTimer.place, LiskTimer.write, LiskTimer.unlink, trigOf, hne]
    rw [htrig]
    exact h cur hmem
  · have htrig : trigOf (Timer.moved t cur content).node cur = content.trig :=
      trigOf_eq (Function.update_self ..)
    rw [htrig]
    exact insLevel_waits _ _ _

theorem write_self {content : TimerNode} (h : t.node id = some content) : t.write id content = t := by
  rw [LiskTimer.write, ← h, Function.update_eq_self]

/-! ## Cascading -/

/-- What a cascade leaves: the same timers, in other lists. -/
structure Cascaded (t : LiskTimer) (live : ℕ → Option TimerNode) (lists : ℕ → List ℕ) : Prop where
  inv : Inv { t with list := lists }
  lives : Lives { t with list := lists } live
  keeps : ∀ level, Settled t level → Settled { t with list := lists } level

theorem Cascaded.refl (h : Inv t) (hlives : Lives t live) : Cascaded t live t.list :=
  ⟨h, hlives, fun _ h ↦ h⟩

theorem Cascaded.trans {lists lists' : ℕ → List ℕ} (h : Cascaded t live lists)
    (h' : Cascaded { t with list := lists } live lists') : Cascaded t live lists' :=
  ⟨h'.inv, h'.lives, fun level hsettled ↦ h'.keeps level (h.keeps level hsettled)⟩

/-- One turn: the front of the list is moved. -/
theorem cascaded_moved (h : Inv t) (hlives : Lives t live) (hlinked : t.Linked id)
    {content : TimerNode} (hnode : t.node id = some content) :
    ∃ lists, moved t id content = { t with list := lists } ∧ Cascaded t live lists := by
  have hmoved : moved t id content = { t with list := (moved t id content).list } := by
    have hwrite : Function.update t.node id (some content) = t.node := by
      rw [← hnode, Function.update_eq_self]
    simp only [moved, LiskTimer.place, LiskTimer.write, LiskTimer.unlink, hwrite]
  have hlive : Function.update live id (some content) = live := by
    rw [← (hlives id content).mpr ⟨hlinked, hnode⟩, Function.update_eq_self]
  refine ⟨_, hmoved, ?_, ?_, ?_⟩
  · rw [← hmoved]
    exact h.moved hlinked content
  · rw [← hmoved, ← hlive]
    exact hlives.moved content
  · intro level hsettled
    rw [← hmoved]
    exact hsettled.moved content

/-- The rest of a list whose front the guard keeps waits for a tick. -/
theorem settled_of_guard {cur : ℕ} {rest : List ℕ} {content : TimerNode} (h : Inv t)
    (hlist : t.list level = cur :: rest) (hnode : t.node cur = some content)
    (hlevel : level < maxTimerLevel) (hguard : cascadeGuard t.clock level content) :
    Settled t level := by
  have hle := (Nat.one_le_div_iff (msLimit_pos hlevel)).mp hguard.2
  have hordered := h.ordered level
  rw [Ordered, hlist] at hordered
  have hfirst := (List.pairwise_cons.mp hordered).1
  rw [trigOf_eq hnode] at hfirst
  intro id hid
  have htrig : content.trig ≤ trigOf t.node id := by
    rw [hlist] at hid
    rcases List.mem_cons.mp hid with rfl | hid
    · exact (trigOf_eq hnode).ge
    · exact hfirst id hid
  have hclock := Nat.not_le.mp hguard.1
  exact .inr ⟨by omega, by omega⟩

/-- The loop ends, and the nodes left in the list wait for its next tick. -/
theorem cascadeLoop_spec (hpos : 0 < level) (hlevel : level < maxTimerLevel) {turns : ℕ} (h : Inv t)
    (hlives : Lives t live) (hturns : (t.list level).length < turns) :
    ∃ lists, cascadeLoop level turns t = some { t with list := lists } ∧ Cascaded t live lists ∧
      Settled { t with list := lists } level := by
  induction turns generalizing t with
  | zero => exact absurd hturns (Nat.not_lt_zero _)
  | succ turns ih =>
      rw [cascadeLoop]
      cases hlist : t.list level with
      | nil =>
          refine ⟨t.list, rfl, Cascaded.refl h hlives, ?_⟩
          intro id hid
          rw [hlist] at hid
          cases hid
      | cons cur rest =>
          have hmem : cur ∈ t.list level := hlist ▸ List.mem_cons_self
          have hlinked := h.linked hmem
          rcases Option.isSome_iff_exists.mp (h.nodes level cur hmem).1 with ⟨content, hnode⟩
          simp only [hnode, Option.bind_eq_bind, Option.bind_some]
          by_cases hguard : cascadeGuard t.clock level content
          · rw [if_pos hguard]
            exact ⟨t.list, rfl, Cascaded.refl h hlives,
              settled_of_guard h hlist hnode hlevel hguard⟩
          · rw [if_neg hguard]
            have hins := timerInsNode_own h hlinked content
            rw [write_self hnode] at hins
            rcases cascaded_moved h hlives hlinked hnode with ⟨lists, hmoved, hcascaded⟩
            have hrest : ({ t with list := lists } : LiskTimer).list level = rest := by
              have hlower := insLevel_lt_of_due hpos hlevel hguard
              have hnodup := h.nodup level
              rw [hlist] at hnodup
              have hnot := (List.nodup_cons.mp hnodup).1
              rw [← hmoved]
              simp only [moved, LiskTimer.place, LiskTimer.write, LiskTimer.unlink,
                Function.update_of_ne (Nat.ne_of_gt hlower), hlist]
              rw [List.filter_cons_of_neg (by simp), List.filter_eq_self]
              intro id hid
              exact decide_eq_true fun heq ↦ hnot (heq ▸ hid)
            rw [hlist, List.length_cons] at hturns
            rcases ih hcascaded.inv hcascaded.lives (by rw [hrest]; omega) with
              ⟨lists', hloop, hcascaded', hsettled⟩
            refine ⟨lists', ?_, hcascaded.trans hcascaded', hsettled⟩
            rw [hins]
            simp only [Option.bind_some, hmoved]
            exact hloop

theorem timerCascade_spec (hpos : 0 < level) (h : Inv t) (hlives : Lives t live) :
    ∃ lists, (timerCascade t level).map Prod.snd = some { t with list := lists } ∧
      Cascaded t live lists ∧ Settled { t with list := lists } level := by
  rw [timerCascade]
  by_cases hlevel : level < maxTimerLevel
  · rcases cascadeLoop_spec hpos hlevel h hlives (Nat.lt_succ_self _) with
      ⟨lists, hloop, hcascaded, hsettled⟩
    refine ⟨lists, ?_, hcascaded, hsettled⟩
    rw [if_neg (by omega), hloop]
    rfl
  · refine ⟨t.list, ?_, Cascaded.refl h hlives, ?_⟩
    · rw [if_pos (.inr (Nat.not_lt.mp hlevel))]
      rfl
    · intro id hid
      exact absurd (h.level_lt hid) hlevel

/-- The cascades from a level on settle these levels. -/
theorem cascades_spec {first count : ℕ} (hpos : 0 < first) (h : Inv t) (hlives : Lives t live) :
    ∃ lists, (List.range' first count).foldlM
        (fun t idx ↦ (timerCascade t idx).map Prod.snd) t = some { t with list := lists } ∧
      Cascaded t live lists ∧
      ∀ level, first ≤ level → level < first + count → Settled { t with list := lists } level := by
  induction count generalizing t first with
  | zero => exact ⟨t.list, rfl, Cascaded.refl h hlives, fun level hle hlt ↦ absurd hlt (by omega)⟩
  | succ count ih =>
      rcases timerCascade_spec hpos h hlives with ⟨lists, hcascade, hcascaded, hsettled⟩
      rcases ih (Nat.succ_pos first) hcascaded.inv hcascaded.lives with
        ⟨lists', hfold, hcascaded', hsettled'⟩
      refine ⟨lists', ?_, hcascaded.trans hcascaded', ?_⟩
      · rw [List.range'_succ, List.foldlM_cons, hcascade]
        exact hfold
      · intro level hle hlt
        rcases Nat.eq_or_lt_of_le hle with rfl | hgt
        · exact hcascaded'.keeps _ hsettled
        · exact hsettled' level hgt (by omega)

/-! ## The clock -/

/-- A clock step that passes no tick of the level. -/
theorem Waits.step {hand' : ℕ → ℕ} {diff : ℕ} (h : Waits clock hand level trig)
    (hlow : low hand' level = low hand level + diff) (hlt : low hand' level < msLimit level) :
    Waits (clock + diff) hand' level trig := by
  rcases h with hzero | ⟨hclock, hle⟩
  · exact .inl hzero
  · exact .inr ⟨by omega, by omega⟩

/-- The invariant together with the place of every node. -/
structure Good (t : LiskTimer) : Prop where
  inv : Inv t
  hands : HandsOk t.hand
  settled : ∀ level, Settled t level

/-- A timer that is due is in list 0. -/
theorem Good.due_level (h : Good t) (hmem : id ∈ t.list level) (hdue : trigOf t.node id ≤ t.clock) :
    level = 0 := by
  rcases h.settled level id hmem with hzero | ⟨hclock, -⟩
  · exact hzero
  · omega

/-- An accepted clock step leaves every timer where it waits for a tick. -/
theorem timerUpdate_accepted (h : Good t) (hlives : Lives t live) (hclock : t.clock ≤ t.time / 1000)
    (hdiff : t.time / 1000 - t.clock < 4294967296)
    (haccepted : minimumDiff ≤ t.time / 1000 - t.clock) :
    ∃ t', timerUpdate t = some (0, t') ∧ Good t' ∧ Lives t' live ∧ t'.clock = t.time / 1000 ∧
      t'.time = t.time ∧ t'.node = t.node := by
  obtain ⟨diff, hstep⟩ := Nat.exists_eq_add_of_le hclock
  have hu4 : u4 (ptrOffset (t.time / 1000) t.clock) = diff := by
    rw [ptrOffset, if_neg (Nat.not_lt.mpr hclock), u4_of_lt hdiff]
    omega
  have hhands := turnHands_ok h.hands diff
  have hinv : Inv { t with clock := t.time / 1000, hand := (turnHands t.hand diff).1 } :=
    ⟨h.inv.levels, h.inv.nodup, h.inv.apart, h.inv.ordered, h.inv.nodes, h.inv.ring_nodup,
      h.inv.ring_nodes⟩
  have hlives' : Lives { t with clock := t.time / 1000, hand := (turnHands t.hand diff).1 } live :=
    hlives
  rcases cascades_spec Nat.one_pos hinv hlives' with ⟨lists, hfold, hcascaded, hsettled⟩
  refine ⟨_, ?_, ⟨hcascaded.inv, hhands, ?_⟩, hcascaded.lives, rfl, rfl, rfl⟩
  · rw [timerUpdate]
    simp only [hu4, if_neg (show ¬ diff < minimumDiff by omega)]
    rw [hfold]
    rfl
  · intro level
    by_cases hlevel : level < maxTimerLevel
    · by_cases hcascade : 1 ≤ level ∧ level < 1 + ((turnHands t.hand diff).2.2 - 1)
      · exact hsettled level hcascade.1 hcascade.2
      · apply hcascaded.keeps
        intro id hid
        by_cases hzero : level = 0
        · exact .inl hzero
        · have hlow := turnHands_still h.hands diff hlevel (by omega)
          have hwaits := (h.settled level id hid).step hlow (low_lt hhands hlevel)
          rwa [← hstep] at hwaits
    · intro id hid
      exact absurd (hcascaded.inv.level_lt hid) hlevel

end CPractice.Timer
