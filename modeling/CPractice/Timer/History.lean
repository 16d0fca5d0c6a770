import CPractice.Timer.Firing
import CPractice.Lib.Stable

/-!
# The order of insertion

The insertions that each function makes are listed as pairs of a level and a node, one for each call
of `timer_list_insert` that puts a node into a list.  With all insertions of a run as its history,
every list is sorted by time, and by the last insertion into it where times are equal (`Tidy`).
Nothing here depends on the hands or on the size of the clock steps.
-/

namespace CPractice.Timer

open Lib

variable {t : LiskTimer} {id level : ℕ} {live : ℕ → Option TimerNode} {alloc : Option ℕ}
  {history : List (ℕ × ℕ)}

/-! ## The insertions of a call -/

/-- The insertion of `timer_add`. -/
def addLog (t : LiskTimer) (key : TimerKey) (alloc : Option ℕ) : List (ℕ × ℕ) :=
  (timerAdd t key alloc).elim [] fun out ↦
    if out.1.1 = 0 then [(insLevel t.clock (t.clock + key.expire), out.1.2)] else []

def addsLog (t : LiskTimer) : List (TimerKey × Option ℕ) → List (ℕ × ℕ)
  | [] => []
  | (key, alloc) :: rest =>
      addLog t key alloc ++ (timerAdd t key alloc).elim [] fun out ↦ addsLog out.2 rest

/-- The insertions of a callback, and that of its timer if it is run again. -/
def runLog (t : LiskTimer) (id : ℕ) (callback : Callback) : List (ℕ × ℕ) :=
  addsLog t callback.adds ++ (runAdds t callback.adds).elim [] fun added ↦
    (added.2.node id).elim [] fun node ↦
      if callback.ret = -3 ∨ node.type = etimerOnce then []
      else [(insLevel added.2.clock (added.2.clock + node.expire), id)]

def loopLog : ℕ → Option ℕ → List Callback → LiskTimer → List (ℕ × ℕ)
  | 0, _, _, _ => []
  | turns + 1, prev, script, t =>
      (nextElem (t.list 0) prev).elim [] fun id ↦ (t.node id).elim [] fun content ↦
        if t.clock < content.trig then []
        else runLog t id (script.headD idleCallback) ++
          (runNode t id content (script.headD idleCallback)).elim [] fun out ↦
            loopLog turns (prevElem (t.list 0) id) script.tail out.2

/-- The moves of a cascade. -/
def cascadeLog (level : ℕ) : ℕ → LiskTimer → List (ℕ × ℕ)
  | 0, _ => []
  | turns + 1, t =>
      match t.list level with
      | [] => []
      | cur :: _ => (t.node cur).elim [] fun content ↦
          if cascadeGuard t.clock level content then []
          else (insLevel t.clock content.trig, cur) ::
            (timerInsNode t (.own cur)).elim [] fun out ↦ cascadeLog level turns out.2

/-- The moves of the cascades of several levels. -/
def cascadesLog (t : LiskTimer) : List ℕ → List (ℕ × ℕ)
  | [] => []
  | level :: rest => cascadeLog level ((t.list level).length + 1) t ++
      (timerCascade t level).elim [] fun out ↦ cascadesLog out.2 rest

/-! ## Tidy lists -/

/-- The invariant, with the history of the insertions and the live timers. -/
structure Tidy (t : LiskTimer) (history : List (ℕ × ℕ)) (live : ℕ → Option TimerNode) : Prop where
  inv : Inv t
  lives : Lives t live
  proper : Proper live
  recorded : ∀ level, ∀ id ∈ t.list level, (level, id) ∈ history
  stable : ∀ level, StablySorted (trigOf t.node) (fun id ↦ stampOf history (level, id)) (t.list level)

/-- A change that leaves the clock and makes no node due. -/
structure Quiet (t t' : LiskTimer) : Prop where
  clock : t'.clock = t.clock
  time : t'.time = t.time
  hand : t'.hand = t.hand
  due : ∀ level, ∀ id ∈ t'.list level, trigOf t'.node id ≤ t.clock →
    id ∈ t.list level ∧ trigOf t.node id ≤ t.clock

theorem Quiet.refl (t : LiskTimer) : Quiet t t := ⟨rfl, rfl, rfl, fun _ _ hid hdue ↦ ⟨hid, hdue⟩⟩

theorem Quiet.trans {t' t'' : LiskTimer} (h : Quiet t t') (h' : Quiet t' t'') : Quiet t t'' where
  clock := h'.clock.trans h.clock
  time := h'.time.trans h.time
  hand := h'.hand.trans h.hand
  due level id hid hdue := by
    obtain ⟨hmem, hdue'⟩ := h'.due level id hid (hdue.trans_eq h.clock.symm)
    exact h.due level id hmem (hdue'.trans_eq h.clock)

namespace Tidy

/-- The clock, the hands and the time are free. -/
theorem set_clock (h : Tidy t history live) (time clock : ℕ) (hand : ℕ → ℕ) :
    Tidy { t with time := time, clock := clock, hand := hand } history live where
  inv := ⟨h.inv.levels, h.inv.nodup, h.inv.apart, h.inv.ordered, h.inv.nodes, h.inv.ring_nodup,
    h.inv.ring_nodes⟩
  lives := h.lives
  proper := h.proper
  recorded := h.recorded
  stable := h.stable

theorem set_ring (h : Tidy t history live) {ring : List ℕ} (hring : ring.Sublist t.ring) (num : ℕ) :
    Tidy { t with num := num, ring := ring } history live :=
  ⟨h.inv.set_ring hring num, h.lives, h.proper, h.recorded, h.stable⟩

theorem unlink (h : Tidy t history live) (id : ℕ) :
    Tidy (t.unlink id) history (Function.update live id none) where
  inv := h.inv.unlink id
  lives := h.lives.unlink id
  proper cur content hlive := by
    by_cases heq : cur = id
    · simp [heq] at hlive
    · rw [Function.update_of_ne heq] at hlive
      exact h.proper cur content hlive
  recorded level cur hcur := h.recorded level cur (mem_unlink.mp hcur).1
  stable level := (h.stable level).sublist List.filter_sublist

/-- A node that is in no list is written and put into one. -/
theorem insert (h : Tidy t history live) (hlevel : level < maxTimerLevel) (hnot : ¬ t.Linked id)
    (hring : id ∉ t.ring) (hid : id ≠ 0) {content : TimerNode} (hexpire : minExpire ≤ content.expire) :
    Tidy ((t.write id content).place level id) (history ++ [(level, id)])
      (Function.update live id (some content)) where
  inv := by
    apply (h.inv.write hnot content).place hlevel hnot hring _ hid
    rw [LiskTimer.write]
    simp only [Function.update_self, Option.isSome_some]
  lives := h.lives.write_place hlevel id content
  proper cur content' hlive := by
    by_cases heq : cur = id
    · rw [heq, Function.update_self, Option.some_inj] at hlive
      exact hlive ▸ hexpire
    · rw [Function.update_of_ne heq] at hlive
      exact h.proper cur content' hlive
  recorded level' cur hcur := by
    rw [List.mem_append, List.mem_singleton]
    rcases mem_place.mp hcur with hcur | ⟨rfl, rfl⟩
    · exact .inl (h.recorded level' cur hcur)
    · exact .inr rfl
  stable level' := by
    have hne : ∀ cur ∈ t.list level', cur ≠ id := by
      rintro cur hcur rfl
      exact hnot (h.inv.linked hcur)
    have hkey : ∀ cur ∈ t.list level', trigOf (t.write id content).node cur = trigOf t.node cur := by
      intro cur hcur
      simp only [trigOf, LiskTimer.write, Function.update_of_ne (hne cur hcur)]
    have hstamp : ∀ cur ∈ t.list level',
        stampOf (history ++ [(level, id)]) (level', cur) = stampOf history (level', cur) := by
      intro cur hcur
      exact stampOf_append_other history fun heq ↦ hne cur hcur (Prod.mk.inj heq).2
    have hold := (h.stable level').congr hkey hstamp
    by_cases heq : level' = level
    · subst heq
      have hlist : ((t.write id content).place level' id).list level' =
          (t.list level').orderedInsert (Earlier (t.write id content).node) id := by
        rw [LiskTimer.place]
        simp only [Function.update_self]
        rfl
      rw [hlist]
      refine hold.orderedInsert (fun _ ↦ Iff.rfl) fun cur hcur ↦ ?_
      rw [hstamp cur hcur, stampOf_append_self]
      exact Nat.lt_succ_of_le (stampOf_le history (level', cur))
    · have hlist : ((t.write id content).place level id).list level' = t.list level' := by
        rw [LiskTimer.place]
        simp only [Function.update_of_ne heq]
        rfl
      rw [hlist]
      exact hold

/-- A node of a list is written and moved to the list for its time. -/
theorem moved (h : Tidy t history live) (hlinked : t.Linked id) {content : TimerNode}
    (hexpire : minExpire ≤ content.expire) :
    Tidy (moved t id content) (history ++ [(insLevel t.clock content.trig, id)])
      (Function.update live id (some content)) := by
  have hnot : ¬ (t.unlink id).Linked id := fun hmem ↦ (linked_unlink.mp hmem).2 rfl
  obtain ⟨level, hlevel, hmem⟩ := hlinked
  have hring : id ∉ t.ring := fun hring ↦ (h.inv.ring_nodes id hring).2.2 ⟨level, hlevel, hmem⟩
  have hinsert := (h.unlink id).insert (insLevel_lt t.clock content.trig) hnot hring
    (h.inv.nodes level id hmem).2 hexpire
  rwa [Function.update_idem] at hinsert

theorem free (h : Tidy t history live) (hnot : ¬ t.Linked id) (hring : id ∉ t.ring) :
    Tidy { t with node := Function.update t.node id none } history live where
  inv := h.inv.free hnot hring
  lives := h.lives.free hnot
  proper := h.proper
  recorded := h.recorded
  stable level := (h.stable level).congr (fun _ hcur ↦ h.inv.trigOf_free hnot hcur) fun _ _ ↦ rfl

theorem recycle (h : Tidy t history live) (hnot : ¬ t.Linked id) (hring : id ∉ t.ring)
    (hnode : (t.node id).isSome) (hid : id ≠ 0) :
    Tidy { t with ring := t.ring ++ [id] } history live :=
  ⟨h.inv.recycle hnot hring hnode hid, h.lives, h.proper, h.recorded, h.stable⟩

end Tidy

namespace Quiet

theorem unlink (t : LiskTimer) (id : ℕ) : Quiet t (t.unlink id) :=
  ⟨rfl, rfl, rfl, fun _ _ hcur hdue ↦ ⟨(mem_unlink.mp hcur).1, hdue⟩⟩

theorem insert (hnot : ¬ t.Linked id) (h : Inv t) {content : TimerNode}
    (hlater : t.clock < content.trig) : Quiet t ((t.write id content).place level id) := by
  refine ⟨rfl, rfl, rfl, fun level' cur hcur hdue ↦ ?_⟩
  have hnew : trigOf ((t.write id content).place level id).node id = content.trig :=
    trigOf_eq (Function.update_self ..)
  rcases mem_place.mp hcur with hmem | ⟨-, rfl⟩
  · have hne : cur ≠ id := by
      rintro rfl
      exact hnot (h.linked hmem)
    simp only [LiskTimer.place, LiskTimer.write, trigOf, Function.update_of_ne hne] at hdue
    exact ⟨hmem, hdue⟩
  · rw [hnew] at hdue
    omega

theorem moved (h : Inv t) {content : TimerNode} (hlater : t.clock < content.trig) :
    Quiet t (moved t id content) := by
  have hnot : ¬ (t.unlink id).Linked id := fun hmem ↦ (linked_unlink.mp hmem).2 rfl
  exact (Quiet.unlink t id).trans (Quiet.insert hnot (h.unlink id) hlater)

end Quiet

/-! ## Adding and deleting -/

theorem timerAdd_tidy (h : Tidy t history live) (halloc : Fresh t alloc) (key : TimerKey) :
    ∃ ret id t', timerAdd t key alloc = some ((ret, id), t') ∧ AddOk live ⟨key, ret, id⟩ ∧
      Tidy t' (history ++ addLog t key alloc) (afterAdd t.clock live ⟨key, ret, id⟩) ∧
      Quiet t t' := by
  by_cases hlegal : key.Legal
  · rcases timerAdd_legal (fun level cur hcur ↦ (h.inv.nodes level cur hcur).1) h.inv.frontErased
      halloc hlegal with ⟨-, num, hadd⟩ | ⟨id, num, ring, htakes, hadd⟩
    · have hlog : addLog t key alloc = [] := by simp [addLog, hadd]
      refine ⟨-2, 0, { t with num := num }, hadd, ⟨by simpa using hlegal, by simp⟩, ?_,
        ⟨rfl, rfl, rfl, (Quiet.refl t).due⟩⟩
      rw [hlog, List.append_nil]
      exact h.set_ring (List.Sublist.refl _) num
    · have hlog : addLog t key alloc =
          [(insLevel t.clock (keyNode t.clock key).trig, id)] := by
        simp [addLog, hadd, keyNode]
      have hunused : live id = none := by
        cases hlive : live id with
        | none => rfl
        | some content => exact absurd ((h.lives id content).mp hlive).1 htakes.not_linked
      have hid := htakes.ne_zero h.inv.frontErased halloc
      have hring := h.set_ring htakes.sublist num
      have hlater : t.clock < (keyNode t.clock key).trig :=
        Nat.lt_add_of_pos_right (Nat.lt_of_succ_le hlegal.1)
      have hnot : ¬ ({ t with num := num, ring := ring } : LiskTimer).Linked id := htakes.not_linked
      refine ⟨0, id, _, hadd, ⟨by simpa using hlegal, fun _ ↦ hunused⟩, ?_,
        ⟨rfl, rfl, rfl, (Quiet.insert hnot hring.inv hlater).due⟩⟩
      rw [hlog]
      exact hring.insert (insLevel_lt _ _) hnot (htakes.not_mem h.inv) hid hlegal.1
  · have hadd : timerAdd t key alloc = some ((-1, 0), t) := timerAdd_illegal hlegal
    have hlog : addLog t key alloc = [] := by simp [addLog, hadd]
    refine ⟨-1, 0, t, hadd, ⟨by simpa using hlegal, by simp⟩, ?_, Quiet.refl t⟩
    rw [hlog, List.append_nil]
    simpa [afterAdd] using h

theorem runAdds_tidy {adds : List (TimerKey × Option ℕ)} (h : Tidy t history live)
    (hok : addsOk t adds) :
    ∃ added t', runAdds t adds = some (added, t') ∧
      Tidy t' (history ++ addsLog t adds) (added.foldl (afterAdd t.clock) live) ∧ Quiet t t' ∧
      Grows t.clock live (added.foldl (afterAdd t.clock) live) := by
  induction adds generalizing t history live with
  | nil => exact ⟨[], t, rfl, by simpa [addsLog] using h, Quiet.refl t, Grows.refl _ _⟩
  | cons add adds ih =>
      obtain ⟨key, alloc⟩ := add
      obtain ⟨ret, id, t₁, hadd, haddOk, htidy, hquiet⟩ := timerAdd_tidy h hok.1 key
      obtain ⟨added, t', hrest, htidy', hquiet', hgrows⟩ := ih htidy (hok.2 _ hadd)
      rw [hquiet.clock] at htidy' hgrows
      have hlog : addsLog t ((key, alloc) :: adds) = addLog t key alloc ++ addsLog t₁ adds := by
        rw [addsLog, hadd]
        rfl
      refine ⟨⟨key, ret, id⟩ :: added, t', ?_, ?_, hquiet.trans hquiet',
        (haddOk.grows t.clock).trans hgrows⟩
      · rw [runAdds, hadd]
        simp only [Option.bind_eq_bind, Option.bind_some, hrest]
      · rw [hlog, ← List.append_assoc]
        exact htidy'

theorem timerDelNode_tidy (h : Tidy t history live) (hlinked : t.Linked id) :
    ∃ t', timerDelNode t id = some t' ∧ Tidy t' history (Function.update live id none) ∧
      Quiet t t' ∧ ∀ level, id ∉ t'.list level := by
  have hring : id ∉ t.ring := fun hmem ↦ (h.inv.ring_nodes id hmem).2.2 hlinked
  have hnot : ¬ (t.unlink id).Linked id := fun hmem ↦ (linked_unlink.mp hmem).2 rfl
  have hgone : ∀ level, id ∉ (t.unlink id).list level := fun level hmem ↦ (mem_unlink.mp hmem).2 rfl
  obtain ⟨level, -, hmem⟩ := hlinked
  obtain ⟨hnode, hid⟩ := h.inv.nodes level id hmem
  have hunlinked := h.unlink id
  rcases timerDelNode_cases hnode with hdel | ⟨num, hdel⟩
  · exact ⟨_, hdel, hunlinked.recycle hnot hring hnode hid,
      ⟨rfl, rfl, rfl, (Quiet.unlink t id).due⟩, hgone⟩
  · refine ⟨_, hdel, (hunlinked.set_ring (List.Sublist.refl _) num).free hnot hring,
      ⟨rfl, rfl, rfl, fun level' cur hcur hdue ↦ ?_⟩, hgone⟩
    have hkept := (Quiet.unlink t id).due level' cur hcur
    rw [← hunlinked.inv.trigOf_free hnot hcur] at hkept
    exact hkept hdue

/-! ## The loop -/

theorem runNode_tidy {content : TimerNode} {callback : Callback} (h : Tidy t history live)
    (hlive : live id = some content) (hok : addsOk t callback.adds) :
    ∃ run t', runNode t id content callback = some (run, t') ∧
      Tidy t' (history ++ runLog t id callback) (afterRun t.clock live run) ∧ Quiet t t' ∧
      ∀ level, id ∈ t'.list level → t.clock < trigOf t'.node id := by
  obtain ⟨added, t₁, hadds, htidy, hquiet, hgrows⟩ := runAdds_tidy h hok
  obtain ⟨hlinked, hnode⟩ := (htidy.lives id content).mp (hgrows.keeps id content hlive)
  have hexpire : minExpire ≤ content.expire := h.proper id content hlive
  by_cases hlast : callback.ret = -3 ∨ content.type = etimerOnce
  · obtain ⟨t', hdel, htidy', hquiet', hgone⟩ := timerDelNode_tidy htidy hlinked
    have hlog : runLog t id callback = addsLog t callback.adds := by
      rw [runLog, hadds]
      simp [hnode, hlast]
    have hrun : (⟨id, content, added, callback.ret⟩ : Run).Last := hlast
    refine ⟨⟨id, content, added, callback.ret⟩, t', runNode_last hadds hnode hlast hdel, ?_,
      hquiet.trans hquiet', fun level hmem ↦ absurd hmem (hgone level)⟩
    rw [hlog, afterRun, if_pos hrun]
    exact htidy'
  · have hmove := timerInsNode_own htidy.inv hlinked
      { content with trig := t₁.clock + content.expire }
    have hlog : runLog t id callback = addsLog t callback.adds ++
        [(insLevel t₁.clock (t₁.clock + content.expire), id)] := by
      rw [runLog, hadds]
      simp [hnode, hlast]
    have hlater : t₁.clock < t₁.clock + content.expire := Nat.lt_add_of_pos_right hexpire
    have hrun : ¬ (⟨id, content, added, callback.ret⟩ : Run).Last := hlast
    refine ⟨⟨id, content, added, callback.ret⟩, _, runNode_again hadds hnode hlast hmove, ?_,
      hquiet.trans (Quiet.moved htidy.inv hlater), fun level _ ↦ ?_⟩
    · rw [hlog, afterRun, if_neg hrun, ← List.append_assoc, ← hquiet.clock]
      rw [← hquiet.clock] at htidy
      exact htidy.moved hlinked hexpire
    · rw [← hquiet.clock]
      have htrig : trigOf (moved t₁ id { content with trig := t₁.clock + content.expire }).node id =
          t₁.clock + content.expire := trigOf_eq (Function.update_self ..)
      rw [htrig]
      exact hlater

/-- A node less of list 0 is due after each turn. -/
theorem dueNodes_lt_of_quiet {t' : LiskTimer} (h : Inv t') (hquiet : Quiet t t')
    (hid : id ∈ dueNodes t) (hlater : ∀ level, id ∈ t'.list level → t.clock < trigOf t'.node id) :
    (dueNodes t').length < (dueNodes t).length := by
  have hsubset : dueNodes t' ⊆ (dueNodes t).erase id := by
    intro cur hcur
    obtain ⟨hmem, hdue⟩ := List.mem_filter.mp hcur
    rw [decide_eq_true_iff, hquiet.clock] at hdue
    obtain ⟨hmem', hdue'⟩ := hquiet.due 0 cur hmem hdue
    have hne : cur ≠ id := by
      rintro rfl
      exact absurd (hlater 0 hmem) (Nat.not_lt.mpr hdue)
    exact (List.mem_erase_of_ne hne).mpr (List.mem_filter.mpr ⟨hmem', decide_eq_true hdue'⟩)
  have hnodup : (dueNodes t').Nodup := (h.nodup 0).filter _
  have hle := (hnodup.subperm hsubset).length_le
  rw [List.length_erase_of_mem hid] at hle
  have hpos := List.length_pos_of_mem hid
  omega

/-- The loop ends and leaves tidy lists, also where timers that are due are in higher lists. -/
theorem loopFrom_tidy {turns : ℕ} {script : List Callback} (h : Tidy t history live)
    (hok : loopOk turns none script t) (hturns : (dueNodes t).length < turns) :
    ∃ runs t', loopFrom turns none script t = some (runs, t') ∧
      Tidy t' (history ++ loopLog turns none script t) (runs.foldl (afterRun t.clock) live) ∧
      Quiet t t' := by
  induction turns generalizing t history live script with
  | zero => exact absurd hturns (Nat.not_lt_zero _)
  | succ turns ih =>
      rw [loopFrom, loopLog]
      cases hnext : nextElem (t.list 0) none with
      | none => exact ⟨[], t, rfl, by simpa using h, Quiet.refl t⟩
      | some id =>
          have hmem : id ∈ t.list 0 := List.mem_of_mem_head? hnext
          obtain ⟨content, hnode⟩ := Option.isSome_iff_exists.mp (h.inv.nodes 0 id hmem).1
          simp only [Option.elim_some, hnode, Option.bind_eq_bind, Option.bind_some]
          by_cases hlater : t.clock < content.trig
          · simp only [if_pos hlater]
            exact ⟨[], t, rfl, by simpa using h, Quiet.refl t⟩
          · simp only [if_neg hlater]
            have hdue := Nat.not_lt.mp hlater
            have hlive := (h.lives id content).mpr ⟨h.inv.linked hmem, hnode⟩
            have hprev : prevElem (t.list 0) id = none := by
              obtain ⟨rest, hlist⟩ := List.head?_eq_some_iff.mp hnext
              simp [prevElem, hlist]
            obtain ⟨hadds, hrest⟩ := hok id hnext content hnode hdue
            obtain ⟨run, t₁, hrun, htidy, hquiet, hgone⟩ := runNode_tidy h hlive hadds
            have hok₁ := hrest _ hrun
            rw [hprev] at hok₁
            have hidDue : id ∈ dueNodes t := by
              rw [dueNodes, List.mem_filter, decide_eq_true_iff, trigOf_eq hnode]
              exact ⟨hmem, hdue⟩
            have hless := dueNodes_lt_of_quiet htidy.inv hquiet hidDue hgone
            obtain ⟨runs, t', hloop, htidy', hquiet'⟩ := ih htidy hok₁ (by omega)
            rw [hquiet.clock] at htidy'
            refine ⟨run :: runs, t', ?_, ?_, hquiet.trans hquiet'⟩
            · simp only [hrun, hprev, hloop, Option.bind_some]
            · rw [hrun, hprev, ← List.append_assoc]
              exact htidy'

end CPractice.Timer
