import CPractice.Timer.Cascade
import Mathlib.Data.List.Perm.Subperm

/-!
# Which timers a loop runs

The live timers are a partial function from ids to nodes.  A loop whose clock step is accepted runs
the live timers that are due, each once and in the order of their times (`Fires`).
-/

namespace CPractice.Timer

variable {t : LiskTimer} {id clock : ℕ} {live : ℕ → Option TimerNode} {alloc : Option ℕ}

/-! ## The live timers -/

/-- The node of a timer that is added. -/
def keyNode (clock : ℕ) (key : TimerKey) : TimerNode :=
  ⟨clock + key.expire, key.type, key.expire, key.arg, key.func⟩

def TimerKey.Legal (key : TimerKey) : Prop :=
  minExpire ≤ key.expire ∧ key.expire ≤ maxExpire ∧ key.func ≠ 0

instance (key : TimerKey) : Decidable key.Legal := inferInstanceAs (Decidable (_ ∧ _ ∧ _))

/-- The live timers after a call of `timer_add`. -/
def afterAdd (clock : ℕ) (live : ℕ → Option TimerNode) (added : Added) : ℕ → Option TimerNode :=
  if added.ret = 0 then Function.update live added.id (some (keyNode clock added.key)) else live

/-- The callback returned -3, or the timer is one that runs once. -/
def Run.Last (run : Run) : Prop := run.ret = -3 ∨ run.node.type = etimerOnce

instance (run : Run) : Decidable run.Last := inferInstanceAs (Decidable (_ ∨ _))

/-- The live timers after a callback: a timer that runs no more is gone, another one is due again
after its period. -/
def afterRun (clock : ℕ) (live : ℕ → Option TimerNode) (run : Run) : ℕ → Option TimerNode :=
  Function.update (run.adds.foldl (afterAdd clock) live) run.id
    (if run.Last then none else some { run.node with trig := clock + run.node.expire })

/-- The callbacks that are run for a set of live timers: just those of the timers that are due, each
once and in the order of their times. -/
structure Fires (clock : ℕ) (live : ℕ → Option TimerNode) (runs : List Run) : Prop where
  ordered : runs.Pairwise fun run later ↦ run.node.trig ≤ later.node.trig
  once : (runs.map Run.id).Nodup
  exact : ∀ id content, (∃ run ∈ runs, run.id = id ∧ run.node = content) ↔
    live id = some content ∧ content.trig ≤ clock

/-- The live timers have a period. -/
def Proper (live : ℕ → Option TimerNode) : Prop :=
  ∀ id content, live id = some content → minExpire ≤ content.expire

/-! ## Adding and deleting -/

/-- What `ALLOC` returns is not the address of a node. -/
def Fresh (t : LiskTimer) (alloc : Option ℕ) : Prop := ∀ id ∈ alloc, id ≠ 0 ∧ t.node id = none

/-- What a call of `timer_add` returns. -/
structure AddOk (live : ℕ → Option TimerNode) (added : Added) : Prop where
  illegal : added.ret = -1 ↔ ¬ added.key.Legal
  unused : added.ret = 0 → live added.id = none

theorem Inv.set_ring (h : Inv t) {ring : List ℕ} (hring : ring.Sublist t.ring) (num : ℕ) :
    Inv { t with num := num, ring := ring } :=
  ⟨h.levels, h.nodup, h.apart, h.ordered, h.nodes, h.ring_nodup.sublist hring,
    fun id hid ↦ h.ring_nodes id (hring.subset hid)⟩

theorem Good.set_ring (h : Good t) {ring : List ℕ} (hring : ring.Sublist t.ring) (num : ℕ) :
    Good { t with num := num, ring := ring } :=
  ⟨h.inv.set_ring hring num, h.hands, h.settled⟩

/-- A node that is in no list is written and put into the list for its time. -/
theorem Good.write_place (h : Good t) (hnot : ¬ t.Linked id) (hring : id ∉ t.ring) (hid : id ≠ 0)
    (content : TimerNode) :
    Good ((t.write id content).place (insLevel t.clock content.trig) id) where
  inv := by
    apply (h.inv.write hnot content).place (insLevel_lt _ _) hnot hring _ hid
    rw [LiskTimer.write]
    simp only [Function.update_self, Option.isSome_some]
  hands := h.hands
  settled level := by
    intro cur hcur
    rcases mem_place.mp hcur with hmem | ⟨rfl, rfl⟩
    · have hne : cur ≠ id := by
        rintro rfl
        exact hnot (h.inv.linked hmem)
      have htrig : trigOf ((t.write id content).place (insLevel t.clock content.trig) id).node cur =
          trigOf t.node cur := by
        simp [LiskTimer.place, LiskTimer.write, trigOf, hne]
      rw [htrig]
      exact h.settled level cur hmem
    · have htrig : trigOf ((t.write cur content).place (insLevel t.clock content.trig) cur).node
          cur = content.trig := trigOf_eq (Function.update_self ..)
      rw [htrig]
      exact insLevel_waits _ _ _

theorem Takes.ne_zero {ring : List ℕ} (h : Takes t alloc id ring) (hfront : FrontErased t)
    (halloc : Fresh t alloc) : id ≠ 0 := by
  rcases h.source with hring | ⟨-, -, heq⟩
  · exact (hfront id (by rw [hring]; rfl)).2.1
  · exact (halloc id heq).1

theorem timerAdd_illegal {key : TimerKey} (h : ¬ key.Legal) :
    timerAdd t key alloc = some ((-1, 0), t) := by
  rw [timerAdd]
  by_cases hrange : key.expire < minExpire ∨ maxExpire < key.expire
  · rw [if_pos hrange]
  · have hfunc : key.func = 0 := by
      by_contra hfunc
      exact h ⟨by omega, by omega, hfunc⟩
    rw [if_neg hrange, if_pos hfunc]

/-- A timer is added unless `ALLOC` fails. -/
theorem timerAdd_legal (hlist : ∀ level, ∀ cur ∈ t.list level, (t.node cur).isSome)
    (hfront : FrontErased t) (halloc : Fresh t alloc) {key : TimerKey} (hlegal : key.Legal) :
    (alloc = none ∧ ∃ num, timerAdd t key alloc = some ((-2, 0), { t with num := num })) ∨
    ∃ id num ring, Takes t alloc id ring ∧ timerAdd t key alloc =
      some ((0, id), (({ t with num := num, ring := ring }).write id (keyNode t.clock key)).place
        (insLevel t.clock (keyNode t.clock key).trig) id) := by
  have hrun : timerAdd t key alloc = timerInsNode t (.new (keyNode t.clock key) alloc) := by
    rw [timerAdd, if_neg (by rw [TimerKey.Legal] at hlegal; omega), if_neg hlegal.2.2]
    rfl
  rw [hrun, timerInsNode]
  simp only [Elem.content, Option.bind_eq_bind, Option.bind_some]
  rcases timerListInsert_new hlist hfront (keyNode t.clock key) (fun id hid ↦ (halloc id hid).2)
    (insLevel_lt t.clock (keyNode t.clock key).trig) with
    ⟨hnone, num, hinsert⟩ | ⟨id, num, ring, htakes, hinsert⟩
  · refine .inl ⟨hnone, num, ?_⟩
    rw [hinsert]
    rfl
  · refine .inr ⟨id, num, ring, htakes, ?_⟩
    rw [hinsert]
    rfl

theorem timerAdd_spec (h : Good t) (hlives : Lives t live) (halloc : Fresh t alloc)
    (key : TimerKey) :
    ∃ ret id t', timerAdd t key alloc = some ((ret, id), t') ∧ AddOk live ⟨key, ret, id⟩ ∧
      Good t' ∧ Lives t' (afterAdd t.clock live ⟨key, ret, id⟩) ∧ t'.clock = t.clock ∧
      t'.time = t.time := by
  by_cases hlegal : key.Legal
  · rcases timerAdd_legal (fun level cur hcur ↦ (h.inv.nodes level cur hcur).1) h.inv.frontErased
      halloc hlegal with ⟨-, num, hadd⟩ | ⟨id, num, ring, htakes, hadd⟩
    · exact ⟨-2, 0, { t with num := num }, hadd, ⟨by simpa using hlegal, by simp⟩,
        h.set_ring (List.Sublist.refl _) num, hlives, rfl, rfl⟩
    · have hunused : live id = none := by
        cases hlive : live id with
        | none => rfl
        | some content => exact absurd ((hlives id content).mp hlive).1 htakes.not_linked
      have hid := htakes.ne_zero h.inv.frontErased halloc
      refine ⟨0, id, _, hadd, ⟨by simpa using hlegal, fun _ ↦ hunused⟩,
        (h.set_ring htakes.sublist num).write_place htakes.not_linked (htakes.not_mem h.inv) hid
          (keyNode t.clock key), ?_, rfl, rfl⟩
      have hlives' : Lives { t with num := num, ring := ring } live := hlives
      exact hlives'.write_place (insLevel_lt _ _) id (keyNode t.clock key)
  · refine ⟨-1, 0, t, timerAdd_illegal hlegal, ⟨by simpa using hlegal, by simp⟩, h, ?_, rfl, rfl⟩
    simpa [afterAdd] using hlives

theorem Good.unlink (h : Good t) (id : ℕ) : Good (t.unlink id) :=
  ⟨h.inv.unlink id, h.hands, fun level cur hcur ↦ h.settled level cur (mem_unlink.mp hcur).1⟩

/-- An erased node is kept in the ring. -/
theorem Inv.recycle (h : Inv t) (hnot : ¬ t.Linked id) (hring : id ∉ t.ring)
    (hnode : (t.node id).isSome) (hid : id ≠ 0) : Inv { t with ring := t.ring ++ [id] } := by
  refine ⟨h.levels, h.nodup, h.apart, h.ordered, h.nodes, ?_, ?_⟩
  · rw [List.nodup_append]
    refine ⟨h.ring_nodup, List.nodup_singleton id, ?_⟩
    intro cur hcur other hother heq
    rw [List.mem_singleton.mp hother] at heq
    exact hring (heq ▸ hcur)
  · intro cur hcur
    rcases List.mem_append.mp hcur with hcur | hcur
    · exact h.ring_nodes cur hcur
    · rw [List.mem_singleton.mp hcur]
      exact ⟨hnode, hid, hnot⟩

theorem Good.recycle (h : Good t) (hnot : ¬ t.Linked id) (hring : id ∉ t.ring)
    (hnode : (t.node id).isSome) (hid : id ≠ 0) : Good { t with ring := t.ring ++ [id] } :=
  ⟨h.inv.recycle hnot hring hnode hid, h.hands, h.settled⟩

/-- The nodes of the lists stay as they are when another one is freed. -/
theorem Inv.trigOf_free (h : Inv t) (hnot : ¬ t.Linked id) {level cur : ℕ}
    (hcur : cur ∈ t.list level) :
    trigOf (Function.update t.node id none) cur = trigOf t.node cur := by
  have hne : cur ≠ id := by
    rintro rfl
    exact hnot (h.linked hcur)
  rw [trigOf, trigOf, Function.update_of_ne hne]

/-- An erased node is freed. -/
theorem Inv.free (h : Inv t) (hnot : ¬ t.Linked id) (hring : id ∉ t.ring) :
    Inv { t with node := Function.update t.node id none } := by
  apply h.set_node
  · intro level cur hcur
    have hne : cur ≠ id := by
      rintro rfl
      exact hnot (h.linked hcur)
    exact Function.update_of_ne hne _ _
  · intro cur hcur
    have hne : cur ≠ id := by
      rintro rfl
      exact hring hcur
    rw [Function.update_of_ne hne]
    exact (h.ring_nodes cur hcur).1

theorem Good.free (h : Good t) (hnot : ¬ t.Linked id) (hring : id ∉ t.ring) :
    Good { t with node := Function.update t.node id none } where
  inv := h.inv.free hnot hring
  hands := h.hands
  settled level := by
    intro cur hcur
    have hsettled := h.settled level cur hcur
    rw [← h.inv.trigOf_free hnot hcur] at hsettled
    exact hsettled

theorem Lives.free (h : Lives t live) (hnot : ¬ t.Linked id) :
    Lives { t with node := Function.update t.node id none } live := by
  intro cur content
  rw [h cur content]
  by_cases heq : cur = id
  · rw [heq]
    exact iff_of_false (fun hlive ↦ hnot hlive.1) fun hlive ↦ hnot hlive.1
  · simp only [Function.update_of_ne heq]
    exact Iff.rfl

theorem listErase_eq (h : (t.node id).isSome) (num : ℕ) (ring : List ℕ) (full : Bool) :
    listErase { t with num := num, ring := ring } id full = some
      (if full then
        { t.unlink id with num := num, ring := ring, node := Function.update t.node id none }
      else { t.unlink id with num := num, ring := ring }) := by
  obtain ⟨content, hcontent⟩ := Option.isSome_iff_exists.mp h
  rw [listErase, hcontent]
  rfl

/-- What a deletion leaves: the node is kept in the ring while this has room, and else freed. -/
theorem timerDelNode_cases (h : (t.node id).isSome) :
    timerDelNode t id = some { t.unlink id with ring := t.ring ++ [id] } ∨
      ∃ num, timerDelNode t id =
        some { t.unlink id with num := num, node := Function.update t.node id none } := by
  rw [timerDelNode]
  split
  · exact .inl (listErase_eq h t.num _ false)
  · exact .inr ⟨_, listErase_eq h _ t.ring true⟩

theorem timerDelNode_spec (h : Good t) (hlives : Lives t live) (hlinked : t.Linked id) :
    ∃ t', timerDelNode t id = some t' ∧ Good t' ∧ Lives t' (Function.update live id none) ∧
      t'.clock = t.clock ∧ t'.time = t.time := by
  have hring : id ∉ t.ring := fun hmem ↦ (h.inv.ring_nodes id hmem).2.2 hlinked
  have hnot : ¬ (t.unlink id).Linked id := fun hmem ↦ (linked_unlink.mp hmem).2 rfl
  obtain ⟨level, -, hmem⟩ := hlinked
  obtain ⟨hnode, hid⟩ := h.inv.nodes level id hmem
  rcases timerDelNode_cases hnode with hdel | ⟨num, hdel⟩
  · exact ⟨_, hdel, (h.unlink id).recycle hnot hring hnode hid, hlives.unlink id, rfl, rfl⟩
  · have hgood := (h.unlink id).set_ring (List.Sublist.refl _) num
    have hlives' : Lives { t.unlink id with num := num } (Function.update live id none) :=
      hlives.unlink id
    exact ⟨_, hdel, hgood.free hnot hring, hlives'.free hnot, rfl, rfl⟩

/-! ## Running one timer -/

/-- What the callbacks add is allocated as `ALLOC` promises. -/
def addsOk : LiskTimer → List (TimerKey × Option ℕ) → Prop
  | _, [] => True
  | t, (key, alloc) :: rest => Fresh t alloc ∧ ∀ out ∈ timerAdd t key alloc, addsOk out.2 rest

/-- Timers are added that are not due. -/
structure Grows (clock : ℕ) (live live' : ℕ → Option TimerNode) : Prop where
  keeps : ∀ id content, live id = some content → live' id = some content
  later : ∀ id content, live' id = some content →
    live id = some content ∨ (clock < content.trig ∧ minExpire ≤ content.expire)

theorem Grows.refl (clock : ℕ) (live : ℕ → Option TimerNode) : Grows clock live live :=
  ⟨fun _ _ h ↦ h, fun _ _ h ↦ .inl h⟩

theorem Grows.trans {live₁ live₂ : ℕ → Option TimerNode} (h : Grows clock live live₁)
    (h' : Grows clock live₁ live₂) : Grows clock live live₂ where
  keeps id content hlive := h'.keeps id content (h.keeps id content hlive)
  later id content hlive := by
    rcases h'.later id content hlive with hlive | hlater
    · exact h.later id content hlive
    · exact .inr hlater

theorem AddOk.grows {added : Added} (h : AddOk live added) (clock : ℕ) :
    Grows clock live (afterAdd clock live added) := by
  rw [afterAdd]
  by_cases hret : added.ret = 0
  · rw [if_pos hret]
    have hlegal : added.key.Legal := by
      by_contra hillegal
      rw [h.illegal.mpr hillegal] at hret
      cases hret
    have hexpire : 1 ≤ added.key.expire := hlegal.1
    refine ⟨fun id content hlive ↦ ?_, fun id content hlive ↦ ?_⟩
    · have hne : id ≠ added.id := by
        rintro rfl
        rw [h.unused hret] at hlive
        cases hlive
      rwa [Function.update_of_ne hne]
    · by_cases heq : id = added.id
      · rw [heq, Function.update_self, Option.some_inj] at hlive
        subst hlive
        exact .inr ⟨Nat.lt_add_of_pos_right hexpire, hexpire⟩
      · rw [Function.update_of_ne heq] at hlive
        exact .inl hlive
  · rw [if_neg hret]
    exact Grows.refl clock live

theorem runAdds_spec (h : Good t) (hlives : Lives t live) {adds : List (TimerKey × Option ℕ)}
    (hok : addsOk t adds) :
    ∃ added t', runAdds t adds = some (added, t') ∧ Good t' ∧
      Lives t' (added.foldl (afterAdd t.clock) live) ∧ t'.clock = t.clock ∧ t'.time = t.time ∧
      Grows t.clock live (added.foldl (afterAdd t.clock) live) := by
  induction adds generalizing t live with
  | nil => exact ⟨[], t, rfl, h, hlives, rfl, rfl, Grows.refl _ _⟩
  | cons add adds ih =>
      obtain ⟨key, alloc⟩ := add
      rcases timerAdd_spec h hlives hok.1 key with
        ⟨ret, id, t₁, hadd, haddOk, hgood, hlives₁, hclock, htime⟩
      rcases ih hgood hlives₁ (hok.2 _ hadd) with
        ⟨added, t', hrest, hgood', hlives', hclock', htime', hgrows⟩
      rw [hclock] at hlives' hgrows
      refine ⟨⟨key, ret, id⟩ :: added, t', ?_, hgood', hlives', hclock'.trans hclock,
        htime'.trans htime, (haddOk.grows t.clock).trans hgrows⟩
      rw [runAdds, hadd]
      simp only [Option.bind_eq_bind, Option.bind_some, hrest]

/-- After a callback its timer is not due, and the others are due as before. -/
theorem afterRun_due {run : Run} (hproper : Proper live) (hlive : live run.id = some run.node)
    (hgrows : Grows clock live (run.adds.foldl (afterAdd clock) live)) :
    Proper (afterRun clock live run) ∧
      ∀ id content, content.trig ≤ clock →
        (afterRun clock live run id = some content ↔ live id = some content ∧ id ≠ run.id) := by
  have hexpire := hproper run.id run.node hlive
  rw [afterRun]
  refine ⟨fun id content hafter ↦ ?_, fun id content hdue ↦ ?_⟩
  · by_cases heq : id = run.id
    · rw [heq, Function.update_self] at hafter
      split at hafter
      · cases hafter
      · obtain rfl := Option.some.inj hafter
        exact hexpire
    · rw [Function.update_of_ne heq] at hafter
      rcases hgrows.later id content hafter with hlive | ⟨-, hexpire⟩
      · exact hproper id content hlive
      · exact hexpire
  · by_cases heq : id = run.id
    · rw [heq, Function.update_self]
      refine iff_of_false (fun hafter ↦ ?_) fun h ↦ h.2 rfl
      split at hafter
      · cases hafter
      · obtain rfl := Option.some.inj hafter
        have hpos : 1 ≤ run.node.expire := hexpire
        simp only at hdue
        omega
    · rw [Function.update_of_ne heq]
      constructor
      · intro hafter
        rcases hgrows.later id content hafter with hlive | ⟨hlater, -⟩
        · exact ⟨hlive, heq⟩
        · omega
      · exact fun h ↦ hgrows.keeps id content h.1

theorem Good.moved (h : Good t) (hlinked : t.Linked id) (content : TimerNode) :
    Good (moved t id content) :=
  ⟨h.inv.moved hlinked content, h.hands, fun level ↦ (h.settled level).moved content⟩

theorem runNode_last {content node : TimerNode} {callback : Callback} {added : List Added}
    {t₁ t' : LiskTimer} (hadds : runAdds t callback.adds = some (added, t₁))
    (hnode : t₁.node id = some node) (hlast : callback.ret = -3 ∨ node.type = etimerOnce)
    (hdel : timerDelNode t₁ id = some t') :
    runNode t id content callback = some (⟨id, content, added, callback.ret⟩, t') := by
  rw [runNode, hadds]
  simp only [Option.bind_eq_bind, Option.bind_some, hnode, if_pos hlast, hdel]

theorem runNode_again {content node : TimerNode} {callback : Callback} {added : List Added}
    {t₁ : LiskTimer} {out : (ℤ × ℕ) × LiskTimer}
    (hadds : runAdds t callback.adds = some (added, t₁)) (hnode : t₁.node id = some node)
    (hlast : ¬ (callback.ret = -3 ∨ node.type = etimerOnce))
    (hmove : timerInsNode (t₁.write id { node with trig := t₁.clock + node.expire }) (.own id) =
      some out) :
    runNode t id content callback = some (⟨id, content, added, callback.ret⟩, out.2) := by
  rw [runNode, hadds]
  simp only [Option.bind_eq_bind, Option.bind_some, hnode, if_neg hlast, hmove]

theorem runNode_spec (h : Good t) (hlives : Lives t live) {content : TimerNode}
    (hlive : live id = some content) {callback : Callback} (hok : addsOk t callback.adds) :
    ∃ run t', runNode t id content callback = some (run, t') ∧ run.id = id ∧ run.node = content ∧
      Good t' ∧ Lives t' (afterRun t.clock live run) ∧ t'.clock = t.clock ∧ t'.time = t.time ∧
      Grows t.clock live (run.adds.foldl (afterAdd t.clock) live) := by
  rcases runAdds_spec h hlives hok with ⟨added, t₁, hadds, hgood, hlives₁, hclock, htime, hgrows⟩
  rcases (hlives₁ id content).mp (hgrows.keeps id content hlive) with ⟨hlinked, hnode⟩
  by_cases hlast : callback.ret = -3 ∨ content.type = etimerOnce
  · rcases timerDelNode_spec hgood hlives₁ hlinked with ⟨t', hdel, hgood', hlives', hclock', htime'⟩
    refine ⟨⟨id, content, added, callback.ret⟩, t', runNode_last hadds hnode hlast hdel, rfl, rfl,
      hgood', ?_, hclock'.trans hclock, htime'.trans htime, hgrows⟩
    have hrun : (⟨id, content, added, callback.ret⟩ : Run).Last := hlast
    rw [afterRun, if_pos hrun]
    exact hlives'
  · have hmove := timerInsNode_own hgood.inv hlinked
      { content with trig := t₁.clock + content.expire }
    refine ⟨⟨id, content, added, callback.ret⟩, _, runNode_again hadds hnode hlast hmove, rfl, rfl,
      hgood.moved hlinked { content with trig := t₁.clock + content.expire }, ?_, hclock, htime,
      hgrows⟩
    have hrun : ¬ (⟨id, content, added, callback.ret⟩ : Run).Last := hlast
    rw [afterRun, if_neg hrun, ← hclock]
    rw [← hclock] at hlives₁
    exact hlives₁.moved _

/-! ## The loop -/

/-- What the callbacks of a loop add is allocated as `ALLOC` promises. -/
def loopOk : ℕ → Option ℕ → List Callback → LiskTimer → Prop
  | 0, _, _, _ => True
  | turns + 1, prev, script, t =>
      ∀ id ∈ nextElem (t.list 0) prev, ∀ content ∈ t.node id, content.trig ≤ t.clock →
        addsOk t (script.headD idleCallback).adds ∧
          ∀ out ∈ runNode t id content (script.headD idleCallback),
            loopOk turns (prevElem (t.list 0) id) script.tail out.2

/-- The nodes of list 0 that are due. -/
def dueNodes (t : LiskTimer) : List ℕ :=
  (t.list 0).filter fun id ↦ decide (trigOf t.node id ≤ t.clock)

theorem mem_dueNodes (h : Good t) (hlives : Lives t live) :
    id ∈ dueNodes t ↔ ∃ content, live id = some content ∧ content.trig ≤ t.clock := by
  rw [dueNodes, List.mem_filter, decide_eq_true_iff]
  constructor
  · rintro ⟨hmem, hdue⟩
    rcases Option.isSome_iff_exists.mp (h.inv.nodes 0 id hmem).1 with ⟨content, hnode⟩
    rw [trigOf_eq hnode] at hdue
    exact ⟨content, (hlives id content).mpr ⟨h.inv.linked hmem, hnode⟩, hdue⟩
  · rintro ⟨content, hlive, hdue⟩
    rcases (hlives id content).mp hlive with ⟨⟨level, -, hmem⟩, hnode⟩
    rw [← trigOf_eq hnode] at hdue
    rw [h.due_level hmem hdue] at hmem
    exact ⟨hmem, hdue⟩

/-- A timer less is due after each turn. -/
theorem dueNodes_lt {t' : LiskTimer} {live' : ℕ → Option TimerNode} (h : Good t)
    (hlives : Lives t live) (h' : Good t') (hlives' : Lives t' live') (hclock : t'.clock = t.clock)
    (hid : id ∈ dueNodes t)
    (hless : ∀ cur content, content.trig ≤ t.clock → live' cur = some content →
      live cur = some content ∧ cur ≠ id) : (dueNodes t').length < (dueNodes t).length := by
  have hsubset : dueNodes t' ⊆ (dueNodes t).erase id := by
    intro cur hcur
    rcases (mem_dueNodes h' hlives').mp hcur with ⟨content, hlive, hdue⟩
    rw [hclock] at hdue
    rcases hless cur content hdue hlive with ⟨hlive, hne⟩
    exact (List.mem_erase_of_ne hne).mpr ((mem_dueNodes h hlives).mpr ⟨content, hlive, hdue⟩)
  have hnodup : (dueNodes t').Nodup := (h'.inv.nodup 0).filter _
  have hle := (hnodup.subperm hsubset).length_le
  rw [List.length_erase_of_mem hid] at hle
  have hpos := List.length_pos_of_mem hid
  omega

/-- The runs of a loop, from those behind its first one. -/
theorem Fires.cons {run : Run} {runs : List Run} (h : Fires clock (afterRun clock live run) runs)
    (hlive : live run.id = some run.node) (hdue : run.node.trig ≤ clock)
    (hfirst : ∀ id content, live id = some content → content.trig ≤ clock →
      run.node.trig ≤ content.trig)
    (hafter : ∀ id content, content.trig ≤ clock →
      (afterRun clock live run id = some content ↔ live id = some content ∧ id ≠ run.id)) :
    Fires clock live (run :: runs) := by
  have hlater : ∀ later ∈ runs, live later.id = some later.node ∧ later.id ≠ run.id ∧
      later.node.trig ≤ clock := by
    intro later hlater
    rcases (h.exact later.id later.node).mp ⟨later, hlater, rfl, rfl⟩ with ⟨hlive', hdue'⟩
    rcases (hafter later.id later.node hdue').mp hlive' with ⟨hlive', hne⟩
    exact ⟨hlive', hne, hdue'⟩
  refine ⟨List.pairwise_cons.mpr ⟨fun later hmem ↦ ?_, h.ordered⟩, ?_, fun id content ↦ ?_⟩
  · exact hfirst later.id later.node (hlater later hmem).1 (hlater later hmem).2.2
  · rw [List.map_cons, List.nodup_cons]
    refine ⟨fun hmem ↦ ?_, h.once⟩
    rcases List.mem_map.mp hmem with ⟨later, hlaterMem, heq⟩
    exact (hlater later hlaterMem).2.1 heq
  · constructor
    · rintro ⟨other, hother, rfl, rfl⟩
      rcases List.mem_cons.mp hother with rfl | hother
      · exact ⟨hlive, hdue⟩
      · exact ⟨(hlater other hother).1, (hlater other hother).2.2⟩
    · rintro ⟨hlive', hdue'⟩
      by_cases heq : id = run.id
      · rw [heq, hlive, Option.some_inj] at hlive'
        exact ⟨run, List.mem_cons_self, heq.symm, hlive'⟩
      · rcases (h.exact id content).mpr ⟨(hafter id content hdue').mpr ⟨hlive', heq⟩, hdue'⟩ with
          ⟨other, hother, hpair⟩
        exact ⟨other, List.mem_cons_of_mem run hother, hpair⟩

theorem Fires.nil (hnone : ∀ id content, live id = some content → clock < content.trig) :
    Fires clock live [] := by
  refine ⟨List.Pairwise.nil, List.nodup_nil, fun id content ↦ ?_⟩
  refine iff_of_false (by simp) fun h ↦ ?_
  have hlater := hnone id content h.1
  omega

/-- The loop takes the front of list 0 as long as it is due, and ends when no timer is. -/
theorem loopFrom_spec {turns : ℕ} {script : List Callback} (h : Good t) (hlives : Lives t live)
    (hproper : Proper live) (hok : loopOk turns none script t)
    (hturns : (dueNodes t).length < turns) :
    ∃ runs t', loopFrom turns none script t = some (runs, t') ∧ Fires t.clock live runs ∧ Good t' ∧
      Lives t' (runs.foldl (afterRun t.clock) live) ∧
      Proper (runs.foldl (afterRun t.clock) live) ∧ t'.clock = t.clock ∧ t'.time = t.time ∧
      ∀ id content, runs.foldl (afterRun t.clock) live id = some content →
        t.clock < content.trig := by
  induction turns generalizing t live script with
  | zero => exact absurd hturns (Nat.not_lt_zero _)
  | succ turns ih =>
      by_cases hdue : ∃ id content, live id = some content ∧ content.trig ≤ t.clock
      · rcases hdue with ⟨due, dueNode, hdueLive, hdueTrig⟩
        have hdueMem := (mem_dueNodes h hlives).mpr ⟨dueNode, hdueLive, hdueTrig⟩
        have hmem0 : due ∈ t.list 0 := (List.mem_filter.mp hdueMem).1
        rcases List.exists_cons_of_ne_nil (List.ne_nil_of_mem hmem0) with ⟨id, rest, hlist⟩
        have hmem : id ∈ t.list 0 := hlist ▸ List.mem_cons_self
        rcases Option.isSome_iff_exists.mp (h.inv.nodes 0 id hmem).1 with ⟨content, hnode⟩
        -- the front of the list is the first timer that is due
        have hfront : ∀ cur ∈ t.list 0, content.trig ≤ trigOf t.node cur := by
          have hordered := h.inv.ordered 0
          rw [Ordered, hlist] at hordered
          intro cur hcur
          rw [hlist] at hcur
          rw [← trigOf_eq hnode]
          rcases List.mem_cons.mp hcur with rfl | hcur
          · exact le_rfl
          · exact (List.pairwise_cons.mp hordered).1 cur hcur
        have hfirst : ∀ cur other, live cur = some other → other.trig ≤ t.clock →
            content.trig ≤ other.trig := by
          intro cur other hother htrig
          have hcur := (List.mem_filter.mp ((mem_dueNodes h hlives).mpr ⟨other, hother, htrig⟩)).1
          rw [← trigOf_eq ((hlives cur other).mp hother).2]
          exact hfront cur hcur
        have hcontent : content.trig ≤ t.clock := (hfirst due dueNode hdueLive hdueTrig).trans hdueTrig
        have hlive : live id = some content :=
          (hlives id content).mpr ⟨h.inv.linked hmem, hnode⟩
        have hnext : nextElem (t.list 0) none = some id := by rw [nextElem, hlist]; rfl
        have hprev : prevElem (t.list 0) id = none := by simp [prevElem, hlist]
        rcases hok id hnext content hnode hcontent with ⟨hadds, hrest⟩
        rcases runNode_spec h hlives hlive hadds with
          ⟨run, t₁, hrun, hid, hrunNode, hgood, hlives₁, hclock, htime, hgrows⟩
        have hrunLive : live run.id = some run.node := by rw [hid, hrunNode, hlive]
        rcases afterRun_due hproper hrunLive hgrows with ⟨hproper₁, hafter⟩
        have hok₁ := hrest _ hrun
        rw [hprev] at hok₁
        have hless : (dueNodes t₁).length < turns := by
          have hidDue := (mem_dueNodes h hlives).mpr ⟨content, hlive, hcontent⟩
          have hlt := dueNodes_lt h hlives hgood hlives₁ hclock hidDue fun cur other htrig hother ↦
            hid ▸ (hafter cur other htrig).mp hother
          omega
        rcases ih hgood hlives₁ hproper₁ hok₁ hless with
          ⟨runs, t', hloop, hfires, hgood', hlives', hproper', hclock', htime', hnone⟩
        rw [hclock] at hfires hlives' hproper' hnone
        refine ⟨run :: runs, t', ?_, hfires.cons hrunLive (hrunNode ▸ hcontent) ?_ hafter, hgood',
          hlives', hproper', hclock'.trans hclock, htime'.trans htime, hnone⟩
        · rw [loopFrom, hnext]
          simp only [hnode, Option.bind_eq_bind, Option.bind_some,
            if_neg (Nat.not_lt.mpr hcontent), hrun, hprev, hloop]
        · rw [hrunNode]
          exact hfirst
      · have hnone : ∀ id content, live id = some content → t.clock < content.trig := by
          intro id content hlive
          by_contra hle
          exact hdue ⟨id, content, hlive, Nat.not_lt.mp hle⟩
        refine ⟨[], t, ?_, Fires.nil hnone, h, hlives, hproper, rfl, rfl, hnone⟩
        rw [loopFrom, nextElem]
        cases hlist : t.list 0 with
        | nil => rfl
        | cons id rest =>
            have hmem : id ∈ t.list 0 := hlist ▸ List.mem_cons_self
            rcases Option.isSome_iff_exists.mp (h.inv.nodes 0 id hmem).1 with ⟨content, hnode⟩
            have hlater := hnone id content ((hlives id content).mpr ⟨h.inv.linked hmem, hnode⟩)
            simp only [List.head?_cons, hnode, Option.bind_eq_bind, Option.bind_some, if_pos hlater]

end CPractice.Timer
