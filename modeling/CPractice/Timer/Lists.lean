import CPractice.Timer.Hands
import Mathlib.Data.List.Find
import Mathlib.Data.List.Sort

/-!
# The lists of the timer

Every list is sorted by time, a node is in one list at most, and the erased nodes of the ring are in
none (`Inv`).  Inserting and moving put a node in its place by time (`place`).
-/

namespace CPractice.Timer

variable {t : LiskTimer} {id level : ℕ} {node : ℕ → Option TimerNode}
  {live : ℕ → Option TimerNode}

/-! ## Places by time -/

/-- The time of a node. -/
def trigOf (node : ℕ → Option TimerNode) (id : ℕ) : ℕ := (node id).elim 0 TimerNode.trig

theorem trigOf_eq {content : TimerNode} (h : node id = some content) :
    trigOf node id = content.trig := by
  rw [trigOf, h]
  rfl

def Earlier (node : ℕ → Option TimerNode) (a b : ℕ) : Prop := trigOf node a < trigOf node b

instance (node : ℕ → Option TimerNode) : DecidableRel (Earlier node) :=
  fun a b ↦ inferInstanceAs (Decidable (trigOf node a < trigOf node b))

/-- A list in the order of time. -/
def Ordered (node : ℕ → Option TimerNode) (list : List ℕ) : Prop :=
  list.Pairwise fun a b ↦ trigOf node a ≤ trigOf node b

theorem Ordered.congr {node' : ℕ → Option TimerNode} {list : List ℕ} (h : Ordered node list)
    (hnode : ∀ cur ∈ list, node' cur = node cur) : Ordered node' list := by
  refine List.Pairwise.imp_of_mem ?_ h
  intro a b ha hb hle
  rwa [trigOf, trigOf, hnode a ha, hnode b hb]

/-- In front of the first later node, or at the end. -/
theorem insertFront_find {r : ℕ → ℕ → Prop} [DecidableRel r] (id : ℕ) (list : List ℕ) :
    insertFront (list.find? fun cur ↦ decide (r id cur)) id list = list.orderedInsert r id := by
  induction list with
  | nil => rfl
  | cons cur rest ih =>
      rw [List.find?_cons, List.orderedInsert_cons]
      by_cases hcur : r id cur
      · simp [hcur, insertFront]
      · rw [if_neg hcur, ← ih]
        simp only [hcur, decide_false]
        cases hfind : rest.find? fun cur ↦ decide (r id cur) with
        | none => rfl
        | some pos =>
            have hpos : r id pos := by simpa using List.find?_some hfind
            have hne : cur ≠ pos := fun heq ↦ hcur (heq ▸ hpos)
            simp [insertFront, hne]

theorem Ordered.insert {list : List ℕ} (h : Ordered node list) (id : ℕ) :
    Ordered node (list.orderedInsert (Earlier node) id) := by
  induction list with
  | nil => exact List.pairwise_singleton _ _
  | cons cur rest ih =>
      rcases List.pairwise_cons.mp h with ⟨hcur, hrest⟩
      rw [List.orderedInsert_cons]
      split
      · next hearlier =>
          refine List.pairwise_cons.mpr ⟨?_, h⟩
          intro other hother
          rcases List.mem_cons.mp hother with rfl | hother
          · exact Nat.le_of_lt hearlier
          · exact (Nat.le_of_lt hearlier).trans (hcur other hother)
      · next hlater =>
          refine List.pairwise_cons.mpr ⟨?_, ih hrest⟩
          intro other hother
          rcases (List.mem_orderedInsert _).mp hother with rfl | hother
          · exact Nat.not_lt.mp hlater
          · exact hcur other hother

theorem listPos_eq {list : List ℕ} (content : TimerNode) (h : ∀ cur ∈ list, (node cur).isSome) :
    listPos node content list =
      some (list.find? fun cur ↦ decide (content.trig < trigOf node cur)) := by
  induction list with
  | nil => rfl
  | cons cur rest ih =>
      rcases List.forall_mem_cons.mp h with ⟨hcur, hrest⟩
      rcases Option.isSome_iff_exists.mp hcur with ⟨found, hfound⟩
      have hcmp : cmpLiskTimerNode content found < 0 ↔ content.trig < trigOf node cur := by
        rw [trigOf_eq hfound, cmpLiskTimerNode]
        split
        · next hlt => simpa using hlt
        · next hlt =>
            have hle := Nat.not_lt.mp hlt
            split
            · simpa using hle
            · simpa using hle
      rw [listPos, hfound, List.find?_cons]
      by_cases hlt : content.trig < trigOf node cur
      · simp [hcmp.mpr hlt, hlt]
      · simp only [Option.bind_eq_bind, Option.bind_some, if_neg fun h ↦ hlt (hcmp.mp h), hlt,
          decide_false]
        exact ih hrest

/-! ## The invariant -/

/-- A node is put into a list by its time. -/
def LiskTimer.place (t : LiskTimer) (level id : ℕ) : LiskTimer :=
  { t with
    list := Function.update t.list level ((t.list level).orderedInsert (Earlier t.node) id) }

structure Inv (t : LiskTimer) : Prop where
  levels : ∀ level, maxTimerLevel ≤ level → t.list level = []
  nodup : ∀ level, (t.list level).Nodup
  apart : ∀ level level' id, id ∈ t.list level → id ∈ t.list level' → level = level'
  ordered : ∀ level, Ordered t.node (t.list level)
  nodes : ∀ level, ∀ id ∈ t.list level, (t.node id).isSome ∧ id ≠ 0
  ring_nodup : t.ring.Nodup
  ring_nodes : ∀ id ∈ t.ring, (t.node id).isSome ∧ id ≠ 0 ∧ ¬ t.Linked id

/-- The timers that are in a list, with what their nodes hold. -/
def Lives (t : LiskTimer) (live : ℕ → Option TimerNode) : Prop :=
  ∀ id content, live id = some content ↔ t.Linked id ∧ t.node id = some content

theorem mem_unlink {cur : ℕ} : cur ∈ (t.unlink id).list level ↔ cur ∈ t.list level ∧ cur ≠ id := by
  simp [LiskTimer.unlink]

theorem mem_place {cur level' : ℕ} :
    cur ∈ (t.place level id).list level' ↔ cur ∈ t.list level' ∨ level' = level ∧ cur = id := by
  rw [LiskTimer.place]
  by_cases h : level' = level
  · subst h
    simp [List.mem_orderedInsert, or_comm]
  · simp [h]

theorem linked_unlink {cur : ℕ} : (t.unlink id).Linked cur ↔ t.Linked cur ∧ cur ≠ id := by
  simp only [LiskTimer.Linked, mem_unlink]
  constructor
  · rintro ⟨level, hlevel, hmem, hne⟩
    exact ⟨⟨level, hlevel, hmem⟩, hne⟩
  · rintro ⟨⟨level, hlevel, hmem⟩, hne⟩
    exact ⟨level, hlevel, hmem, hne⟩

theorem linked_place {cur : ℕ} (hlevel : level < maxTimerLevel) :
    (t.place level id).Linked cur ↔ t.Linked cur ∨ cur = id := by
  simp only [LiskTimer.Linked, mem_place]
  constructor
  · rintro ⟨level', hlevel', hmem | ⟨-, rfl⟩⟩
    · exact .inl ⟨level', hlevel', hmem⟩
    · exact .inr rfl
  · rintro (⟨level', hlevel', hmem⟩ | rfl)
    · exact ⟨level', hlevel', .inl hmem⟩
    · exact ⟨level, hlevel, .inr ⟨rfl, rfl⟩⟩

namespace Inv

theorem level_lt (h : Inv t) (hmem : id ∈ t.list level) : level < maxTimerLevel := by
  by_contra hle
  rw [h.levels level (Nat.not_lt.mp hle)] at hmem
  cases hmem

theorem linked (h : Inv t) (hmem : id ∈ t.list level) : t.Linked id :=
  ⟨level, h.level_lt hmem, hmem⟩

/-- The contents of nodes that are in no list may change. -/
theorem set_node (h : Inv t) (hkeep : ∀ level, ∀ id ∈ t.list level, node id = t.node id)
    (hring : ∀ id ∈ t.ring, (node id).isSome) : Inv { t with node := node } where
  levels := h.levels
  nodup := h.nodup
  apart := h.apart
  ordered level := (h.ordered level).congr (hkeep level)
  nodes level id hid := by
    have hnode := h.nodes level id hid
    rwa [← hkeep level id hid] at hnode
  ring_nodup := h.ring_nodup
  ring_nodes id hid := ⟨hring id hid, (h.ring_nodes id hid).2⟩

theorem write (h : Inv t) (hnot : ¬ t.Linked id) (content : TimerNode) :
    Inv (t.write id content) := by
  apply h.set_node
  · intro level cur hcur
    have hne : cur ≠ id := by
      rintro rfl
      exact hnot (h.linked hcur)
    exact Function.update_of_ne hne _ _
  · intro cur hcur
    by_cases heq : cur = id
    · rw [heq, Function.update_self]
      rfl
    · rw [Function.update_of_ne heq]
      exact (h.ring_nodes cur hcur).1

theorem unlink (h : Inv t) (id : ℕ) : Inv (t.unlink id) where
  levels level hlevel := by
    simp only [LiskTimer.unlink, h.levels level hlevel, List.filter_nil]
  nodup level := (h.nodup level).filter _
  apart level level' cur hcur hcur' :=
    h.apart level level' cur (mem_unlink.mp hcur).1 (mem_unlink.mp hcur').1
  ordered level := (h.ordered level).filter _
  nodes level cur hcur := h.nodes level cur (mem_unlink.mp hcur).1
  ring_nodup := h.ring_nodup
  ring_nodes cur hcur :=
    ⟨(h.ring_nodes cur hcur).1, (h.ring_nodes cur hcur).2.1, fun hlinked ↦
      (h.ring_nodes cur hcur).2.2 (linked_unlink.mp hlinked).1⟩

theorem place (h : Inv t) (hlevel : level < maxTimerLevel) (hnot : ¬ t.Linked id)
    (hring : id ∉ t.ring) (hnode : (t.node id).isSome) (hid : id ≠ 0) : Inv (t.place level id) where
  levels level' hlevel' := by
    have hne : level' ≠ level := by omega
    rw [LiskTimer.place]
    simp only [Function.update_of_ne hne, h.levels level' hlevel']
  nodup level' := by
    rw [LiskTimer.place]
    by_cases heq : level' = level
    · subst heq
      have hperm := List.perm_orderedInsert (Earlier t.node) id (t.list level')
      simp only [Function.update_self]
      exact hperm.nodup_iff.mpr (List.nodup_cons.mpr ⟨fun hmem ↦ hnot (h.linked hmem), h.nodup level'⟩)
    · simp only [Function.update_of_ne heq]
      exact h.nodup level'
  apart level₁ level₂ cur hcur₁ hcur₂ := by
    rcases mem_place.mp hcur₁ with hmem₁ | ⟨rfl, rfl⟩
    · rcases mem_place.mp hcur₂ with hmem₂ | ⟨rfl, rfl⟩
      · exact h.apart level₁ level₂ cur hmem₁ hmem₂
      · exact absurd (h.linked hmem₁) hnot
    · rcases mem_place.mp hcur₂ with hmem₂ | ⟨rfl, -⟩
      · exact absurd (h.linked hmem₂) hnot
      · rfl
  ordered level' := by
    rw [LiskTimer.place]
    by_cases heq : level' = level
    · subst heq
      simp only [Function.update_self]
      exact (h.ordered level').insert id
    · simp only [Function.update_of_ne heq]
      exact h.ordered level'
  nodes level' cur hcur := by
    rcases mem_place.mp hcur with hmem | ⟨-, rfl⟩
    · exact h.nodes level' cur hmem
    · exact ⟨hnode, hid⟩
  ring_nodup := h.ring_nodup
  ring_nodes cur hcur := by
    refine ⟨(h.ring_nodes cur hcur).1, (h.ring_nodes cur hcur).2.1, fun hlinked ↦ ?_⟩
    rcases (linked_place hlevel).mp hlinked with hlinked | rfl
    · exact (h.ring_nodes cur hcur).2.2 hlinked
    · exact hring hcur

end Inv

namespace Lives

theorem unlink (h : Lives t live) (id : ℕ) : Lives (t.unlink id) (Function.update live id none) := by
  intro cur content
  rw [linked_unlink]
  by_cases heq : cur = id
  · simp [heq]
  · rw [Function.update_of_ne heq, h cur content]
    simp [heq, LiskTimer.unlink]

/-- A node that is in no list is written and put into one. -/
theorem write_place (h : Lives t live) (hlevel : level < maxTimerLevel) (id : ℕ)
    (content : TimerNode) :
    Lives ((t.write id content).place level id) (Function.update live id (some content)) := by
  intro cur content'
  rw [linked_place hlevel]
  by_cases heq : cur = id
  · simp [heq, LiskTimer.place, LiskTimer.write]
  · rw [Function.update_of_ne heq, h cur content']
    simp [heq, LiskTimer.place, LiskTimer.write, LiskTimer.Linked]

end Lives

/-! ## Inserting -/

theorem link_eq_place {pos : Option ℕ}
    (hpos : pos = (t.list level).find? fun cur ↦ decide (Earlier t.node id cur)) :
    t.link level pos id = t.place level id := by
  rw [LiskTimer.link, LiskTimer.place, hpos, insertFront_find]

/-- A node that is not in the list and was written after the place was looked for. -/
theorem link_written {content : TimerNode} (hnot : id ∉ t.list level) :
    (t.write id content).link level
        ((t.list level).find? fun cur ↦ decide (content.trig < trigOf t.node cur)) id =
      (t.write id content).place level id := by
  apply link_eq_place
  apply List.find?_congr
  intro cur hcur
  have hne : cur ≠ id := by
    rintro rfl
    exact hnot hcur
  apply decide_eq_decide.mpr
  simp [Earlier, trigOf, LiskTimer.write, hne]

/-- A node of a list is moved to its place in a list. -/
theorem timerListInsert_own {content : TimerNode} (hnode : t.node id = some content)
    (hlinked : t.Linked id) (hlist : ∀ cur ∈ t.list level, (t.node cur).isSome) :
    timerListInsert t level (.own id) = some ((0, id), (t.unlink id).place level id) := by
  have hpos := listPos_eq content hlist
  simp only [timerListInsert, hnode, Option.bind_eq_bind, Option.bind_some, hpos, if_pos hlinked]
  rw [link_eq_place]
  -- the node itself is not later than itself, so that the search is the same without it
  simp only [LiskTimer.unlink, List.find?_filter]
  apply List.find?_congr
  intro cur _
  by_cases heq : cur = id
  · simp [heq, trigOf_eq hnode]
  · simp [heq, Earlier, trigOf_eq hnode]

/-- The next node of the ring is an erased one. -/
def FrontErased (t : LiskTimer) : Prop :=
  ∀ old ∈ t.ring.head?, (t.node old).isSome ∧ old ≠ 0 ∧ ¬ t.Linked old

instance (t : LiskTimer) : Decidable (FrontErased t) :=
  inferInstanceAs (Decidable (∀ old ∈ t.ring.head?, _ ∧ _ ∧ _))

/-- A node for a new content: the next one of the ring, or an allocated one if there is none. -/
structure Takes (t : LiskTimer) (alloc : Option ℕ) (id : ℕ) (ring : List ℕ) : Prop where
  not_linked : ¬ t.Linked id
  source : t.ring = id :: ring ∨ t.ring = [] ∧ ring = [] ∧ alloc = some id

/-- A new content is stored in an erased node if there is one, else in an allocated one. -/
theorem timerListInsert_new (hlist : ∀ level, ∀ cur ∈ t.list level, (t.node cur).isSome)
    (hfront : FrontErased t) (content : TimerNode) {alloc : Option ℕ}
    (halloc : ∀ id ∈ alloc, t.node id = none) (hlevel : level < maxTimerLevel) :
    (alloc = none ∧
      ∃ num, timerListInsert t level (.new content alloc) = some ((-2, 0), { t with num := num })) ∨
    ∃ id num ring, Takes t alloc id ring ∧ timerListInsert t level (.new content alloc) =
      some ((0, id), (({ t with num := num, ring := ring }).write id content).place level id) := by
  have hpos := listPos_eq content (hlist level)
  cases hring : t.ring with
  | nil =>
      cases alloc with
      | none =>
          refine .inl ⟨rfl, u4 (t.num + 1), ?_⟩
          simp only [timerListInsert, hpos, Option.bind_eq_bind, Option.bind_some, hring, insertCopy]
      | some id =>
          have hnot : ∀ level, id ∉ t.list level := by
            intro level hmem
            have hsome := hlist level id hmem
            rw [halloc id rfl] at hsome
            cases hsome
          have hlink : (({ t with num := u4 (t.num + 1) } : LiskTimer).write id content).link level
              ((t.list level).find? fun cur ↦ decide (content.trig < trigOf t.node cur)) id = _ :=
            link_written (hnot level)
          simp only [hring] at hlink
          refine .inr ⟨id, u4 (t.num + 1), [], ⟨fun ⟨level, _, hmem⟩ ↦ hnot level hmem,
            .inr ⟨hring, rfl, rfl⟩⟩, ?_⟩
          simp only [timerListInsert, hpos, Option.bind_eq_bind, Option.bind_some, hring, insertCopy,
            hlink]
  | cons old ring =>
      rcases hfront old (by rw [hring]; rfl) with ⟨hsome, -, hnot⟩
      rcases Option.isSome_iff_exists.mp hsome with ⟨erased, herased⟩
      have hold : old ∉ t.list level := fun hmem ↦ hnot ⟨level, hlevel, hmem⟩
      have hlink : (({ t with ring := ring } : LiskTimer).write old content).link level
          ((t.list level).find? fun cur ↦ decide (content.trig < trigOf t.node cur)) old = _ :=
        link_written hold
      refine .inr ⟨old, t.num, ring, ⟨hnot, .inl hring⟩, ?_⟩
      have hnot' : ¬ ({ t.write old content with ring := ring } : LiskTimer).Linked old := hnot
      simp only [timerListInsert, hpos, Option.bind_eq_bind, Option.bind_some, hring, herased,
        if_neg hnot']
      exact congrArg (fun t' ↦ some ((0, old), t')) hlink

theorem Inv.frontErased (h : Inv t) : FrontErased t :=
  fun old hold ↦ h.ring_nodes old (List.mem_of_mem_head? hold)

variable {alloc : Option ℕ} {ring : List ℕ}

theorem Takes.sublist (h : Takes t alloc id ring) : ring.Sublist t.ring := by
  rcases h.source with hring | ⟨-, rfl, -⟩
  · rw [hring]
    exact List.sublist_cons_self id ring
  · exact List.nil_sublist _

theorem Takes.not_mem (h : Takes t alloc id ring) (hinv : Inv t) : id ∉ ring := by
  rcases h.source with hring | ⟨-, rfl, -⟩
  · have hnodup := hinv.ring_nodup
    rw [hring] at hnodup
    exact (List.nodup_cons.mp hnodup).1
  · exact List.not_mem_nil

end CPractice.Timer
