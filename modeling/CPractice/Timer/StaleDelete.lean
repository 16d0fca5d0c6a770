import CPractice.Timer.Refinement
import CPractice.Timer.Renaming

/-!
# Deleting a timer that is gone

`timer_del_node` pushes the node to the ring before `list_erase` sees that it was erased already.  The
ring then has the node twice, or a node that was freed, and a later `timer_add` may take a node that
is in a list.  As long as each `timer_add` finds an erased node at the front of the ring, nothing can
be told from a run without that `timer_del`.

The addresses of the two runs differ, so a client names a timer by the number of its `timer_add`.
-/

namespace CPractice.Timer

open Lib

variable {t t' : LiskTimer} {σ : Equiv.Perm ℕ} {clock usec room : ℕ} {live : ℕ → Option TimerNode}
  {ids ids' : List (ℕ × Bool)}

/-! ## Clients -/

/-- The ids that `timer_add` gave, in this order, each with whether its timer is live. -/
def hold (ids : List (ℕ × Bool)) (added : Added) : List (ℕ × Bool) :=
  if added.ret = 0 then ids ++ [(added.id, true)] else ids

def forget (id : ℕ) (ids : List (ℕ × Bool)) : List (ℕ × Bool) :=
  ids.map fun entry ↦ (entry.1, entry.2 && decide (entry.1 ≠ id))

/-- The ids after a callback. -/
def runIds (ids : List (ℕ × Bool)) (run : Run) : List (ℕ × Bool) :=
  if run.Last then forget run.id (run.adds.foldl hold ids) else run.adds.foldl hold ids

def idsAfter (ids : List (ℕ × Bool)) : Call → Ret → List (ℕ × Bool)
  | .add key _, .added ret id => hold ids ⟨key, ret, id⟩
  | .del id, _ => forget id ids
  | .loop _, .looped _ (some runs) => runs.foldl runIds ids
  | _, _ => ids

structure Client where
  timer : LiskTimer
  ids : List (ℕ × Bool)

/-- What a client does; a timer is named by its index among those that were added. -/
inductive Use where
  | tick (usec : ℕ)
  | add (key : TimerKey) (alloc : Option ℕ)
  | del (index : ℕ)
  | loop (script : List Callback)

def Use.call (ids : List (ℕ × Bool)) : Use → Option Call
  | .tick usec => some (.tick usec)
  | .add key alloc => some (.add key alloc)
  | .del index => ids[index]?.map fun entry ↦ .del entry.1
  | .loop script => some (.loop script)

def clientExec (c : Client) (use : Use) : Option (Ret × Client) := do
  let call ← use.call c.ids
  let out ← callExec c.timer call
  some (out.1, ⟨out.2, idsAfter c.ids call out.1⟩)

/-- What the environment promises, and that only live timers are deleted. -/
def clientOk (c : Client) : Use → Prop
  | .tick usec => callOk c.timer (.tick usec)
  | .add key alloc => callOk c.timer (.add key alloc)
  | .del index => ∃ entry ∈ c.ids[index]?, entry.2 = true
  | .loop script => callOk c.timer (.loop script)

/-- Clients from `timer_init` on. -/
def clientMachine (usec room : ℕ) : Machine Client Use Ret where
  init c := c = ⟨timerInit usec room, []⟩
  ok := clientOk
  exec := clientExec

/-! ## Adds that find an erased node -/

def addsClean : LiskTimer → List (TimerKey × Option ℕ) → Prop
  | _, [] => True
  | t, (key, alloc) :: rest =>
      (key.Legal → FrontErased t) ∧ ∀ out ∈ timerAdd t key alloc, addsClean out.2 rest

/-- The same for the adds of callbacks. -/
def loopClean : ℕ → Option ℕ → List Callback → LiskTimer → Prop
  | 0, _, _, _ => True
  | turns + 1, prev, script, t =>
      ∀ id ∈ nextElem (t.list 0) prev, ∀ content ∈ t.node id, content.trig ≤ t.clock →
        addsClean t (script.headD idleCallback).adds ∧
          ∀ out ∈ runNode t id content (script.headD idleCallback),
            loopClean turns (prevElem (t.list 0) id) script.tail out.2

/-- A timer that is added takes an erased node if it takes one of the ring. -/
def useClean (t : LiskTimer) : Use → Prop
  | .add key _ => key.Legal → FrontErased t
  | .loop script => t.clock ≠ 0 → ∀ out ∈ timerUpdate t, out.1 = 0 →
      loopClean ((out.2.list 0).length + 1) none script out.2
  | _ => True

def cleanMachine (usec room : ℕ) : Machine Client Use Ret :=
  { clientMachine usec room with ok := fun c use ↦ clientOk c use ∧ useClean c.timer use }

/-! ## The same calls in two runs -/

/-- `ALLOC` is granted in both runs, but not the same address. -/
def SameAdd (add add' : TimerKey × Option ℕ) : Prop :=
  add'.1 = add.1 ∧ add.2.isSome ∧ add'.2.isSome

def SameCallback (callback callback' : Callback) : Prop :=
  List.Forall₂ SameAdd callback.adds callback'.adds ∧ callback'.ret = callback.ret

def SameUse : Use → Use → Prop
  | .tick usec, .tick usec' => usec' = usec
  | .add key alloc, .add key' alloc' => SameAdd (key, alloc) (key', alloc')
  | .del index, .del index' => index' = index
  | .loop script, .loop script' => List.Forall₂ SameCallback script script'
  | _, _ => False

def Added.unnamed (added : Added) : Added := { added with id := 0 }

def Run.unnamed (run : Run) : Run := { run with id := 0, adds := run.adds.map Added.unnamed }

/-- What a call returns, without addresses. -/
def Ret.unnamed : Ret → Ret
  | .added ret _ => .added ret 0
  | .looped ret runs => .looped ret (runs.map (List.map Run.unnamed))
  | ret => ret

/-! ## The ids of a client -/

/-- The ids of live timers are the ids of live timers. -/
def Known (live : ℕ → Option TimerNode) (ids : List (ℕ × Bool)) : Prop :=
  ∀ entry ∈ ids, entry.2 = true → (live entry.1).isSome

theorem Known.hold (h : Known live ids) (clock : ℕ) (added : Added) :
    Known (afterAdd clock live added) (hold ids added) := by
  intro entry hentry hlive
  rw [Timer.hold] at hentry
  rw [afterAdd]
  split at hentry
  · next hret =>
      rw [if_pos hret]
      by_cases heq : entry.1 = added.id
      · rw [heq, Function.update_self]
        rfl
      · rw [Function.update_of_ne heq]
        rcases List.mem_append.mp hentry with hmem | hmem
        · exact h entry hmem hlive
        · rw [List.mem_singleton] at hmem
          exact absurd (congrArg Prod.fst hmem) heq
  · next hret =>
      rw [if_neg hret]
      exact h entry hentry hlive

theorem Known.holds (h : Known live ids) (clock : ℕ) (adds : List Added) :
    Known (adds.foldl (afterAdd clock) live) (adds.foldl Timer.hold ids) := by
  induction adds generalizing live ids with
  | nil => exact h
  | cons added adds ih => exact ih (h.hold clock added)

theorem Known.forget (h : Known live ids) (id : ℕ) :
    Known (Function.update live id none) (forget id ids) := by
  intro entry hentry hlive
  rcases List.mem_map.mp hentry with ⟨entry, hmem, rfl⟩
  simp only [Bool.and_eq_true, decide_eq_true_eq] at hlive
  rw [Function.update_of_ne hlive.2]
  exact h entry hmem hlive.1

theorem Known.update (h : Known live ids) (id : ℕ) (content : TimerNode) :
    Known (Function.update live id (some content)) ids := by
  intro entry hentry hlive
  by_cases heq : entry.1 = id
  · rw [heq, Function.update_self]
    rfl
  · rw [Function.update_of_ne heq]
    exact h entry hentry hlive

theorem Known.run (h : Known live ids) (clock : ℕ) (run : Run) :
    Known (afterRun clock live run) (runIds ids run) := by
  rw [afterRun, runIds]
  split
  · exact (h.holds clock run.adds).forget run.id
  · exact (h.holds clock run.adds).update run.id _

theorem Known.runs (h : Known live ids) (clock : ℕ) (runs : List Run) :
    Known (runs.foldl (afterRun clock) live) (runs.foldl runIds ids) := by
  induction runs generalizing live ids with
  | nil => exact h
  | cons run runs ih => exact ih (h.run clock run)

/-- The ids of two clients: those of live timers are matched by the permutation. -/
def Names (σ : Equiv.Perm ℕ) (ids ids' : List (ℕ × Bool)) : Prop :=
  List.Forall₂ (fun entry entry' ↦ entry'.2 = entry.2 ∧ (entry.2 = true → entry'.1 = σ entry.1))
    ids ids'

theorem Names.congr {τ : Equiv.Perm ℕ} (h : Names σ ids ids')
    (hsame : ∀ entry ∈ ids, entry.2 = true → τ entry.1 = σ entry.1) : Names τ ids ids' := by
  induction h with
  | nil => exact .nil
  | cons hentry hrest ih =>
      refine .cons ⟨hentry.1, fun hlive ↦ ?_⟩ (ih fun entry hmem ↦ hsame entry (.tail _ hmem))
      rw [hentry.2 hlive, hsame _ List.mem_cons_self hlive]

theorem Names.hold (h : Names σ ids ids') {added added' : Added} (hret : added'.ret = added.ret)
    (hid : added.ret = 0 → added'.id = σ added.id) :
    Names σ (hold ids added) (hold ids' added') := by
  rw [Timer.hold, Timer.hold, hret]
  split
  · next hzero => exact List.rel_append h (.cons ⟨rfl, fun _ ↦ hid hzero⟩ .nil)
  · exact h

theorem Names.forget (h : Names σ ids ids') (id : ℕ) :
    Names σ (forget id ids) (forget (σ id) ids') := by
  induction h with
  | nil => exact .nil
  | @cons entry entry' ids ids' hentry hrest ih =>
      refine .cons ⟨?_, fun hlive ↦ ?_⟩ ih
      · simp only [hentry.1]
        cases hlive : entry.2 with
        | false => rfl
        | true => simp only [hentry.2 hlive, ne_eq, EmbeddingLike.apply_eq_iff_eq]
      · exact hentry.2 (Bool.and_elim_left hlive)

theorem Names.getElem (h : Names σ ids ids') {index id : ℕ} (hentry : ids[index]? = some (id, true)) :
    ids'[index]? = some (σ id, true) := by
  induction h generalizing index with
  | nil => cases hentry
  | @cons entry entry' ids ids' hhead hrest ih =>
      cases index with
      | zero =>
          obtain rfl : entry = (id, true) := Option.some.inj hentry
          exact congrArg some (Prod.ext (hhead.2 rfl) hhead.1)
      | succ index => exact ih hentry

/-! ## Two runs -/

/-- Two timers with the same live timers, under the addresses that their clients hold. -/
structure Twins (σ : Equiv.Perm ℕ) (t t' : LiskTimer) (live : ℕ → Option TimerNode)
    (ids ids' : List (ℕ × Bool)) : Prop where
  good : Good t
  lives : Lives t live
  renamed : Renamed σ t t'
  known : Known live ids
  names : Names σ ids ids'

theorem Lives.linked (h : Lives t live) {id : ℕ} (hlive : (live id).isSome) : t.Linked id := by
  rcases Option.isSome_iff_exists.mp hlive with ⟨content, hcontent⟩
  exact ((h id content).mp hcontent).1

namespace Twins

theorem add (h : Twins σ t t' live ids ids') {key : TimerKey} {alloc alloc' : Option ℕ}
    (hok : Fresh t alloc) (hok' : Fresh t' alloc') (hgranted : alloc.isSome)
    (hgranted' : alloc'.isSome) (hclean : key.Legal → FrontErased t') :
    ∃ (τ : Equiv.Perm ℕ) (ret : ℤ) (id id' : ℕ) (u u' : LiskTimer),
      timerAdd t key alloc = some ((ret, id), u) ∧ timerAdd t' key alloc' = some ((ret, id'), u') ∧
      u.clock = t.clock ∧ (∀ cur, (live cur).isSome → τ cur = σ cur) ∧
      Grows t.clock live (afterAdd t.clock live ⟨key, ret, id⟩) ∧
      Twins τ u u' (afterAdd t.clock live ⟨key, ret, id⟩) (hold ids ⟨key, ret, id⟩)
        (hold ids' ⟨key, ret, id'⟩) := by
  rcases timerAdd_spec h.good h.lives hok key with
    ⟨ret, id, u, hadd, haddOk, hgood, hlives, hclock, -⟩
  rcases h.renamed.timerAdd h.good.inv.frontErased hclean hok hok' hgranted hgranted' hadd with
    ⟨τ, id', u', hadd', hid, hsame, hrenamed⟩
  have hsame' : ∀ cur, (live cur).isSome → τ cur = σ cur := fun cur hcur ↦
    hsame cur (h.lives.linked hcur)
  refine ⟨τ, ret, id, id', u, u', hadd, hadd', hclock, hsame', haddOk.grows t.clock, hgood, hlives,
    hrenamed, h.known.hold _ _, ?_⟩
  exact (h.names.congr fun entry hmem hlive ↦ hsame' _ (h.known entry hmem hlive)).hold rfl hid

theorem adds (h : Twins σ t t' live ids ids') {adds adds' : List (TimerKey × Option ℕ)}
    (hsame : List.Forall₂ SameAdd adds adds') (hok : addsOk t adds) (hok' : addsOk t' adds')
    (hclean : addsClean t' adds') :
    ∃ (τ : Equiv.Perm ℕ) (added added' : List Added) (u u' : LiskTimer),
      runAdds t adds = some (added, u) ∧ runAdds t' adds' = some (added', u') ∧
      added'.map Added.unnamed = added.map Added.unnamed ∧ u.clock = t.clock ∧
      (∀ cur, (live cur).isSome → τ cur = σ cur) ∧
      Grows t.clock live (added.foldl (afterAdd t.clock) live) ∧
      Twins τ u u' (added.foldl (afterAdd t.clock) live) (added.foldl hold ids)
        (added'.foldl hold ids') := by
  induction hsame generalizing σ t t' live ids ids' with
  | nil => exact ⟨σ, [], [], t, t', rfl, rfl, rfl, rfl, fun _ _ ↦ rfl, Grows.refl _ _, h⟩
  | @cons add add' adds adds' hadd hrest ih =>
      obtain ⟨key, alloc⟩ := add
      obtain ⟨key', alloc'⟩ := add'
      obtain ⟨rfl, hgranted, hgranted'⟩ : key' = key ∧ alloc.isSome ∧ alloc'.isSome := hadd
      rcases h.add hok.1 hok'.1 hgranted hgranted' hclean.1 with
        ⟨τ, ret, id, id', u, u', hadd, hadd', hclock, hτ, hgrows, htwins⟩
      rcases ih htwins (hok.2 _ hadd) (hok'.2 _ hadd') (hclean.2 _ hadd') with
        ⟨υ, added, added', v, v', hrun, hrun', hunnamed, hclock', hυ, hgrows', htwins'⟩
      rw [hclock] at hgrows' htwins'
      refine ⟨υ, ⟨key', ret, id⟩ :: added, ⟨key', ret, id'⟩ :: added', v, v', ?_, ?_, ?_,
        hclock'.trans hclock, ?_, hgrows.trans hgrows', htwins'⟩
      · rw [runAdds, hadd]
        simp only [Option.bind_eq_bind, Option.bind_some, hrun]
      · rw [runAdds, hadd']
        simp only [Option.bind_eq_bind, Option.bind_some, hrun']
      · rw [List.map_cons, List.map_cons, hunnamed]
        rfl
      · intro cur hcur
        rcases Option.isSome_iff_exists.mp hcur with ⟨content, hcontent⟩
        rw [hυ cur (Option.isSome_of_eq_some (hgrows.keeps cur content hcontent)), hτ cur hcur]

/-- A timer that is due is run in both. -/
theorem run (h : Twins σ t t' live ids ids') {id : ℕ} {content : TimerNode}
    (hlive : live id = some content) {callback callback' : Callback}
    (hsame : SameCallback callback callback') (hok : addsOk t callback.adds)
    (hok' : addsOk t' callback'.adds) (hclean : addsClean t' callback'.adds) :
    ∃ (τ : Equiv.Perm ℕ) (run run' : Run) (u u' : LiskTimer),
      runNode t id content callback = some (run, u) ∧
      runNode t' (σ id) content callback' = some (run', u') ∧ run'.unnamed = run.unnamed ∧
      u.clock = t.clock ∧
      Twins τ u u' (afterRun t.clock live run) (runIds ids run) (runIds ids' run') := by
  rcases h.adds hsame.1 hok hok' hclean with
    ⟨τ, added, added', u, u', hadds, hadds', hunnamed, -, hτ, hgrows, htwins⟩
  rcases runNode_spec h.good h.lives hlive hok with
    ⟨run, v, hrun, -, -, hgood, hlives, hclock, -⟩
  have hid : τ id = σ id := hτ id (Option.isSome_of_eq_some hlive)
  rcases (htwins.lives id content).mp (hgrows.keeps id content hlive) with ⟨hlinked, hnode⟩
  have hnode' := htwins.renamed.node_eq hlinked hnode
  rw [hid] at hnode'
  have hunnamed' : Run.unnamed ⟨σ id, content, added', callback'.ret⟩ =
      Run.unnamed ⟨id, content, added, callback.ret⟩ := by
    simp only [Run.unnamed, hunnamed, hsame.2]
  by_cases hlast : callback.ret = -3 ∨ content.type = etimerOnce
  · have hlast' : callback'.ret = -3 ∨ content.type = etimerOnce := hsame.2.symm ▸ hlast
    rcases timerDelNode_erased (Option.isSome_of_eq_some hnode) with ⟨w, hdel, herased⟩
    rcases timerDelNode_erased (Option.isSome_of_eq_some hnode') with ⟨w', hdel', herased'⟩
    rw [runNode_last hadds hnode hlast hdel] at hrun
    cases hrun
    refine ⟨τ, _, ⟨σ id, content, added', callback'.ret⟩, _, w',
      runNode_last hadds hnode hlast hdel, runNode_last hadds' hnode' hlast' hdel', hunnamed', hclock,
      hgood, hlives, ?_, h.known.run _ _, ?_⟩
    · rw [← hid] at herased'
      exact htwins.renamed.erase herased herased'
    · have hrunLast : (⟨id, content, added, callback.ret⟩ : Run).Last := hlast
      have hrunLast' : (⟨σ id, content, added', callback'.ret⟩ : Run).Last := hlast'
      rw [runIds, if_pos hrunLast, runIds, if_pos hrunLast', ← hid]
      exact htwins.names.forget id
  · have hlast' : ¬ (callback'.ret = -3 ∨ content.type = etimerOnce) := hsame.2.symm ▸ hlast
    have hmove := timerInsNode_own htwins.good.inv hlinked
      { content with trig := u.clock + content.expire }
    rcases (htwins.renamed.write id { content with trig := u.clock + content.expire }).timerInsNode
      hlinked hmove with ⟨w', hmove', hrenamed⟩
    rw [← htwins.renamed.clock, hid] at hmove'
    rw [runNode_again hadds hnode hlast hmove] at hrun
    cases hrun
    refine ⟨τ, _, ⟨σ id, content, added', callback'.ret⟩, _, w',
      runNode_again hadds hnode hlast hmove, runNode_again hadds' hnode' hlast' hmove', hunnamed',
      hclock, hgood, hlives, hrenamed, h.known.run _ _, ?_⟩
    have hrunLast : ¬ (⟨id, content, added, callback.ret⟩ : Run).Last := hlast
    have hrunLast' : ¬ (⟨σ id, content, added', callback'.ret⟩ : Run).Last := hlast'
    rw [runIds, if_neg hrunLast, runIds, if_neg hrunLast']
    exact htwins.names

theorem sameCallback_headD {script script' : List Callback}
    (h : List.Forall₂ SameCallback script script') :
    SameCallback (script.headD idleCallback) (script'.headD idleCallback) ∧
      List.Forall₂ SameCallback script.tail script'.tail := by
  cases h with
  | nil => exact ⟨⟨.nil, rfl⟩, .nil⟩
  | cons hhead htail => exact ⟨hhead, htail⟩

/-- The loop runs the same timers in both. -/
theorem loop (h : Twins σ t t' live ids ids') {turns : ℕ} {script script' : List Callback}
    (hsame : List.Forall₂ SameCallback script script') (hok : loopOk turns none script t)
    (hok' : loopOk turns none script' t') (hclean : loopClean turns none script' t')
    {runs : List Run} {u : LiskTimer} (hloop : loopFrom turns none script t = some (runs, u)) :
    ∃ (τ : Equiv.Perm ℕ) (runs' : List Run) (u' : LiskTimer),
      loopFrom turns none script' t' = some (runs', u') ∧
      runs'.map Run.unnamed = runs.map Run.unnamed ∧
      Twins τ u u' (runs.foldl (afterRun t.clock) live) (runs.foldl runIds ids)
        (runs'.foldl runIds ids') := by
  induction turns generalizing σ t t' live ids ids' script script' runs u with
  | zero => cases hloop
  | succ turns ih =>
      have hlist' := h.renamed.list 0
      cases hlist : t.list 0 with
      | nil =>
          rw [hlist] at hlist'
          rw [loopFrom, nextElem, hlist] at hloop
          rw [loopFrom, nextElem, hlist']
          cases hloop
          exact ⟨σ, [], t', rfl, rfl, h⟩
      | cons id rest =>
          have hmem : id ∈ t.list 0 := hlist ▸ List.mem_cons_self
          rw [hlist, List.map_cons] at hlist'
          rcases h.renamed.node 0 id hmem with ⟨content, hnode, hnode'⟩
          have hlive : live id = some content :=
            (h.lives id content).mpr ⟨h.renamed.linked hmem, hnode⟩
          have hprev : prevElem (t.list 0) id = none := by simp [prevElem, hlist]
          have hprev' : prevElem (t'.list 0) (σ id) = none := by simp [prevElem, hlist']
          have hnext : nextElem (t.list 0) none = some id := by rw [nextElem, hlist]; rfl
          have hnext' : nextElem (t'.list 0) none = some (σ id) := by rw [nextElem, hlist']; rfl
          rw [loopFrom, hnext] at hloop
          rw [loopFrom, hnext']
          simp only [hnode, Option.bind_eq_bind, Option.bind_some] at hloop
          simp only [hnode', Option.bind_eq_bind, Option.bind_some, h.renamed.clock]
          by_cases hlater : t.clock < content.trig
          · rw [if_pos hlater] at hloop
            cases hloop
            rw [if_pos hlater]
            exact ⟨σ, [], t', rfl, rfl, h⟩
          · rw [if_neg hlater] at hloop
            rw [if_neg hlater]
            have hdue : content.trig ≤ t.clock := Nat.not_lt.mp hlater
            have hdue' : content.trig ≤ t'.clock := h.renamed.clock.symm ▸ hdue
            rcases hok id hnext content hnode hdue with ⟨hadds, hrest⟩
            rcases hok' (σ id) hnext' content hnode' hdue' with ⟨hadds', hrest'⟩
            rcases hclean (σ id) hnext' content hnode' hdue' with ⟨hclean, hcleanRest⟩
            rcases sameCallback_headD hsame with ⟨hhead, htail⟩
            rcases h.run hlive hhead hadds hadds' hclean with
              ⟨τ, run, run', u₁, u₁', hrun, hrun', hunnamed, hclock, htwins⟩
            have hok₁ := hrest _ hrun
            have hok₁' := hrest' _ hrun'
            have hclean₁ := hcleanRest _ hrun'
            rw [hprev] at hok₁
            rw [hprev'] at hok₁' hclean₁
            simp only [hrun, Option.bind_some, hprev] at hloop
            simp only [hrun', Option.bind_some, hprev']
            rcases Option.bind_eq_some_iff.mp hloop with ⟨more, hmore, hlast⟩
            cases hlast
            rcases ih htwins htail hok₁ hok₁' hclean₁ hmore with
              ⟨υ, runs', u', hloop', hunnamed', htwins'⟩
            rw [hclock] at htwins'
            refine ⟨υ, run' :: runs', u', ?_, ?_, htwins'⟩
            · rw [hloop']
              rfl
            · rw [List.map_cons, List.map_cons, hunnamed, hunnamed']

theorem del (h : Twins σ t t' live ids ids') {id : ℕ} (hlive : (live id).isSome) :
    ∃ u u', timerDelNode t id = some u ∧ timerDelNode t' (σ id) = some u' ∧
      Twins σ u u' (Function.update live id none) (forget id ids) (forget (σ id) ids') := by
  rcases Option.isSome_iff_exists.mp hlive with ⟨content, hcontent⟩
  rcases (h.lives id content).mp hcontent with ⟨hlinked, hnode⟩
  have hnode' := h.renamed.node_eq hlinked hnode
  rcases timerDelNode_spec h.good h.lives hlinked with ⟨u, hdel, hgood, hlives, -⟩
  rcases timerDelNode_erased (Option.isSome_of_eq_some hnode) with ⟨u₁, hdel₁, herased⟩
  rcases timerDelNode_erased (Option.isSome_of_eq_some hnode') with ⟨u', hdel', herased'⟩
  rw [hdel] at hdel₁
  cases hdel₁
  exact ⟨u, u', hdel, hdel', hgood, hlives, h.renamed.erase herased herased', h.known.forget id,
    h.names.forget id⟩

variable {a : Schedule}

theorem timerLoop (h : Twins σ t t' a.live ids ids') (hrel : Related t a)
    {script script' : List Callback} (hsame : List.Forall₂ SameCallback script script')
    (hok : callOk t (.loop script)) (hok' : callOk t' (.loop script'))
    (hclean : useClean t' (.loop script')) {ret : ℤ} {runs : Option (List Run)} {u : LiskTimer}
    (hloop : timerLoop t script = some ((ret, runs), u)) :
    ∃ (τ : Equiv.Perm ℕ) (runs' : Option (List Run)) (u' : LiskTimer),
      Timer.timerLoop t' script' = some ((ret, runs'), u') ∧
      runs'.map (List.map Run.unnamed) = runs.map (List.map Run.unnamed) ∧
      Twins τ u u' (scheduleStep a (.loop script) (.looped ret runs)).live
        (idsAfter ids (.loop script) (.looped ret runs))
        (idsAfter ids' (.loop script') (.looped ret runs')) := by
  have hclock' := h.renamed.clock
  rw [Timer.timerLoop] at hloop
  rw [Timer.timerLoop, hclock']
  by_cases hclock : t.clock = 0
  · rw [if_pos hclock] at hloop
    cases hloop
    rw [if_pos hclock]
    exact ⟨σ, none, t', rfl, rfl, h⟩
  · rw [if_neg hclock] at hloop
    rw [if_neg hclock]
    by_cases haccepted : minimumDiff ≤ u4 (ptrOffset (t.time / 1000) t.clock)
    · rcases hrel.timerUpdate hok haccepted with ⟨t₁, hupdate, hgood, hlives, hclock₁, -⟩
      rcases h.renamed.timerUpdate hupdate with ⟨t₁', hupdate', hrenamed⟩
      simp only [hupdate, Option.bind_eq_bind, Option.bind_some, ne_eq, not_true_eq_false,
        if_false] at hloop
      simp only [hupdate', Option.bind_eq_bind, Option.bind_some, ne_eq, not_true_eq_false, if_false]
      rcases Option.bind_eq_some_iff.mp hloop with ⟨⟨runs, u⟩, hruns, hlast⟩
      cases hlast
      have htwins : Twins σ t₁ t₁' a.live ids ids' := ⟨hgood, hlives, hrenamed, h.known, h.names⟩
      have hlength : (t₁'.list 0).length = (t₁.list 0).length := by
        rw [hrenamed.list, List.length_map]
      have hloopOk' := hok'.2 _ hupdate' rfl
      have hloopClean := hclean (hclock' ▸ hclock) _ hupdate' rfl
      simp only [hlength] at hloopOk' hloopClean ⊢
      rcases htwins.loop hsame (hok.2 _ hupdate rfl) hloopOk' hloopClean hruns with
        ⟨τ, runs', u', hruns', hunnamed, htwins'⟩
      rw [hclock₁] at htwins'
      refine ⟨τ, some runs', u', ?_, congrArg some hunnamed, htwins'⟩
      rw [hruns']
      rfl
    · rcases h.renamed.timerUpdate (timerUpdate_refused haccepted) with ⟨t₁', hupdate', hrenamed⟩
      simp only [timerUpdate_refused haccepted, Option.bind_eq_bind, Option.bind_some] at hloop
      simp only [hupdate', Option.bind_eq_bind, Option.bind_some]
      cases hloop
      exact ⟨σ, none, t₁', rfl, rfl, h.good, h.lives, hrenamed, h.known, h.names⟩

end Twins

/-! ## Runs of clients -/

variable {a : Schedule} {c c' : Client}

theorem Known.call (h : Known a.live ids) (call : Call) (ret : Ret) :
    Known (scheduleStep a call ret).live (idsAfter ids call ret) := by
  cases call with
  | tick usec => exact h
  | add key alloc =>
      cases ret with
      | added ret id => exact h.hold a.clock ⟨key, ret, id⟩
      | _ => exact h
  | del id => exact h.forget id
  | loop script =>
      cases ret with
      | looped ret runs =>
          cases runs with
          | none => exact h
          | some runs => exact h.runs (a.time / 1000) runs
      | _ => exact h

/-- What a client calls is what the environment promises. -/
theorem Use.call_ok (h : Lives c.timer live) (hknown : Known live c.ids) {use : Use} {call : Call}
    (hcall : use.call c.ids = some call) (hok : clientOk c use) : callOk c.timer call := by
  cases use with
  | tick usec =>
      cases hcall
      exact hok
  | add key alloc =>
      cases hcall
      exact hok
  | del index =>
      rcases hok with ⟨entry, hentry, hlive⟩
      rw [Use.call, hentry] at hcall
      cases hcall
      exact h.linked (hknown entry (List.mem_of_getElem? hentry) hlive)
  | loop script =>
      cases hcall
      exact hok

/-- In every run the ids that a client holds are known. -/
theorem client_known {log : List (Use × Ret)} (htrace : (clientMachine usec room).Trace c log) :
    ∃ a, Related c.timer a ∧ Known a.live c.ids := by
  refine htrace.invariant (fun c ↦ ∃ a, Related c.timer a ∧ Known a.live c.ids) ?_ ?_
  · rintro c rfl
    exact ⟨_, related_init usec room, fun _ hentry ↦ nomatch hentry⟩
  · rintro c use ret d ⟨a, hrel, hknown⟩ hok hexec
    rcases Option.bind_eq_some_iff.mp hexec with ⟨call, hcall, hrest⟩
    rcases Option.bind_eq_some_iff.mp hrest with ⟨out, hout, hlast⟩
    cases hlast
    rcases call_simulates usec room c.timer a call hrel (Use.call_ok hrel.lives hknown hcall hok) with
      ⟨ret, t', hexec', -, hrel'⟩
    have hsame : some (ret, t') = some out := hexec'.symm.trans hout
    cases hsame
    exact ⟨_, hrel', hknown.call call ret⟩

theorem clientExec_eq {use : Use} {call : Call} {ret : Ret} {u : LiskTimer}
    (hcall : use.call c.ids = some call) (hexec : callExec c.timer call = some (ret, u)) :
    clientExec c use = some (ret, ⟨u, idsAfter c.ids call ret⟩) := by
  simp only [clientExec, hcall, Option.bind_eq_bind, Option.bind_some, hexec]

/-- Both clients make a call, which returns the same but for addresses, and are alike after it. -/
def Alike (c c' : Client) (use use' : Use) : Prop :=
  ∃ (τ : Equiv.Perm ℕ) (b : Schedule) (ret ret' : Ret) (d d' : Client),
    clientExec c use = some (ret, d) ∧ clientExec c' use' = some (ret', d') ∧
    ret'.unnamed = ret.unnamed ∧ Related d.timer b ∧
    Twins τ d.timer d'.timer b.live d.ids d'.ids

namespace Twins

theorem call_tick (h : Twins σ c.timer c'.timer a.live c.ids c'.ids) (hrel : Related c.timer a)
    {usec : ℕ} (hok : clientOk c (.tick usec)) : Alike c c' (.tick usec) (.tick usec) := by
  rcases call_simulates 0 0 c.timer a (.tick usec) hrel hok with ⟨ret, t₁, hexec, -, hrel'⟩
  cases hexec
  exact ⟨σ, _, _, _, _, _, clientExec_eq rfl rfl, clientExec_eq rfl rfl, rfl, hrel',
    hrel'.good, hrel'.lives, ⟨rfl, h.renamed.clock, h.renamed.hand, h.renamed.levels,
      h.renamed.list, h.renamed.node, h.renamed.not_null⟩, h.known, h.names⟩

theorem call_add (h : Twins σ c.timer c'.timer a.live c.ids c'.ids) (hrel : Related c.timer a)
    {key : TimerKey} {alloc alloc' : Option ℕ} (hgranted : alloc.isSome) (hgranted' : alloc'.isSome)
    (hok : clientOk c (.add key alloc)) (hok' : clientOk c' (.add key alloc'))
    (hclean : useClean c'.timer (.add key alloc')) :
    Alike c c' (.add key alloc) (.add key alloc') := by
  rcases h.add hok hok' hgranted hgranted' hclean with
    ⟨τ, ret, id, id', u, u', hadd, hadd', -, -, -, htwins⟩
  have hcall : callExec c.timer (.add key alloc) = some (.added ret id, u) := by
    rw [callExec, hadd]
    rfl
  have hcall' : callExec c'.timer (.add key alloc') = some (.added ret id', u') := by
    rw [callExec, hadd']
    rfl
  rcases call_simulates 0 0 c.timer a (.add key alloc) hrel hok with ⟨ret₁, t₁, hexec, -, hrel'⟩
  cases hcall.symm.trans hexec
  rw [hrel.clock] at htwins
  exact ⟨τ, _, _, _, _, _, clientExec_eq rfl hcall, clientExec_eq rfl hcall', rfl, hrel', htwins⟩

theorem call_del (h : Twins σ c.timer c'.timer a.live c.ids c'.ids) (hrel : Related c.timer a)
    {index : ℕ} (hok : clientOk c (.del index)) : Alike c c' (.del index) (.del index) := by
  rcases hok with ⟨⟨id, flag⟩, hentry, rfl⟩
  have huse : (Use.del index).call c.ids = some (.del id) := by
    rw [Use.call, Option.mem_def.mp hentry]
    rfl
  have huse' : (Use.del index).call c'.ids = some (.del (σ id)) := by
    rw [Use.call, h.names.getElem hentry]
    rfl
  have hlive : (a.live id).isSome := h.known _ (List.mem_of_getElem? hentry) rfl
  have hlinked := h.lives.linked hlive
  have ⟨level, _, hmem⟩ := hlinked
  have hid : id ≠ 0 := (h.good.inv.nodes level id hmem).2
  rcases h.del hlive with ⟨u, u', hdel, hdel', htwins⟩
  have hcall : callExec c.timer (.del id) = some (.code 0, u) := by
    rw [callExec, timerDel, if_neg hid, hdel]
    rfl
  have hcall' : callExec c'.timer (.del (σ id)) = some (.code 0, u') := by
    rw [callExec, timerDel, if_neg (h.renamed.ne_zero hlinked), hdel']
    rfl
  rcases call_simulates 0 0 c.timer a (.del id) hrel hlinked with ⟨ret₁, t₁, hexec, -, hrel'⟩
  cases hcall.symm.trans hexec
  exact ⟨σ, _, _, _, _, _, clientExec_eq huse hcall, clientExec_eq huse' hcall', rfl, hrel', htwins⟩

theorem call_loop (h : Twins σ c.timer c'.timer a.live c.ids c'.ids) (hrel : Related c.timer a)
    {script script' : List Callback} (hsame : List.Forall₂ SameCallback script script')
    (hok : clientOk c (.loop script)) (hok' : clientOk c' (.loop script'))
    (hclean : useClean c'.timer (.loop script')) : Alike c c' (.loop script) (.loop script') := by
  rcases call_simulates 0 0 c.timer a (.loop script) hrel hok with ⟨ret, t₁, hexec, -, hrel'⟩
  rcases Option.map_eq_some_iff.mp hexec with ⟨⟨⟨ret, runs⟩, u⟩, hloop, hout⟩
  cases hout
  rcases h.timerLoop hrel hsame hok hok' hclean hloop with ⟨τ, runs', u', hloop', hunnamed, htwins⟩
  have hcall' : callExec c'.timer (.loop script') = some (.looped ret runs', u') := by
    rw [callExec, hloop']
    rfl
  exact ⟨τ, _, _, _, _, _, clientExec_eq rfl hexec, clientExec_eq rfl hcall',
    congrArg (Ret.looped ret) hunnamed, hrel', htwins⟩

/-- One call in both runs. -/
theorem call (h : Twins σ c.timer c'.timer a.live c.ids c'.ids) (hrel : Related c.timer a)
    {use use' : Use} (hsame : SameUse use use') (hok : clientOk c use) (hok' : clientOk c' use')
    (hclean : useClean c'.timer use') : Alike c c' use use' := by
  cases use with
  | tick usec =>
      cases use' with
      | tick usec' =>
          obtain rfl : usec' = usec := hsame
          exact h.call_tick hrel hok
      | _ => exact hsame.elim
  | add key alloc =>
      cases use' with
      | add key' alloc' =>
          obtain ⟨rfl, hgranted, hgranted'⟩ : key' = key ∧ alloc.isSome ∧ alloc'.isSome := hsame
          exact h.call_add hrel hgranted hgranted' hok hok' hclean
      | _ => exact hsame.elim
  | del index =>
      cases use' with
      | del index' =>
          obtain rfl : index' = index := hsame
          exact h.call_del hrel hok
      | _ => exact hsame.elim
  | loop script =>
      cases use' with
      | loop script' => exact h.call_loop hrel hsame hok hok' hclean
      | _ => exact hsame.elim

end Twins

/-- What the calls of a run return, without addresses. -/
def unnamedLog (log : List (Use × Ret)) : List Ret := log.map fun entry ↦ entry.2.unnamed

/-- The induction over the calls. -/
theorem Twins.calls (h : Twins σ c.timer c'.timer a.live c.ids c'.ids) (hrel : Related c.timer a)
    {uses uses' : List Use} (hsame : List.Forall₂ SameUse uses uses')
    (hok : (clientMachine usec room).AllOk c uses)
    (hclean : (cleanMachine usec room).AllOk c' uses') :
    ∃ (log log' : List (Use × Ret)) (d d' : Client),
      (clientMachine usec room).execAll c uses = some (log, d) ∧
      (clientMachine usec room).execAll c' uses' = some (log', d') ∧
      unnamedLog log' = unnamedLog log ∧ d'.timer.clock = d.timer.clock := by
  induction hsame generalizing σ a c c' with
  | nil => exact ⟨[], [], c, c', rfl, rfl, rfl, h.renamed.clock⟩
  | @cons use use' uses uses' huse hrest ih =>
      rcases h.call hrel huse hok.1 hclean.1.1 hclean.1.2 with
        ⟨τ, b, ret, ret', d, d', hexec, hexec', hunnamed, hrel', htwins⟩
      rcases ih htwins hrel' (hok.2 _ hexec) (hclean.2 _ hexec') with
        ⟨log, log', e, e', hrun, hrun', hunnamed', hclock⟩
      refine ⟨(use, ret) :: log, (use', ret') :: log', e, e', ?_, ?_, ?_, hclock⟩
      · rw [Machine.execAll, show (clientMachine usec room).exec c use = _ from hexec,
          Option.bind_some, hrun]
        rfl
      · rw [Machine.execAll, show (clientMachine usec room).exec c' use' = _ from hexec',
          Option.bind_some, hrun']
        rfl
      · rw [unnamedLog, unnamedLog, List.map_cons, List.map_cons, hunnamed]
        exact congrArg (ret.unnamed :: ·) hunnamed'

/-- From every reachable state, `timer_del` of an erased node that was not freed makes no difference to
any calls that follow, as long as each timer that is added takes an erased node if it takes one of the
ring: the loops run the same timers at the same clock. -/
theorem stale_del_unnoticed {log : List (Use × Ret)}
    (htrace : (clientMachine usec room).Trace c log) {id : ℕ} (hnode : (c.timer.node id).isSome)
    (hnot : ¬ c.timer.Linked id) :
    ∃ ret t', timerDel c.timer id = some (ret, t') ∧
      ∀ uses uses', List.Forall₂ SameUse uses uses' → (clientMachine usec room).AllOk c uses →
        (cleanMachine usec room).AllOk ⟨t', c.ids⟩ uses' →
        ∃ (log log' : List (Use × Ret)) (d d' : Client),
          (clientMachine usec room).execAll c uses = some (log, d) ∧
          (clientMachine usec room).execAll ⟨t', c.ids⟩ uses' = some (log', d') ∧
          unnamedLog log' = unnamedLog log ∧ d'.timer.clock = d.timer.clock := by
  rcases client_known htrace with ⟨a, hrel, hknown⟩
  have hdel : ∃ ret t', timerDel c.timer id = some (ret, t') ∧
      Renamed (Equiv.refl ℕ) c.timer t' := by
    rw [timerDel]
    split
    · exact ⟨-1, c.timer, rfl, hrel.good.inv.renamed rfl rfl rfl rfl fun _ _ _ ↦ rfl⟩
    · rcases timerDelNode_erased hnode with ⟨t', hdel, herased⟩
      refine ⟨0, t', ?_, herased.renamed hrel.good.inv hnot⟩
      rw [hdel]
      rfl
  rcases hdel with ⟨ret, t', hdel, hrenamed⟩
  refine ⟨ret, t', hdel, fun uses uses' hsame hok hclean ↦ ?_⟩
  let c' : Client := ⟨t', c.ids⟩
  have htwins : Twins (Equiv.refl ℕ) c.timer c'.timer a.live c.ids c'.ids :=
    ⟨hrel.good, hrel.lives, hrenamed, hknown, List.forall₂_same.mpr fun _ _ ↦ ⟨rfl, fun _ ↦ rfl⟩⟩
  exact htwins.calls hrel hsame hok hclean

instance decidableAddsClean : (t : LiskTimer) → (adds : List (TimerKey × Option ℕ)) →
    Decidable (addsClean t adds)
  | _, [] => isTrue trivial
  | t, (key, alloc) :: rest =>
      have (out : (ℤ × ℕ) × LiskTimer) : Decidable (addsClean out.2 rest) :=
        decidableAddsClean out.2 rest
      inferInstanceAs (Decidable ((key.Legal → FrontErased t) ∧
        ∀ out ∈ timerAdd t key alloc, addsClean out.2 rest))

instance decidableLoopClean : (turns : ℕ) → (prev : Option ℕ) → (script : List Callback) →
    (t : LiskTimer) → Decidable (loopClean turns prev script t)
  | 0, _, _, _ => isTrue trivial
  | turns + 1, prev, script, t =>
      have (prev : Option ℕ) (out : Run × LiskTimer) :
          Decidable (loopClean turns prev script.tail out.2) :=
        decidableLoopClean turns prev script.tail out.2
      inferInstanceAs (Decidable (∀ id ∈ nextElem (t.list 0) prev, ∀ content ∈ t.node id,
        content.trig ≤ t.clock → addsClean t (script.headD idleCallback).adds ∧
          ∀ out ∈ runNode t id content (script.headD idleCallback),
            loopClean turns (prevElem (t.list 0) id) script.tail out.2))

instance (t : LiskTimer) : (use : Use) → Decidable (useClean t use)
  | .tick _ => isTrue trivial
  | .add key _ => inferInstanceAs (Decidable (key.Legal → FrontErased t))
  | .del _ => isTrue trivial
  | .loop script => inferInstanceAs (Decidable (t.clock ≠ 0 → ∀ out ∈ timerUpdate t, out.1 = 0 →
      loopClean ((out.2.list 0).length + 1) none script out.2))

instance decidableClientOk (c : Client) : (use : Use) → Decidable (clientOk c use)
  | .tick usec => inferInstanceAs (Decidable (callOk c.timer (.tick usec)))
  | .add key alloc => inferInstanceAs (Decidable (callOk c.timer (.add key alloc)))
  | .del index => inferInstanceAs (Decidable (∃ entry ∈ c.ids[index]?, entry.2 = true))
  | .loop script => inferInstanceAs (Decidable (callOk c.timer (.loop script)))

instance (usec room : ℕ) (c : Client) (use : Use) : Decidable ((clientMachine usec room).ok c use) :=
  decidableClientOk c use

instance (usec room : ℕ) (c : Client) (use : Use) : Decidable ((cleanMachine usec room).ok c use) :=
  inferInstanceAs (Decidable (clientOk c use ∧ useClean c.timer use))

/-- A timer runs once, and then its node is in the ring. -/
def onceUses : List Use := [.add ⟨1, 500, 1, 7⟩ (some 100), .tick 2000000, .loop []]

theorem onceUses_run :
    ((clientMachine 1000000 4).execAll ⟨timerInit 1000000 4, []⟩ onceUses).isSome := by
  decide +kernel

/-- The client after that. -/
def onceClient : Client :=
  (((clientMachine 1000000 4).execAll ⟨timerInit 1000000 4, []⟩ onceUses).get onceUses_run).2

theorem onceClient_trace : ∃ log, (clientMachine 1000000 4).Trace onceClient log :=
  ⟨_, Machine.trace_execAll rfl (by decide +kernel) (Option.some_get onceUses_run).symm⟩

/-- Two timers, the second added when the first is gone. -/
def apartUses : List Use :=
  [.add ⟨1, 500, 3, 7⟩ (some 300), .tick 3000000, .loop [], .add ⟨1, 500, 4, 7⟩ (some 400),
    .tick 4000000, .loop []]

theorem stale_del_unnoticed_small :
    ∃ ret t' log log' d d', timerDel onceClient.timer 100 = some (ret, t') ∧
      (clientMachine 1000000 4).execAll onceClient apartUses = some (log, d) ∧
      (clientMachine 1000000 4).execAll ⟨t', onceClient.ids⟩ apartUses = some (log', d') ∧
      unnamedLog log' = unnamedLog log := by
  rcases onceClient_trace with ⟨log, htrace⟩
  have hnode : (onceClient.timer.node 100).isSome := by decide +kernel
  rcases stale_del_unnoticed htrace hnode (by decide +kernel) with ⟨ret, t', hdel, hall⟩
  have hclean : ∀ out ∈ timerDel onceClient.timer 100,
      (cleanMachine 1000000 4).AllOk ⟨out.2, onceClient.ids⟩ apartUses := by
    decide +kernel
  have hsame : List.Forall₂ SameUse apartUses apartUses := by
    simp [apartUses, SameUse, SameAdd]
  rcases hall apartUses apartUses hsame (by decide +kernel) (hclean _ hdel) with
    ⟨log, log', d, d', hrun, hrun', hunnamed, -⟩
  exact ⟨ret, t', log, log', d, d', hdel, hrun, hrun', hunnamed⟩

/-- Two timers, the second added while the first is live. -/
def togetherUses : List Use :=
  [.add ⟨1, 500, 3, 7⟩ (some 300), .add ⟨1, 500, 4, 7⟩ (some 400), .tick 3000000, .loop []]

/-- The arguments that the loops of a run pass to the callbacks. -/
def firedArgs (log : List (Use × Ret)) : List ℕ :=
  log.flatMap fun entry ↦ match entry.2 with
    | .looped _ (some runs) => runs.map fun run ↦ run.node.arg
    | _ => []

/-- The second timer is written over the first one, whose argument is lost. -/
theorem stale_del_overwrites :
    (∃ log, (clientMachine 1000000 4).Trace onceClient log) ∧ (100, false) ∈ onceClient.ids ∧
      (onceClient.timer.node 100).isSome ∧ ¬ onceClient.timer.Linked 100 ∧
      (clientMachine 1000000 4).AllOk onceClient togetherUses ∧
      ((clientMachine 1000000 4).execAll onceClient togetherUses).map (fun out ↦ firedArgs out.1) =
        some [3, 4] ∧
      ∃ out ∈ timerDel onceClient.timer 100,
        (clientMachine 1000000 4).AllOk ⟨out.2, onceClient.ids⟩ togetherUses ∧
        ((clientMachine 1000000 4).execAll ⟨out.2, onceClient.ids⟩ togetherUses).map
          (fun out ↦ firedArgs out.1) = some [4, 4] :=
  ⟨onceClient_trace, by decide +kernel⟩

end CPractice.Timer
