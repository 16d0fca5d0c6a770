import Mathlib.Data.List.ReduceOption
import CPractice.Lib.Linked
import CPractice.Queue.Model

/-!
# Sequential runs of the linked queue are those of a FIFO queue

The nodes behind the head hold the elements in order, the tail is the last of them, and the nodes of
the recycle ring are apart from both.  A push that takes its node from the ring copies the element
into it and the queue is then a FIFO queue; a push that allocates a node itself links it with
whatever the allocator left there.
-/

namespace CPractice.Queue

open Lib CPractice.Ring

variable {α : Type} {q : QueueT α} {list : List α} {addrs free : List ℕ}

/-- The pointer of a node. -/
def nextOf (nodes : ℕ → Option (NodeT α)) (a : ℕ) : Option ℕ := (nodes a).map NodeT.next

/-- The data of a node. -/
def dataOf (nodes : ℕ → Option (NodeT α)) (a : ℕ) : Option α := (nodes a).bind NodeT.data

/-! ## The invariant -/

/-- The nodes `addrs` behind the head hold `list`, and the ring holds the nodes `free`. -/
structure Inv (q : QueueT α) (list : List α) (addrs free : List ℕ) : Prop where
  path : Path (nextOf q.nodes) (q.head :: addrs ++ [0])
  tail : q.tail = lastFrom q.head addrs
  data : addrs.map (dataOf q.nodes) = list.map some
  nodup : (0 :: q.head :: (addrs ++ free)).Nodup
  live : ∀ a ∈ q.head :: (addrs ++ free), (q.nodes a).isSome
  ring : HoldsCounted q.ring free
  unit : q.ring.unitSize = 8
  fits : nodeSize + q.size < 4294967296

namespace Inv

theorem unit_lt (h : Inv q list addrs free) : q.ring.unitSize < 4294967296 := by
  rw [h.unit]
  decide

theorem nodeLen_eq (h : Inv q list addrs free) : nodeLen q.size = nodeSize + q.size :=
  u4_of_lt h.fits

/-- Nothing but the nodes of the list is read. -/
theorem congr {nodes' : ℕ → Option (NodeT α)} {ring' : CountedRing ℕ} {free' : List ℕ}
    (h : Inv q list addrs free) (hagree : ∀ a ∈ q.head :: addrs, nodes' a = q.nodes a)
    (hnodup : (0 :: q.head :: (addrs ++ free')).Nodup) (hlive : ∀ a ∈ free', (nodes' a).isSome)
    (hring : HoldsCounted ring' free') (hunit : ring'.unitSize = q.ring.unitSize) :
    Inv { q with nodes := nodes', ring := ring' } list addrs free' := by
  have hread : ∀ a ∈ q.head :: addrs, nextOf nodes' a = nextOf q.nodes a := by
    intro a ha
    unfold nextOf
    rw [hagree a ha]
  have hdata : ∀ a ∈ addrs, dataOf nodes' a = dataOf q.nodes a := by
    intro a ha
    unfold dataOf
    rw [hagree a (List.mem_cons_of_mem _ ha)]
  constructor
  case path => exact Path.congr_init h.path hread
  case tail => exact h.tail
  case data => exact (List.map_congr_left hdata).trans h.data
  case nodup => exact hnodup
  case live =>
    intro a ha
    rw [← List.cons_append] at ha
    rcases List.mem_append.mp ha with hlist | hfree
    · have hold := h.live a (List.mem_append_left free hlist)
      rwa [← hagree a hlist] at hold
    · exact hlive a hfree
  case ring => exact hring
  case unit => exact hunit.trans h.unit
  case fits => exact h.fits

/-- The counter is apart from the list. -/
theorem with_num (h : Inv q list addrs free) (num : ℕ) :
    Inv { q with num := num } list addrs free :=
  ⟨h.path, h.tail, h.data, h.nodup, h.live, h.ring, h.unit, h.fits⟩

/-- A fresh node is added to the ring. -/
theorem add_free {node : ℕ} {ring' : CountedRing ℕ} {n : NodeT α} (h : Inv q list addrs free)
    (hnode : node ≠ 0) (hfresh : (q.nodes node).isNone) (hring : HoldsCounted ring' (free ++ [node]))
    (hunit : ring'.unitSize = q.ring.unitSize) :
    Inv { q with nodes := Function.update q.nodes node (some n), ring := ring' } list addrs
      (free ++ [node]) := by
  have hnot : ∀ a ∈ q.head :: (addrs ++ free), a ≠ node := by
    intro a ha heq
    have hsome := h.live a ha
    rw [heq] at hsome
    rw [Option.isNone_iff_eq_none.mp hfresh] at hsome
    cases hsome
  apply h.congr
  · intro a ha
    exact Function.update_of_ne (hnot a (List.mem_append_left free ha)) _ _
  · have hnodup : ((0 :: q.head :: (addrs ++ free)) ++ [node]).Nodup := by
      apply List.nodup_append.mpr
      refine ⟨h.nodup, List.nodup_singleton node, ?_⟩
      intro a ha b hb
      rw [List.mem_singleton.mp hb]
      rcases List.mem_cons.mp ha with heq | hmem
      · rw [heq]
        exact hnode.symm
      · exact hnot a hmem
    simpa using hnodup
  · intro a ha
    rcases List.mem_append.mp ha with hold | hnew
    · have hmem : a ∈ q.head :: (addrs ++ free) :=
        List.mem_cons_of_mem _ (List.mem_append_right _ hold)
      rw [Function.update_of_ne (hnot a hmem)]
      exact h.live a hmem
    · rw [List.mem_singleton.mp hnew, Function.update_self]
      rfl
  · exact hring
  · exact hunit

end Inv

/-! ## `queue_fill` -/

theorem freshAllocs_tail {nodes : ℕ → Option (NodeT α)} {alloc : Option ℕ}
    {allocs : List (Option ℕ)} (h : freshAllocs nodes (alloc :: allocs)) :
    freshAllocs nodes allocs := by
  cases alloc with
  | none => simpa [freshAllocs] using h
  | some node =>
      rcases h with ⟨hnodup, hfresh⟩
      rw [List.reduceOption_cons_of_some] at hnodup hfresh
      exact ⟨(List.nodup_cons.mp hnodup).2, fun a ha ↦ hfresh a (List.mem_cons_of_mem _ ha)⟩

theorem freshAllocs_update {nodes : ℕ → Option (NodeT α)} {node : ℕ} {allocs : List (Option ℕ)}
    {n : Option (NodeT α)} (h : freshAllocs nodes allocs) (hnot : node ∉ allocs.reduceOption) :
    freshAllocs (Function.update nodes node n) allocs := by
  refine ⟨h.1, fun a ha ↦ ?_⟩
  have hne : a ≠ node := by
    intro heq
    exact hnot (heq ▸ ha)
  rw [Function.update_of_ne hne]
  exact h.2 a ha

/-- Storing into a live node keeps the granted addresses fresh. -/
theorem freshAllocs_store {nodes : ℕ → Option (NodeT α)} {node : ℕ} {allocs : List (Option ℕ)}
    {n : Option (NodeT α)} (h : freshAllocs nodes allocs) (hlive : (nodes node).isSome) :
    freshAllocs (Function.update nodes node n) allocs := by
  apply freshAllocs_update h
  intro hmem
  have hnone := (h.2 node hmem).2
  rw [Option.isNone_iff_eq_none.mp hnone] at hlive
  cases hlive

theorem Inv.fillLoop_spec (turns left : ℕ) (h : Inv q list addrs free) {allocs : List (Option ℕ)}
    (hfresh : freshAllocs q.nodes allocs) :
    ∃ q' free', fillLoop (turns + 1) left q allocs = some q' ∧ Inv q' list addrs free' ∧
      q'.num = q.num := by
  induction left generalizing q free allocs with
  | zero => exact ⟨q, free, rfl, h, rfl⟩
  | succ left ih =>
      cases allocs with
      | nil => exact ⟨q, free, rfl, h, rfl⟩
      | cons alloc allocs =>
          cases alloc with
          | none => exact ⟨q, free, rfl, h, rfl⟩
          | some node =>
              have hnode := hfresh.2 node (by simp)
              have hlen : ¬ nodeLen q.size < nodeSize := by
                rw [h.nodeLen_eq]
                omega
              rcases h.ring.push_single turns node h.unit_lt with hpush | hfull
              · rcases hpush with ⟨-, ring', hpush, hring, -, hunit⟩
                have hnext := h.add_free (n := ⟨0, if q.size = 0 then none else none⟩) hnode.1
                  hnode.2 hring hunit
                have hrest : freshAllocs
                    (Function.update q.nodes node (some ⟨0, if q.size = 0 then none else none⟩))
                    allocs := by
                  apply freshAllocs_update (freshAllocs_tail hfresh)
                  have hnodup := hfresh.1
                  rw [List.reduceOption_cons_of_some] at hnodup
                  exact (List.nodup_cons.mp hnodup).1
                rcases ih hnext hrest with ⟨q', free', hloop, hinv, hnum⟩
                refine ⟨q', free', ?_, hinv, hnum⟩
                simpa [fillLoop, queueNodeInit, hlen, hpush] using hloop
              · refine ⟨q, free, ?_, h, rfl⟩
                simp [fillLoop, queueNodeInit, hlen, hfull.2]

/-- `queue_fill` leaves the list as it is. -/
theorem Inv.queueFill_spec (turns : ℕ) (h : Inv q list addrs free) {allocs : List (Option ℕ)}
    (hfresh : freshAllocs q.nodes allocs) :
    ∃ q' free', queueFill (turns + 1) q allocs = some q' ∧ Inv q' list addrs free' ∧
      q'.num = q.num := by
  unfold queueFill
  split
  · exact ⟨q, free, rfl, h, rfl⟩
  · exact h.fillLoop_spec turns _ hfresh

/-! ## Linking a node -/

theorem nextOf_eq {nodes : ℕ → Option (NodeT α)} {a target : ℕ}
    (h : nextOf nodes a = some target) : ∃ data, nodes a = some ⟨target, data⟩ := by
  rcases Option.map_eq_some_iff.mp h with ⟨⟨next, data⟩, hnode, hnext⟩
  exact ⟨data, by rw [hnode, ← hnext]⟩

/-- The list with the pointer of its last node. -/
theorem Inv.last_node (h : Inv q list addrs free) :
    ∃ before data, q.head :: addrs = before ++ [q.tail] ∧ q.nodes q.tail = some ⟨0, data⟩ := by
  rcases exists_concat_lastFrom q.head addrs with ⟨before, hbefore⟩
  rw [← h.tail] at hbefore
  have hpath := h.path
  rw [hbefore, List.append_assoc] at hpath
  have hnext : nextOf q.nodes q.tail = some 0 := Path.next_eq hpath
  rcases nextOf_eq hnext with ⟨data, hnode⟩
  exact ⟨before, data, hbefore, hnode⟩

/-- A node apart from the others is linked behind the tail. -/
theorem Inv.linkTail_spec (turns : ℕ) {node : ℕ} {elem : α} (h : Inv q list addrs free)
    (hnode : q.nodes node = some ⟨0, some elem⟩) (hapart : node ∉ 0 :: q.head :: (addrs ++ free)) :
    ∃ q', linkTail (turns + 1) q node = some q' ∧
      Inv q' (list ++ [elem]) (addrs ++ [node]) free ∧ q'.num = q.num ∧
      ∀ a, (q'.nodes a).isSome = (q.nodes a).isSome := by
  rcases h.last_node with ⟨before, data, hbefore, hlast⟩
  have htail : q.tail ∈ q.head :: addrs := by
    rw [hbefore]
    exact List.mem_append_right _ (List.mem_singleton_self _)
  have hne : node ≠ q.tail := by
    intro heq
    apply hapart
    rw [heq]
    exact List.mem_cons_of_mem 0 (List.mem_append_left free htail)
  have hnot : node ∉ q.head :: (addrs ++ free) := fun hmem ↦ hapart (List.mem_cons_of_mem 0 hmem)
  have hnodup0 : (before ++ q.tail :: 0 :: []).Nodup := by
    have hsub : (0 :: (q.head :: addrs)).Nodup := by
      apply List.Nodup.sublist _ h.nodup
      exact ((List.sublist_append_left addrs free).cons_cons q.head).cons_cons 0
    rw [hbefore] at hsub
    have hperm : (0 :: (before ++ [q.tail])).Perm (before ++ [q.tail] ++ [0]) :=
      (List.perm_append_singleton 0 _).symm
    have hnodup := hperm.nodup_iff.mp hsub
    rwa [List.append_assoc] at hnodup
  let nodes' := Function.update q.nodes q.tail (some ⟨node, data⟩)
  refine ⟨{ q with nodes := nodes', tail := node }, ?_, ?_, rfl, ?_⟩
  · simp [linkTail, setNext, hlast, nodes']
  · constructor
    case path =>
      have hpath := h.path
      rw [hbefore, List.append_assoc] at hpath
      have hsplice : Path (nextOf nodes') (before ++ q.tail :: node :: 0 :: []) := by
        apply Path.splice hpath hnodup0
        · simp [nextOf, nodes']
        · simp [nextOf, nodes', Function.update_of_ne hne, hnode]
        · intro a _ ha
          simp [nextOf, nodes', Function.update_of_ne ha]
      have hlist : q.head :: (addrs ++ [node]) ++ [0] = before ++ q.tail :: node :: 0 :: [] := by
        rw [← List.cons_append, hbefore]
        simp
      rw [hlist]
      exact hsplice
    case tail => simp
    case data =>
      have hdata : ∀ a, a ≠ node → dataOf nodes' a = dataOf q.nodes a := by
        intro a _
        by_cases ha : a = q.tail
        · simp [dataOf, nodes', ha, hlast]
        · simp [dataOf, nodes', Function.update_of_ne ha]
      have hold : addrs.map (dataOf nodes') = list.map some := by
        rw [← h.data]
        apply List.map_congr_left
        intro a ha
        apply hdata
        intro heq
        exact hnot (List.mem_cons_of_mem _ (List.mem_append_left _ (heq ▸ ha)))
      have hnew : dataOf nodes' node = some elem := by
        simp [dataOf, nodes', Function.update_of_ne hne, hnode]
      simp [hold, hnew]
    case nodup =>
      have hcons := List.nodup_cons.mpr ⟨hapart, h.nodup⟩
      apply (List.Perm.nodup_iff _).mp hcons
      have hmove : (node :: (addrs ++ free)).Perm (addrs ++ [node] ++ free) := by
        rw [List.append_assoc, List.singleton_append]
        exact List.perm_middle.symm
      have hswap : (node :: 0 :: q.head :: (addrs ++ free)).Perm
          (0 :: q.head :: node :: (addrs ++ free)) :=
        (List.Perm.swap 0 node _).trans ((List.Perm.swap q.head node _).cons 0)
      exact hswap.trans ((hmove.cons q.head).cons 0)
    case live =>
      intro a ha
      by_cases hat : a = q.tail
      · simp [nodes', hat]
      · by_cases han : a = node
        · simp [nodes', han, Function.update_of_ne hne, hnode]
        · simp only [nodes', Function.update_of_ne hat]
          apply h.live
          simp only [List.mem_cons, List.mem_append, List.append_assoc, List.not_mem_nil, or_false]
            at ha ⊢
          tauto
    case ring => exact h.ring
    case unit => exact h.unit
    case fits => exact h.fits
  · intro a
    by_cases hat : a = q.tail
    · simp [nodes', hat, hlast]
    · simp [nodes', Function.update_of_ne hat]

/-- The end of a push: the node is linked, the ring filled and the counter raised. -/
theorem Inv.finishPush_spec (turns : ℕ) {node : ℕ} {elem : α} {allocs : List (Option ℕ)}
    (h : Inv q list addrs free) (hnode : q.nodes node = some ⟨0, some elem⟩)
    (hapart : node ∉ 0 :: q.head :: (addrs ++ free)) (hfresh : freshAllocs q.nodes allocs) :
    ∃ q' free', finishPush (turns + 1) q node allocs = some (0, q') ∧
      Inv q' (list ++ [elem]) (addrs ++ [node]) free' ∧ q'.num = u4 (q.num + 1) := by
  rcases h.linkTail_spec turns hnode hapart with ⟨q₁, hlink, hinv, hnum, hdomain⟩
  have hfresh₁ : freshAllocs q₁.nodes allocs := by
    refine ⟨hfresh.1, fun a ha ↦ ?_⟩
    have hnone := hfresh.2 a ha
    rw [← Option.not_isSome, hdomain a, Option.not_isSome]
    exact hnone
  rcases hinv.queueFill_spec turns hfresh₁ with ⟨q₂, free', hfill, hinv₂, hnum₂⟩
  refine ⟨{ q₂ with num := u4 (q₂.num + 1) }, free', ?_, ?_, ?_⟩
  · simp [finishPush, hlink, hfill]
  · exact hinv₂.with_num _
  · simp [hnum₂, hnum]

/-! ## `queue_push` and `queue_pop` -/

/-- A push whose node comes from the ring. -/
theorem Inv.push_from_ring (turns : ℕ) {node : ℕ} {rest : List ℕ} {elem : α}
    {allocs : List (Option ℕ)} {ring' : CountedRing ℕ} (h : Inv q list addrs (node :: rest))
    (hpop : batchPop (turns + 1) q.ring 1 = some (0, [some node], ring'))
    (hring : HoldsCounted ring' rest) (hunit : ring'.unitSize = q.ring.unitSize)
    (hfresh : freshAllocs q.nodes allocs) :
    ∃ q' addrs' free', queuePush (turns + 1) q elem allocs = some (0, q') ∧
      Inv q' (list ++ [elem]) addrs' free' ∧ q'.num = u4 (q.num + 1) := by
  have hperm : (0 :: q.head :: (addrs ++ node :: rest)).Perm
      (node :: 0 :: q.head :: (addrs ++ rest)) := by
    have hmove : (addrs ++ node :: rest).Perm (node :: (addrs ++ rest)) := List.perm_middle
    exact ((hmove.cons q.head).cons 0).trans
      (((List.Perm.swap node q.head _).cons 0).trans (List.Perm.swap node 0 _))
  have hnodup := List.nodup_cons.mp (hperm.nodup_iff.mp h.nodup)
  have hlive := h.live node (by simp)
  rcases Option.isSome_iff_exists.mp hlive with ⟨n, hn⟩
  let nodes' := Function.update q.nodes node (some ⟨0, some elem⟩)
  have hne : ∀ a ∈ 0 :: q.head :: (addrs ++ rest), a ≠ node := by
    intro a ha heq
    exact hnodup.1 (heq ▸ ha)
  have hinv : Inv { q with nodes := nodes', ring := ring' } list addrs rest := by
    apply h.congr
    · intro a ha
      apply Function.update_of_ne
      exact hne a (List.mem_cons_of_mem 0 (List.mem_append_left rest ha))
    · exact hnodup.2
    · intro a ha
      have hmem : a ∈ q.head :: (addrs ++ rest) :=
        List.mem_cons_of_mem _ (List.mem_append_right _ ha)
      simp only [nodes', Function.update_of_ne (hne a (List.mem_cons_of_mem 0 hmem))]
      apply h.live
      exact List.mem_cons_of_mem _ (List.mem_append_right _ (List.mem_cons_of_mem node ha))
    · exact hring
    · exact hunit
  have hfresh' : freshAllocs nodes' allocs := freshAllocs_store hfresh hlive
  have hnode : nodes' node = some ⟨0, some elem⟩ := Function.update_self _ _ _
  rcases hinv.finishPush_spec turns hnode hnodup.1 hfresh' with
    ⟨q', free', hfinish, hinv', hnum⟩
  refine ⟨q', _, free', ?_, hinv', hnum⟩
  have hlen : nodeSize + q.size ≤ nodeLen q.size := h.nodeLen_eq.ge
  simpa [queuePush, hpop, copyData, hn, hlen, setNext, nodes'] using hfinish

/-- The empty ring, as `ring_pop` sees it. -/
def ringEmpty (q : QueueT α) : Prop :=
  isEmpty q.ring.toRingT q.ring.readPos q.ring.maxReadIdx

instance (q : QueueT α) : Decidable (ringEmpty q) :=
  inferInstanceAs (Decidable (isEmpty _ _ _))

/-- A push takes its node from the ring, or fails where the ring is empty and the allocation
fails. -/
theorem Inv.push_spec (turns : ℕ) (elem : α) {allocs : List (Option ℕ)}
    (h : Inv q list addrs free) (hfresh : freshAllocs q.nodes allocs)
    (hfail : ringEmpty q → allocs.head?.join = none) :
    (∃ q' addrs' free', queuePush (turns + 1) q elem allocs = some (0, q') ∧
        Inv q' (list ++ [elem]) addrs' free' ∧ q'.num = u4 (q.num + 1)) ∨
      queuePush (turns + 1) q elem allocs = some (-2, q) := by
  rcases h.ring.pop_single turns h.unit_lt with ⟨hfree, hpop⟩ | ⟨node, rest, ring', hfree, hpop, hrest⟩
  · right
    have hempty : ringEmpty q := by
      rcases h.ring.1 with ⟨head, hhead⟩
      exact hhead.isEmpty_iff.mpr hfree
    simp [queuePush, hpop, hfail hempty, queueNodeInit]
  · left
    rw [hfree] at h
    exact h.push_from_ring turns hpop hrest.1 hrest.2.2 hfresh

/-- A pop on the queue without elements. -/
theorem Inv.pop_nil (turns : ℕ) (h : Inv q [] addrs free) :
    queuePop (turns + 1) q = some (-2, none, q) := by
  have haddrs : addrs = [] := by
    simpa using h.data
  subst haddrs
  rcases nextOf_eq (Path.next_head h.path) with ⟨data, hnode⟩
  simp [queuePop, takeHead, hnode]

/-- A pop takes the oldest element, and the old head is kept for a later push or released. -/
theorem Inv.pop_cons (turns : ℕ) {elem : α} (h : Inv q (elem :: list) addrs free) :
    ∃ q' addrs' free', queuePop (turns + 1) q = some (0, some elem, q') ∧
      Inv q' list addrs' free' ∧ q'.num = u4Sub q.num 1 := by
  cases addrs with
  | nil => exact absurd h.data (by simp)
  | cons next addrs =>
      rcases nextOf_eq (Path.next_head h.path) with ⟨data, hhead⟩
      have hdata := h.data
      simp only [List.map_cons, List.cons.injEq] at hdata
      have hnodup := List.nodup_cons.mp h.nodup
      have hnodup' := List.nodup_cons.mp hnodup.2
      have hnext0 : next ≠ 0 := by
        intro heq
        apply hnodup.1
        simp [heq]
      have hheadTail : q.head ≠ q.tail := by
        intro heq
        apply hnodup'.1
        rw [heq, h.tail, lastFrom_cons]
        apply List.mem_append_left free
        rcases lastFrom_mem next addrs with hlast | hlast
        · rw [hlast]
          exact List.mem_cons_self
        · exact List.mem_cons_of_mem next hlast
      rcases Option.isSome_iff_exists.mp (h.live next (by simp)) with ⟨n, hn⟩
      have hdataNext : n.data = some elem := by
        simpa [dataOf, hn] using hdata.1
      have htake : takeHead (turns + 1) q = some (some (q.head, next, { q with head := next })) := by
        simp [takeHead, hhead, hnext0, hheadTail]
      have hinv : Inv { q with head := next } list addrs free := by
        refine ⟨List.IsChain.tail h.path, h.tail, hdata.2, ?_, ?_, h.ring, h.unit, h.fits⟩
        · apply List.nodup_cons.mpr
          refine ⟨?_, hnodup'.2⟩
          intro hmem
          exact hnodup.1 (List.mem_cons_of_mem q.head hmem)
        · intro a ha
          exact h.live a (List.mem_cons_of_mem q.head ha)
      rcases h.ring.push_single turns q.head h.unit_lt with ⟨-, ring', hpush, hring, -, hunit⟩ | hfull
      · refine ⟨{ q with head := next, ring := ring', num := u4Sub q.num 1 }, addrs,
          free ++ [q.head], ?_, ?_, rfl⟩
        · simp [queuePop, htake, hn, hdataNext, hpush]
        · have hkept : Inv { q with head := next, ring := ring' } list addrs (free ++ [q.head]) := by
            apply hinv.congr
            · exact fun _ _ ↦ rfl
            · apply (List.Perm.nodup_iff _).mp h.nodup
              apply List.Perm.cons 0
              have hend : (q.head :: (next :: (addrs ++ free))).Perm
                  ((next :: (addrs ++ free)) ++ [q.head]) := (List.perm_append_singleton _ _).symm
              simpa using hend
            · intro a ha
              apply h.live
              simp only [List.mem_append, List.mem_cons, List.not_mem_nil, or_false] at ha ⊢
              tauto
            · exact hring
            · exact hunit
          exact hkept.with_num _
      · refine ⟨{ q with
            head := next, nodes := Function.update q.nodes q.head none, num := u4Sub q.num 1 }, addrs,
          free, ?_, ?_, rfl⟩
        · simp [queuePop, htake, hn, hdataNext, hfull.2]
        · have hne : ∀ a ∈ next :: (addrs ++ free), a ≠ q.head := by
            intro a ha heq
            exact hnodup'.1 (heq ▸ ha)
          have hkept : Inv { q with head := next, nodes := Function.update q.nodes q.head none }
              list addrs free := by
            apply hinv.congr
            · intro a ha
              exact Function.update_of_ne (hne a (List.mem_append_left free ha)) _ _
            · exact hinv.nodup
            · intro a ha
              have hmem : a ∈ next :: (addrs ++ free) :=
                List.mem_cons_of_mem _ (List.mem_append_right _ ha)
              rw [Function.update_of_ne (hne a hmem)]
              exact hinv.live a hmem
            · exact h.ring
            · rfl
          exact hkept.with_num _

/-! ## Runs -/

/-- The FIFO queue after a call. -/
def fifoStep (list : List α) : Call α → Ret α → List α
  | .push elem _, .pushed ret => if ret = 0 then list ++ [elem] else list
  | .pop, _ => list.tail
  | _, _ => list

/-- What the FIFO queue allows a call to return. -/
def fifoAllows (list : List α) : Call α → Ret α → Prop
  | .push _ _, r => r = .pushed 0 ∨ r = .pushed (-2)
  | .pop, r => r = match list with
      | [] => .popped (-2) none
      | elem :: _ => .popped 0 (some elem)
  | .size, r => list.length < 4294967296 → r = .size list.length

/-- The elements stored after a log of calls. -/
def stored (log : List (Call α × Ret α)) : List α := Machine.replay fifoStep [] log

/-- A push does not take a node it has allocated itself: where the ring is empty, its allocation
fails. -/
def recycles (q : QueueT α) : Call α → Prop
  | .push _ allocs => ringEmpty q → allocs.head?.join = none
  | _ => True

/-- The runs in which no node length wraps and no push takes a node it has allocated itself. -/
def recycleMachine (turns : ℕ) : Machine (QueueT α) (Call α) (Ret α) where
  init := fromInit (4294967296 - nodeSize) turns
  ok q call := callOk q call ∧ recycles q call
  exec := callExec turns

/-- The queue holds the list, with its counter on `u4`. -/
def Holds (q : QueueT α) (list : List α) : Prop :=
  (∃ addrs free, Inv q list addrs free) ∧ q.num = u4 list.length

theorem u4Sub_succ (n : ℕ) : u4Sub (u4 (n + 1)) 1 = u4 n := by
  unfold u4Sub u4
  omega

/-- `queue_init` makes the empty queue. -/
theorem holds_init {turns : ℕ} (hinit : fromInit (4294967296 - nodeSize) (turns + 1) q) :
    Holds q [] := by
  rcases hinit with ⟨size, node, allocs, -, hsize, hfresh, hq⟩
  have hring : countedInit ringUnits 8 = some (⟨⟨8, 2 ^ 14, 0, 0, 0, fun _ ↦ none⟩, 0⟩ :
      CountedRing ℕ) := by
    have hpower : ¬ (16384 = 0 ∨ 8 = 0 ∨ 16384 &&& (16384 - 1) ≠ 0) := by decide
    unfold countedInit ringInit ringUnits
    rw [if_neg hpower]
    rfl
  have hnode := hfresh.2 node (by simp)
  have hunfold := hq
  simp only [queueInit, hring, Option.bind_eq_bind, Option.bind_some, queueNodeInit] at hunfold
  by_cases hlen : nodeLen size < nodeSize
  · simp [hlen] at hunfold
  · simp only [if_neg hlen, Option.bind_some] at hunfold
    have hstart : Inv (⟨size, 0, ⟨⟨8, 2 ^ 14, 0, 0, 0, fun _ ↦ none⟩, 0⟩, node, node,
        Function.update (fun _ ↦ none) node (some ⟨0, if size = 0 then none else none⟩)⟩ :
        QueueT α) [] [] [] := by
      constructor
      case path => simp [Lib.Path, nextOf]
      case tail => rfl
      case data => rfl
      case nodup => simpa using hnode.1.symm
      case live => simp
      case ring => exact HoldsCounted.init (by decide) (by decide) (by decide)
      case unit => rfl
      case fits => exact Nat.add_lt_of_lt_sub' hsize
    have hrest : freshAllocs (Function.update (fun _ ↦ none) node
        (some (⟨0, if size = 0 then none else none⟩ : NodeT α))) allocs := by
      apply freshAllocs_update (freshAllocs_tail hfresh)
      have hnodup := hfresh.1
      rw [List.reduceOption_cons_of_some] at hnodup
      exact (List.nodup_cons.mp hnodup).1
    rcases hstart.queueFill_spec turns hrest with ⟨q', free, hfill, hinv, hnum⟩
    rw [hfill, Option.some_inj] at hunfold
    subst hunfold
    refine ⟨⟨[], free, hinv⟩, ?_⟩
    have hzero : u4 0 = 0 := u4_of_lt (by decide)
    rw [hnum, List.length_nil, hzero]

theorem call_simulates (turns : ℕ) :
    Machine.Simulates (recycleMachine (α := α) (turns + 1)) fifoStep fifoAllows Holds := by
  rintro q list call ⟨⟨addrs, free, hinv⟩, hnum⟩ ⟨hok, hrecycled⟩
  cases call with
  | push elem allocs =>
      rcases hinv.push_spec turns elem hok hrecycled with
        ⟨q', addrs', free', hpush, hinv', hnum'⟩ | hfail
      · refine ⟨.pushed 0, q', by simp [recycleMachine, callExec, hpush], .inl rfl,
          ⟨⟨addrs', free', hinv'⟩, ?_⟩⟩
        rw [hnum', hnum, u4_add, fifoStep, if_pos rfl, List.length_append, List.length_singleton]
      · exact ⟨.pushed (-2), q, by simp [recycleMachine, callExec, hfail], .inr rfl,
          ⟨⟨addrs, free, hinv⟩, hnum⟩⟩
  | pop =>
      cases list with
      | nil =>
          exact ⟨.popped (-2) none, q, by simp [recycleMachine, callExec, hinv.pop_nil turns], rfl,
            ⟨⟨addrs, free, hinv⟩, hnum⟩⟩
      | cons elem list =>
          rcases hinv.pop_cons turns with ⟨q', addrs', free', hpop, hinv', hnum'⟩
          refine ⟨.popped 0 (some elem), q', by simp [recycleMachine, callExec, hpop], rfl,
            ⟨⟨addrs', free', hinv'⟩, ?_⟩⟩
          rw [hnum', hnum, List.length_cons, u4Sub_succ]
          rfl
  | size =>
      refine ⟨.size q.num, q, rfl, ?_, ⟨⟨addrs, free, hinv⟩, hnum⟩⟩
      intro hlt
      rw [hnum, u4_of_lt hlt]

/-- In every run whose pushes take their nodes from the ring, the queue is a FIFO queue: the nodes
behind the head hold the stored elements in order, and every further call returns what the FIFO
queue returns. -/
theorem queue_is_fifo (turns : ℕ) {log : List (Call α × Ret α)}
    (htrace : (recycleMachine (turns + 1)).Trace q log) :
    (∃ addrs, Path (nextOf q.nodes) (q.head :: addrs ++ [0]) ∧
      addrs.map (dataOf q.nodes) = (stored log).map some) ∧
    ∀ call, (recycleMachine (turns + 1)).ok q call →
      ∃ r q', callExec (turns + 1) q call = some (r, q') ∧ fifoAllows (stored log) call r := by
  have hrefines := htrace.refines [] (fun _ hinit ↦ holds_init hinit) (call_simulates turns)
  rcases hrefines with ⟨⟨⟨addrs, free, hinv⟩, -⟩, hcalls⟩
  exact ⟨⟨addrs, hinv.path, hinv.data⟩, hcalls⟩

instance (nodes : ℕ → Option (NodeT α)) (allocs : List (Option ℕ)) :
    Decidable (freshAllocs nodes allocs) := inferInstanceAs (Decidable (_ ∧ _))

instance (q : QueueT α) : (call : Call α) → Decidable (callOk q call)
  | .push _ _ => inferInstanceAs (Decidable (freshAllocs _ _))
  | .pop => inferInstanceAs (Decidable True)
  | .size => inferInstanceAs (Decidable True)

instance (q : QueueT α) : (call : Call α) → Decidable (recycles q call)
  | .push _ _ => inferInstanceAs (Decidable (_ → _))
  | .pop => inferInstanceAs (Decidable True)
  | .size => inferInstanceAs (Decidable True)

instance (turns : ℕ) (q : QueueT α) (call : Call α) :
    Decidable ((machine turns).ok q call) := inferInstanceAs (Decidable (callOk q call))

instance (turns : ℕ) (q : QueueT α) (call : Call α) :
    Decidable ((recycleMachine turns).ok q call) := inferInstanceAs (Decidable (_ ∧ _))

/-- Elements of two bytes, and two nodes in the ring. -/
def smallInit : Option (QueueT Bytes) := queueInit 1 2 1 [some 2, some 3]

/-- Two pushes, a third one that fails, and a pop. -/
def smallCalls : List (Call Bytes) :=
  [.push [7, 8] [], .push [9, 10] [], .push [11, 12] [none], .pop]

theorem smallInit_runs : smallInit.isSome := by with_unfolding_all decide

theorem smallCalls_run :
    ((recycleMachine 1).execAll (smallInit.get smallInit_runs) smallCalls).isSome := by
  with_unfolding_all decide

theorem queue_is_fifo_small :
    ∃ q log, (recycleMachine (α := Bytes) 1).Trace q log ∧
      ∃ r q', callExec 1 q .pop = some (r, q') ∧ r = .popped 0 (some [9, 10]) := by
  have hinit : (recycleMachine 1).init (smallInit.get smallInit_runs) :=
    ⟨2, 1, [some 2, some 3], by decide, by decide, by decide, (Option.some_get _).symm⟩
  have htrace := Machine.trace_execAll hinit (by with_unfolding_all decide)
    (Option.some_get smallCalls_run).symm
  rcases (queue_is_fifo 0 htrace).2 .pop (by decide) with ⟨r, q', hpop, hallowed⟩
  have hstored : stored (((recycleMachine 1).execAll (smallInit.get smallInit_runs)
      smallCalls).get smallCalls_run).1 = [[9, 10]] := by with_unfolding_all decide
  rw [hstored] at hallowed
  exact ⟨_, _, htrace, r, q', hpop, hallowed⟩

/-- A queue whose ring could not be filled. -/
def bareInit : Option (QueueT Bytes) := queueInit 1 2 1 [none]

/-- A push with a node of its own. -/
def bareCalls : List (Call Bytes) := [.push [7, 8] [some 2, none]]

theorem bareInit_runs : bareInit.isSome := by with_unfolding_all decide

theorem bareCalls_run :
    ((machine 1).execAll (bareInit.get bareInit_runs) bareCalls).isSome := by with_unfolding_all decide

/-- The element pushed with a freshly allocated node is never copied: the pop after it returns what
was in the node. -/
theorem fresh_node_not_filled :
    ∃ q log, (machine (α := Bytes) 1).Trace q log ∧ stored log = [[7, 8]] ∧
      ∃ q', callExec 1 q .pop = some (.popped 0 none, q') := by
  have hinit : (machine 1).init (bareInit.get bareInit_runs) :=
    ⟨2, 1, [none], by decide, by decide, by decide, (Option.some_get _).symm⟩
  have htrace := Machine.trace_execAll hinit (by with_unfolding_all decide)
    (Option.some_get bareCalls_run).symm
  have hpop : ((callExec 1 (((machine 1).execAll (bareInit.get bareInit_runs)
      bareCalls).get bareCalls_run).2 .pop).map Prod.fst) = some (.popped 0 none) := by
    with_unfolding_all decide
  rcases Option.map_eq_some_iff.mp hpop with ⟨⟨r, q'⟩, hexec, hr⟩
  exact ⟨_, _, htrace, by with_unfolding_all decide, q', by rw [hexec, ← hr]⟩

end CPractice.Queue
