import CPractice.MpmcQueue.Steps
import Mathlib.Data.List.Perm.Subperm
import Mathlib.Data.List.Nodup

/-!
# The order of the elements

The tickets of `enqueue` and of `dequeue` are drawn in order, and the element given back for a ticket is
the one that was enqueued with it.  A ticket is given back once, none is lost, and no step of any thread
goes past the buffer or copies data that was not stored.  A thread that works on the data of a node is the
only one that does.
-/

namespace CPractice.MpmcQueue

open Lib

variable {ι α : Type} [DecidableEq ι] {s : State ι α} {h : History α} {size : ℕ}
  {log : List (Call ι α × Event α)}

/-! ## First in, first out -/

/-- The tickets drawn and not released are no more than the nodes. -/
theorem Shape.length_le {q : Queue α} (hs : Shape q h) :
    h.enqueued.length ≤ h.released.length + q.size := by
  by_contra hlt
  have hall : List.range (h.released.length + 1) ⊆ h.released.map Prod.fst := by
    intro k hk
    have hk' := List.mem_range.mp hk
    by_contra hnot
    have hrel : ¬ h.Released k := by
      rintro ⟨data, hmem⟩
      exact hnot (List.mem_map.mpr ⟨(k, data), hmem, rfl⟩)
    have hwindow := hs.window k (by omega) hrel
    omega
  have hcount := (List.nodup_range.subperm hall).length_le
  rw [List.length_range, List.length_map] at hcount
  omega

/-- Every ticket given back carried its element and is given back once; a ticket not given back is held
by a thread or waits in its node; no more than `size` of them are out; and no call faults. -/
theorem fifo (htwo : 2 ≤ size) (htrace : Machine.Trace (machine ι α size) s log) :
    (∀ k data, (k, data) ∈ (history log).released → (history log).enqueued[k]? = some data) ∧
      ((history log).released.map Prod.fst).Nodup ∧
      (∀ k < (history log).enqueued.length, (history log).Released k ∨
        (∃ t, (s.threads t).ticket = some (.enq k) ∨ (s.threads t).ticket = some (.deq k)) ∨
        (history log).taken ≤ k ∧ (s.queue.buffer (k % size)).data = (history log).enqueued[k]?) ∧
      (history log).enqueued.length ≤ (history log).released.length + size ∧
      ∀ call, (machine ι α size).ok s call → ∃ event s', exec s call = some (event, s') := by
  obtain ⟨rfl, hinv⟩ := inv_of_trace htwo htrace
  have hshape := hinv.shape
  refine ⟨fun k data hmem ↦ (hshape.released_taken k data hmem).2, hshape.released_nodup, ?_,
    hshape.length_le, ?_⟩
  · intro k hk
    by_cases hrel : (history log).Released k
    · exact .inl hrel
    · right
      by_cases hpub : k ∈ (history log).published
      · rcases Nat.lt_or_ge k (history log).taken with htaken | hwaiting
        · obtain ⟨t, ht⟩ := (hinv.held (.deq k)).mp ⟨htaken, hrel⟩
          exact .inl ⟨t, .inr ht⟩
        · exact .inr ⟨hwaiting, hshape.data k hpub hrel⟩
      · obtain ⟨t, ht⟩ := (hinv.held (.enq k)).mp ⟨hk, hpub⟩
        exact .inl ⟨t, .inl ht⟩
  · intro call hok
    obtain ⟨event, s', hexec, -, -⟩ := hinv.exec_some hok
    exact ⟨event, s', hexec⟩

theorem fifo_pair :
    ∃ s log, Machine.Trace (machine Bool ℕ 2) s log ∧ (history log).enqueued = [7, 8] ∧
      (history log).taken = 1 ∧ (history log).enqueued.length ≤ (history log).released.length + 2 := by
  have htrace := pair_trace pairCalls_run pairCalls_ok
  have hfifo := fifo (by decide) htrace
  exact ⟨_, _, htrace, by with_unfolding_all decide, by with_unfolding_all decide, hfifo.2.2.2.1⟩

/-! ## Exclusive access -/

def Ticket.seq : Ticket → ℕ
  | .enq headSeq => headSeq
  | .deq tailSeq => tailSeq

/-- An open ticket is of the last lap. -/
theorem Shape.open_window {q : Queue α} (hs : Shape q h) {x : Ticket} (hx : h.Open x) :
    x.seq < h.enqueued.length ∧ ¬ h.Released x.seq := by
  cases x with
  | enq k => exact ⟨hx.1, hs.not_released hx.2⟩
  | deq k => exact ⟨Nat.lt_of_lt_of_le hx.1 hs.taken_le, hx.2⟩

/-- Two threads that hold tickets, and so may store, copy or give back a node, have different nodes. -/
theorem exclusive (htwo : 2 ≤ size) (htrace : Machine.Trace (machine ι α size) s log) {t u : ι}
    (hne : t ≠ u) {x y : Ticket} (hx : (s.threads t).ticket = some x)
    (hy : (s.threads u).ticket = some y) : x.seq % size ≠ y.seq % size := by
  obtain ⟨rfl, hinv⟩ := inv_of_trace htwo htrace
  have hopenX := (hinv.held x).mpr ⟨t, hx⟩
  have hopenY := (hinv.held y).mpr ⟨u, hy⟩
  obtain ⟨hltX, hrelX⟩ := hinv.shape.open_window hopenX
  obtain ⟨hltY, hrelY⟩ := hinv.shape.open_window hopenY
  have hseq : x.seq ≠ y.seq := by
    intro heq
    have hsame : x = y := by
      cases x with
      | enq k =>
          cases y with
          | enq k' => exact congrArg Ticket.enq heq
          | deq k' =>
              obtain rfl : k = k' := heq
              exact absurd (hinv.shape.taken_published k hopenY.1) hopenX.2
      | deq k =>
          cases y with
          | enq k' =>
              obtain rfl : k = k' := heq
              exact absurd (hinv.shape.taken_published k hopenX.1) hopenY.2
          | deq k' => exact congrArg Ticket.deq heq
    exact hne (hinv.unique t u x hx (hsame ▸ hy))
  exact hinv.shape.slot_ne hltY hrelY hltX (hinv.shape.window _ hltX hrelX) hseq

theorem exclusive_pair :
    ∃ s log, Machine.Trace (machine Bool ℕ 2) s log ∧ ∃ x y, (s.threads false).ticket = some x ∧
      (s.threads true).ticket = some y ∧ x.seq % 2 ≠ y.seq % 2 := by
  have htrace := pair_trace pairCalls_run pairCalls_ok
  have hx : ((((machine Bool ℕ 2).execAll pairStart pairCalls).get pairCalls_run).2.threads
      false).ticket = some (.enq 1) := by with_unfolding_all decide
  have hy : ((((machine Bool ℕ 2).execAll pairStart pairCalls).get pairCalls_run).2.threads
      true).ticket = some (.deq 0) := by with_unfolding_all decide
  exact ⟨_, _, htrace, .enq 1, .deq 0, hx, hy,
    exclusive (by decide) htrace (by decide : false ≠ true) hx hy⟩

/-! ## What each thread gets -/

/-- What a view shows of the entries of a thread. -/
def shown {β : Type} (view : Call ι α → Event α → Option β) (t : ι)
    (log : List (Call ι α × Event α)) : List β :=
  log.filterMap fun entry ↦ if entry.1.thread = t then view entry.1 entry.2 else none

/-- The elements of the calls of `enqueue`. -/
def asked : Call ι α → Event α → Option α
  | .enqueue _ data, _ => some data
  | _, _ => none

/-- The elements of the returns of `enqueue`. -/
def answered : Call ι α → Event α → Option α
  | _, .enqReturn data _ => some data
  | _, _ => none

/-- The elements that got a ticket. -/
def drawn : Call ι α → Event α → Option α
  | _, .claimed data => some data
  | _, _ => none

/-- The elements whose `enqueue` returned true. -/
def accepted : Call ι α → Event α → Option α
  | _, .enqReturn data true => some data
  | _, _ => none

/-- The elements given back by a `dequeue`. -/
def copied : Call ι α → Event α → Option α
  | _, .released _ data => some data
  | _, _ => none

/-- The elements returned by `dequeue`. -/
def delivered : Call ι α → Event α → Option α
  | _, .deqReturn data => data
  | _, _ => none

/-- The element of an `enqueue` that has not returned. -/
def Pc.asking : Pc α → List α
  | .enqLoad data | .enqLoop data _ | .enqTest data _ _ => [data]
  | .enqStore data _ | .enqPublish data _ | .enqCount data => [data]
  | _ => []

/-- The element of an `enqueue` that has its ticket and has not returned. -/
def Pc.drawing : Pc α → List α
  | .enqStore data _ | .enqPublish data _ | .enqCount data => [data]
  | _ => []

/-- The element of a `dequeue` that has given the node back and has not returned. -/
def Pc.holding : Pc α → List α
  | .deqCount data => [data]
  | _ => []

theorem shown_append {β : Type} (view : Call ι α → Event α → Option β) (t : ι)
    (log : List (Call ι α × Event α)) (call : Call ι α) (event : Event α) :
    shown view t (log ++ [(call, event)]) =
      shown view t log ++ (if call.thread = t then view call event else none).toList := by
  rw [shown, List.filterMap_append]
  congr 1

/-- The balance of one thread between what its calls were given and what they returned. -/
structure Balanced (log : List (Call ι α × Event α)) (t : ι) (pc : Pc α) : Prop where
  asked : shown asked t log = shown answered t log ++ pc.asking
  drawn : shown drawn t log = shown accepted t log ++ pc.drawing
  copied : shown copied t log = shown delivered t log ++ pc.holding

/-- A call of another thread does not count. -/
theorem Balanced.other {t : ι} {pc : Pc α} (hbal : Balanced log t pc) {call : Call ι α}
    (hne : call.thread ≠ t) (event : Event α) : Balanced (log ++ [(call, event)]) t pc := by
  obtain ⟨hasked, hdrawn, hcopied⟩ := hbal
  constructor
  · simpa [shown_append, hne] using hasked
  · simpa [shown_append, hne] using hdrawn
  · simpa [shown_append, hne] using hcopied

/-- The thread enters an operation. -/
theorem Balanced.enter {t : ι} (hbal : Balanced log t .idle) {call : Call ι α} {pc : Pc α}
    (hthread : call.thread = t) (hask : (MpmcQueue.asked call .silent).toList = pc.asking)
    (hdraw : pc.drawing = []) (hhold : pc.holding = []) :
    Balanced (log ++ [(call, .silent)]) t pc := by
  obtain ⟨hasked, hdrawn, hcopied⟩ := hbal
  refine ⟨?_, ?_, ?_⟩
  · rw [shown_append, shown_append, if_pos hthread, if_pos hthread, hask, hasked]
    simp [Pc.asking, answered]
  · rw [shown_append, shown_append, hdraw, hdrawn]
    simp [Pc.drawing, MpmcQueue.drawn, accepted]
  · rw [shown_append, shown_append, hhold, hcopied]
    simp [Pc.holding, MpmcQueue.copied, delivered]

/-- A step of the thread itself. -/
theorem Balanced.step {t : ι} {pc pc' : Pc α} (hbal : Balanced log t pc) {q q' : Queue α}
    {event : Event α} (hstep : Step q pc event q' pc') (weak : Bool) :
    Balanced (log ++ [(.step t weak, event)]) t pc' := by
  obtain ⟨hasked, hdrawn, hcopied⟩ := hbal
  cases hstep <;>
    exact ⟨by simpa [shown_append, Call.thread, MpmcQueue.asked, answered, Pc.asking] using hasked,
      by simpa [shown_append, Call.thread, MpmcQueue.drawn, accepted, Pc.drawing] using hdrawn,
      by simpa [shown_append, Call.thread, MpmcQueue.copied, delivered, Pc.holding] using hcopied⟩

/-- Each thread: its calls of `enqueue` return in order; those that return true are those that drew a
ticket, in the order of the tickets; and its calls of `dequeue` return the elements of the tickets it
gave back.  What is missing is the call in progress. -/
theorem calls_balanced (htwo : 2 ≤ size) (htrace : Machine.Trace (machine ι α size) s log) (t : ι) :
    Balanced log t (s.threads t) := by
  induction htrace with
  | init hinit =>
      rw [hinit.2 t]
      exact ⟨rfl, rfl, rfl⟩
  | @call s s' log call event htrace hok hexec ih =>
      obtain ⟨-, hinv⟩ := inv_of_trace htwo htrace
      cases call with
      | enqueue u data =>
          obtain ⟨rfl, rfl⟩ := Prod.mk.inj (Option.some.inj hexec)
          by_cases hu : u = t
          · subst hu
            simp only [Function.update_self]
            rw [show s.threads u = .idle from hok.1] at ih
            exact ih.enter rfl rfl rfl rfl
          · simp only [Function.update_of_ne (Ne.symm hu)]
            exact ih.other (show (Call.enqueue u data).thread ≠ t from hu) _
      | dequeue u =>
          obtain ⟨rfl, rfl⟩ := Prod.mk.inj (Option.some.inj hexec)
          by_cases hu : u = t
          · subst hu
            simp only [Function.update_self]
            rw [show s.threads u = .idle from hok.1] at ih
            exact ih.enter rfl rfl rfl rfl
          · simp only [Function.update_of_ne (Ne.symm hu)]
            exact ih.other (show (Call.dequeue u).thread ≠ t from hu) _
      | size u =>
          obtain ⟨rfl, rfl⟩ := Prod.mk.inj (Option.some.inj hexec)
          obtain ⟨hasked, hdrawn, hcopied⟩ := ih
          exact ⟨by simpa [shown_append, asked, answered] using hasked,
            by simpa [shown_append, drawn, accepted] using hdrawn,
            by simpa [shown_append, copied, delivered] using hcopied⟩
      | step u weak =>
          obtain ⟨out, hout, heq⟩ := Option.map_eq_some_iff.mp hexec
          obtain ⟨rfl, rfl⟩ := Prod.mk.inj heq
          by_cases hu : u = t
          · subst hu
            simp only [Function.update_self]
            exact ih.step (step_spec hinv.shape.nodeAt_eq hout) weak
          · simp only [Function.update_of_ne (Ne.symm hu)]
            exact ih.other (show (Call.step u weak).thread ≠ t from hu) _

theorem calls_balanced_pair :
    ∃ s log, Machine.Trace (machine Bool ℕ 2) s log ∧ shown accepted false log = [7] ∧
      Balanced log false (s.threads false) := by
  have htrace := pair_trace pairCalls_run pairCalls_ok
  exact ⟨_, _, htrace, by with_unfolding_all decide, calls_balanced (by decide) htrace false⟩

end CPractice.MpmcQueue
