import CPractice.MpmcQueue.Steps
import Mathlib.Algebra.BigOperators.Group.Finset.Piecewise
import Mathlib.Algebra.BigOperators.Ring.Finset
import Mathlib.Data.List.Perm.Subperm
import Mathlib.Data.List.Nodup

/-!
# `_queue_size`

The counter is changed after the sequence number of the node is stored, so other threads see the queue
before they see it counted: the counter may be behind, and below zero.  It is the number of tickets
published and not given back, less the changes that are still to be made, and so right whenever no call
is in progress.
-/

namespace CPractice.MpmcQueue

open Lib Finset

variable {ι α : Type} {s : State ι α} {h : History α} {size : ℕ} {log : List (Call ι α × Event α)}

/-- The change of `_queue_size` that a thread has still to make. -/
def Pc.uncounted : Pc α → ℤ
  | .enqCount _ => 1
  | .deqCount _ => -1
  | _ => 0

/-- The number of elements published and not given back. -/
def History.inQueue (h : History α) : ℤ := h.published.length - h.released.length

theorem queueSize_count (q : Queue α) (delta : ℤ) :
    (count q delta).queueSize = Int.bmod (q.queueSize + delta) 4294967296 := rfl

/-- A step of a thread keeps what the counter and the thread's own change are together. -/
theorem Step.count_eq {q q' : Queue α} {pc pc' : Pc α} {event : Event α}
    (hstep : Step q pc event q' pc') (call : Call ι α) (rest : ℤ)
    (hcount : q.queueSize = Int.bmod (h.inQueue - (rest + pc.uncounted)) 4294967296) :
    q'.queueSize =
      Int.bmod ((h.step call event).inQueue - (rest + pc'.uncounted)) 4294967296 := by
  cases hstep with
  | enqPublish data headSeq =>
      rw [setNode, hcount]
      congr 1
      simp only [History.inQueue, History.step, Pc.uncounted, List.length_append,
        List.length_singleton, Nat.cast_add, Nat.cast_one]
      omega
  | enqCount data =>
      rw [queueSize_count, hcount, Int.bmod_add_bmod]
      congr 1
      simp only [History.inQueue, History.step, Pc.uncounted]
      omega
  | deqRelease tailSeq data =>
      rw [setNode, hcount]
      congr 1
      simp only [History.inQueue, History.step, Pc.uncounted, List.length_append,
        List.length_singleton, Nat.cast_add, Nat.cast_one]
      omega
  | deqCount data =>
      rw [queueSize_count, hcount, Int.bmod_add_bmod]
      congr 1
      simp only [History.inQueue, History.step, Pc.uncounted]
      omega
  | _ => exact hcount

/-! ## Histories with nothing open -/

theorem Shape.length_published {q : Queue α} (hs : Shape q h)
    (hall : ∀ k < h.enqueued.length, k ∈ h.published) :
    h.published.length = h.enqueued.length := by
  have hsub : h.published ⊆ List.range h.enqueued.length := fun k hk ↦
    List.mem_range.mpr (hs.published_lt k hk)
  have hsup : List.range h.enqueued.length ⊆ h.published := fun k hk ↦ hall k (List.mem_range.mp hk)
  have hle := (hs.published_nodup.subperm hsub).length_le
  have hge := (List.nodup_range.subperm hsup).length_le
  rw [List.length_range] at hle hge
  exact le_antisymm hle hge

theorem Shape.length_released {q : Queue α} (hs : Shape q h) (hall : ∀ k < h.taken, h.Released k) :
    h.released.length = h.taken := by
  have hsub : h.released.map Prod.fst ⊆ List.range h.taken := by
    intro k hk
    obtain ⟨⟨k', data⟩, hmem, rfl⟩ := List.mem_map.mp hk
    exact List.mem_range.mpr (hs.released_taken k' data hmem).1
  have hsup : List.range h.taken ⊆ h.released.map Prod.fst := by
    intro k hk
    obtain ⟨data, hmem⟩ := hall k (List.mem_range.mp hk)
    exact List.mem_map.mpr ⟨(k, data), hmem, rfl⟩
  have hle := (hs.released_nodup.subperm hsub).length_le
  have hge := (List.nodup_range.subperm hsup).length_le
  rw [List.length_range, List.length_map] at hle hge
  exact le_antisymm hle hge

/-! ## Runs -/

variable [DecidableEq ι] [Fintype ι]

theorem sum_advance (t : ι) (q : Queue α) (pc : Pc α) :
    ∑ u, ((s.advance t q pc).threads u).uncounted =
      (∑ u ∈ univ.erase t, (s.threads u).uncounted) + pc.uncounted := by
  rw [← Finset.sum_erase_add univ _ (Finset.mem_univ t), State.advance_self]
  congr 1
  apply Finset.sum_congr rfl
  intro u hu
  rw [State.advance_ne _ _ (Finset.ne_of_mem_erase hu)]

/-- The counter in every state. -/
theorem queueSize_eq (htwo : 2 ≤ size) (htrace : Machine.Trace (machine ι α size) s log) :
    s.queue.queueSize =
      Int.bmod ((history log).inQueue - ∑ t, (s.threads t).uncounted) 4294967296 := by
  induction htrace with
  | @init s hinit =>
      obtain ⟨hqueue, hidle⟩ := hinit
      obtain ⟨-, -, hq⟩ := mpmcInit_eq_some hqueue
      rw [hq, Finset.sum_eq_zero fun t _ ↦ by rw [hidle t]; rfl]
      simp [history, History.empty, History.inQueue]
  | @call s s' log call event htrace hok hexec ih =>
      obtain ⟨-, hinv⟩ := inv_of_trace htwo htrace
      have hlog : history (log ++ [(call, event)]) = (history log).step call event :=
        Machine.replay_append_singleton _ _ _ _
      rw [hlog]
      have hidle : ∀ t pc, s.threads t = .idle → Pc.uncounted (α := α) pc = 0 →
          s.queue.queueSize = Int.bmod ((history log).inQueue -
            ∑ u, ((s.advance t s.queue pc).threads u).uncounted) 4294967296 := by
        intro t pc ht hpc
        rw [sum_advance, hpc, ih, ← Finset.sum_erase_add univ _ (Finset.mem_univ t), ht]
        rfl
      cases call with
      | enqueue t data =>
          obtain ⟨rfl, rfl⟩ := Prod.mk.inj (Option.some.inj hexec)
          exact hidle t _ hok.1 rfl
      | dequeue t =>
          obtain ⟨rfl, rfl⟩ := Prod.mk.inj (Option.some.inj hexec)
          exact hidle t _ hok.1 rfl
      | size t =>
          obtain ⟨rfl, rfl⟩ := Prod.mk.inj (Option.some.inj hexec)
          exact ih
      | step t weak =>
          obtain ⟨out, hout, heq⟩ := Option.map_eq_some_iff.mp hexec
          obtain ⟨rfl, rfl⟩ := Prod.mk.inj heq
          have hstep := step_spec hinv.shape.nodeAt_eq hout
          have hsum := sum_advance (s := s) t out.2.1 out.2.2
          rw [← Finset.sum_erase_add univ _ (Finset.mem_univ t)] at ih
          change out.2.1.queueSize = Int.bmod (_ -
            ∑ u, ((s.advance t out.2.1 out.2.2).threads u).uncounted) _
          rw [hsum]
          exact hstep.count_eq _ _ ih

theorem size_quiescent (htwo : 2 ≤ size) (htrace : Machine.Trace (machine ι α size) s log)
    (hidle : ∀ t, s.threads t = .idle) :
    s.queue.queueSize =
      Int.bmod ((history log).enqueued.length - (history log).taken) 4294967296 := by
  obtain ⟨-, hinv⟩ := inv_of_trace htwo htrace
  have hclosed : ∀ x, ¬ (history log).Open x := by
    intro x hopen
    obtain ⟨t, ht⟩ := (hinv.held x).mp hopen
    rw [hidle t] at ht
    cases ht
  have hpub := hinv.shape.length_published fun k hk ↦ by
    by_contra hnot
    exact hclosed (.enq k) ⟨hk, hnot⟩
  have hrel := hinv.shape.length_released fun k hk ↦ by
    by_contra hnot
    exact hclosed (.deq k) ⟨hk, hnot⟩
  rw [queueSize_eq htwo htrace, Finset.sum_eq_zero fun t _ ↦ by rw [hidle t]; rfl, History.inQueue,
    hpub, hrel, sub_zero]

/-- `size` in every state, and while no call is in progress. -/
theorem size_counts (htwo : 2 ≤ size) (htrace : Machine.Trace (machine ι α size) s log) :
    s.queue.queueSize =
        Int.bmod ((history log).inQueue - ∑ t, (s.threads t).uncounted) 4294967296 ∧
      ((∀ t, s.threads t = .idle) → s.queue.queueSize =
        Int.bmod ((history log).enqueued.length - (history log).taken) 4294967296) :=
  ⟨queueSize_eq htwo htrace, size_quiescent htwo htrace⟩

/-- One complete `enqueue`. -/
def wholeCalls : List (Call Bool ℕ) := .enqueue false 7 :: List.replicate 6 (.step false false)

theorem wholeCalls_run : ((machine Bool ℕ 2).execAll pairStart wholeCalls).isSome := by
  with_unfolding_all decide

theorem size_counts_pair :
    ∃ s log, Machine.Trace (machine Bool ℕ 2) s log ∧ (history log).enqueued = [7] ∧
      s.queue.queueSize =
        Int.bmod ((history log).enqueued.length - (history log).taken) 4294967296 := by
  have htrace := pair_trace wholeCalls_run (by with_unfolding_all decide)
  exact ⟨_, _, htrace, by with_unfolding_all decide,
    (size_counts (by decide) htrace).2 (by with_unfolding_all decide)⟩

end CPractice.MpmcQueue
