import CPractice.MpmcQueue.Solo
import CPractice.MpmcQueue.Order

/-!
# A queue of one node

The assertion of the constructor admits a size of one.  The sequence number of the node after the
publication of a ticket is then that of the next free ticket, so `enqueue` never finds the queue full:
each overwrites the element before it.  The number runs ahead of `_tail_seq`, and from the second element
on a `dequeue` that is left alone loads and compares for ever.
-/

namespace CPractice.MpmcQueue

open Lib

variable {ι α : Type} [DecidableEq ι] {s : State ι α} {t u : ι} {n : ℕ}

/-- One call of `enqueue` by a thread that is left alone. -/
def enqueueCalls (t : ι) (data : α) : List (Call ι α) :=
  .enqueue t data :: List.replicate 6 (.step t false)

/-- The queue of one node after `n` elements, none of which was taken. -/
structure Overwritten (n : ℕ) (last : Option α) (s : State ι α) : Prop where
  size : s.queue.size = 1
  mask : s.queue.mask = 0
  node : s.queue.buffer 0 = ⟨last, n⟩
  headSeq : s.queue.headSeq = n
  tailSeq : s.queue.tailSeq = 0
  idle : ∀ t, s.threads t = .idle

theorem nodeAt_one {q : Queue α} (hsize : q.size = 1) (hmask : q.mask = 0) (seq : ℕ) :
    nodeAt q seq = some (0, q.buffer 0) := by
  rw [nodeAt, hmask, hsize, Nat.and_zero, if_pos Nat.one_pos]

/-- A step of a thread that has been running alone. -/
theorem exec_alone {q : Queue α} {pc : Pc α} {out : Event α × Queue α × Pc α}
    (hstep : step q false pc = some out) :
    exec (s.advance t q pc) (.step t false) = some (out.1, s.advance t out.2.1 out.2.2) := by
  rw [exec, State.advance_self]
  change (step q false pc).map _ = _
  rw [hstep]
  simp [State.advance]

theorem Overwritten.enqueue {last : Option α} (hover : Overwritten n last s)
    (hn : n + 1 < 9223372036854775808) (size : ℕ) (t : ι) (data : α) :
    ∃ log s', (machine ι α size).execAll s (enqueueCalls t data) = some (log, s') ∧
      shown accepted t log = [data] ∧ Overwritten (n + 1) (some data) s' := by
  obtain ⟨hsize, hmask, hnode, hhead, htail, hidle⟩ := hover
  have hzero : dif n s.queue.headSeq = 0 := by
    rw [hhead, dif_eq (by omega) (by omega), sub_self]
  have hu8 : u8 (n + 1) = n + 1 := u8_of_lt (by omega)
  let q₁ : Queue α := { s.queue with headSeq := u8 (s.queue.headSeq + 1) }
  let q₂ := setNode q₁ 0 ⟨some data, n⟩
  let q₃ := setNode q₂ 0 ⟨some data, n + 1⟩
  have hnode₂ : q₂.buffer 0 = ⟨some data, n⟩ := setNode_self
  have hnode₃ : q₃.buffer 0 = ⟨some data, n + 1⟩ := setNode_self
  have hload : step s.queue false (.enqLoad data) =
      some (.silent, s.queue, .enqLoop data s.queue.headSeq) := rfl
  have hloop : step s.queue false (.enqLoop data s.queue.headSeq) =
      some (.silent, s.queue, .enqTest data s.queue.headSeq n) := by
    rw [step, stepEnqueue, nodeAt_one hsize hmask, hnode]
    rfl
  have hclaim : step s.queue false (.enqTest data s.queue.headSeq n) =
      some (.claimed data, q₁, .enqStore data s.queue.headSeq) := step_enqClaim hzero
  have hstore : step q₁ false (.enqStore data s.queue.headSeq) =
      some (.silent, q₂, .enqPublish data s.queue.headSeq) := by
    have hnode₁ : q₁.buffer 0 = ⟨last, n⟩ := hnode
    rw [step, stepEnqueue, nodeAt_one (q := q₁) hsize hmask, hnode₁]
    rfl
  have hpublish : step q₂ false (.enqPublish data s.queue.headSeq) =
      some (.published s.queue.headSeq, q₃, .enqCount data) := by
    rw [step, stepEnqueue, nodeAt_one (q := q₂) hsize hmask, hnode₂, hhead, hu8]
    rfl
  have hcount : step q₃ false (.enqCount data) = some (.enqReturn data true, count q₃ 1, .idle) := rfl
  have hcall : exec s (.enqueue t data) = some (.silent, s.advance t s.queue (.enqLoad data)) := rfl
  refine ⟨(.enqueue t data, .silent) :: [.silent, .silent, .claimed data, .silent,
    .published s.queue.headSeq, .enqReturn data true].map (.step t false, ·),
    s.advance t (count q₃ 1) .idle, ?_, ?_, ?_⟩
  · simp only [enqueueCalls, List.replicate, Machine.execAll, machine, hcall, exec_alone hload,
      exec_alone hloop, exec_alone hclaim, exec_alone hstore, exec_alone hpublish,
      exec_alone hcount, Option.bind_some, Option.map_some, List.map_cons, List.map_nil]
  · simp [shown, accepted, Call.thread]
  · refine ⟨hsize, hmask, hnode₃, by rw [← hu8, ← hhead]; rfl, htail, ?_⟩
    intro u
    by_cases hu : u = t
    · rw [hu, State.advance_self]
    · rw [State.advance_ne _ _ hu, hidle u]

/-- A `dequeue` alone on a node whose number is ahead. -/
theorem Overwritten.spins {last : Option α} (hover : Overwritten n last s)
    (hn : n < 9223372036854775808) (htwo : 2 ≤ n) (t : ι) (turns : ℕ) :
    ∃ pc, Steps.after (alone t) (s.advance t s.queue .deqLoad) turns = some (s.advance t s.queue pc) ∧
      (pc = .deqLoad ∨ pc = .deqLoop 0 ∨ pc = .deqTest 0 n) := by
  obtain ⟨hsize, hmask, hnode, hhead, htail, hidle⟩ := hover
  have hdif : dif n (u8 (0 + 1)) = n - 1 := by
    rw [u8_of_lt (by decide), dif_eq hn (by decide)]
    rfl
  have hadvance : ∀ pc pc' : Pc α,
      (s.advance t s.queue pc).advance t s.queue pc' = s.advance t s.queue pc' := by
    intro pc pc'
    simp [State.advance]
  induction turns with
  | zero => exact ⟨.deqLoad, rfl, .inl rfl⟩
  | succ turns ih =>
      obtain ⟨pc, hafter, hpc⟩ := ih
      rw [Steps.after, hafter, Option.bind_some]
      have hnext : ∀ pc', step s.queue false pc = some (.silent, s.queue, pc') →
          alone t (s.advance t s.queue pc) = some (s.advance t s.queue pc') := by
        intro pc' hstep
        have hturn : step (s.advance t s.queue pc).queue false ((s.advance t s.queue pc).threads t) =
            some (.silent, s.queue, pc') := by
          rw [State.advance_self]
          exact hstep
        rw [alone_eq hturn, hadvance]
      rcases hpc with rfl | rfl | rfl
      · refine ⟨.deqLoop 0, hnext _ ?_, .inr (.inl rfl)⟩
        rw [step_eq_dequeue rfl, stepDequeue, htail]
      · refine ⟨.deqTest 0 n, hnext _ ?_, .inr (.inr rfl)⟩
        rw [step_eq_dequeue rfl, stepDequeue, nodeAt_one hsize hmask, hnode]
        rfl
      · refine ⟨.deqLoop 0, hnext _ ?_, .inr (.inl rfl)⟩
        rw [step_eq_dequeue rfl, stepDequeue, hdif, if_neg (by omega), if_neg (by omega), htail]

omit [DecidableEq ι] in
theorem overwritten_init : ∃ q : Queue α, mpmcInit 1 = some q ∧
    Overwritten 0 none (⟨q, fun _ ↦ .idle⟩ : State ι α) :=
  ⟨⟨1, u8Sub 1 1, fun i ↦ ⟨none, i⟩, 0, 0, 0⟩, by
    rw [mpmcInit, if_pos]
    unfold u8Sub u8
    decide, rfl, u8Sub_of_le le_rfl (by decide), rfl, rfl, rfl, fun _ ↦ rfl⟩

theorem Overwritten.enqueues {last : Option α} (hover : Overwritten n last s) (size : ℕ) (t : ι)
    (values : List α) (hlen : n + values.length < 9223372036854775808) :
    ∃ log s', (machine ι α size).execAll s (values.flatMap (enqueueCalls t)) = some (log, s') ∧
      shown accepted t log = values ∧
      ∃ last', Overwritten (n + values.length) last' s' := by
  induction values generalizing n last s with
  | nil => exact ⟨[], s, rfl, rfl, last, hover⟩
  | cons data values ih =>
      rw [List.length_cons] at hlen
      obtain ⟨log₁, s₁, hexec₁, hshown₁, hover₁⟩ := hover.enqueue (by omega) size t data
      obtain ⟨log₂, s₂, hexec₂, hshown₂, last', hover₂⟩ := ih hover₁ (by omega)
      refine ⟨log₁ ++ log₂, s₂, ?_, ?_, ?_⟩
      · rw [List.flatMap_cons, Machine.execAll_append, hexec₁, Option.bind_some, hexec₂]
        rfl
      · rw [shown, List.filterMap_append]
        change shown accepted t log₁ ++ shown accepted t log₂ = _
        rw [hshown₁, hshown₂, List.singleton_append]
      · rw [List.length_cons, ← Nat.add_assoc, Nat.add_right_comm]
        exact ⟨last', hover₂⟩

/-- On a queue of one node every `enqueue` returns true, and after two of them a `dequeue` that runs
alone does not return, whatever number of steps it is given. -/
theorem one_node_spins (t u : ι) (values : List α) (htwo : 2 ≤ values.length)
    (hlen : values.length < 9223372036854775808) :
    ∃ (q : Queue α) (log : List (Call ι α × Event α)) (s : State ι α),
      mpmcInit 1 = some q ∧
      (machine ι α 1).execAll ⟨q, fun _ ↦ .idle⟩ (values.flatMap (enqueueCalls t)) = some (log, s) ∧
      shown accepted t log = values ∧
      ∀ turns, ∃ s', Steps.after (alone u) (s.advance u s.queue .deqLoad) turns = some s' ∧
        s'.threads u ≠ .idle := by
  obtain ⟨q, hinit, hover⟩ := overwritten_init (ι := ι) (α := α)
  obtain ⟨log, s, hexec, hshown, last, hover'⟩ := hover.enqueues 1 t values (by omega)
  refine ⟨q, log, s, hinit, hexec, hshown, fun turns ↦ ?_⟩
  rw [Nat.zero_add] at hover'
  obtain ⟨pc, hafter, hpc⟩ := hover'.spins hlen htwo u turns
  refine ⟨_, hafter, ?_⟩
  rw [State.advance_self]
  rcases hpc with rfl | rfl | rfl <;> simp

theorem one_node_spins_pair :
    ∃ (q : Queue ℕ) (log : List (Call Bool ℕ × Event ℕ)) (s : State Bool ℕ),
      mpmcInit 1 = some q ∧
      (machine Bool ℕ 1).execAll ⟨q, fun _ ↦ .idle⟩ ([7, 8].flatMap (enqueueCalls false)) =
        some (log, s) ∧
      shown accepted false log = [7, 8] ∧
      ∀ turns, ∃ s', Steps.after (alone true) (s.advance true s.queue .deqLoad) turns = some s' ∧
        s'.threads true ≠ .idle :=
  one_node_spins false true [7, 8] (by decide) (by decide)

end CPractice.MpmcQueue
