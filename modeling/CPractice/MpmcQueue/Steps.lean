import CPractice.MpmcQueue.Invariant

/-!
# The steps of the threads

`Step` lists what the atomic steps do.  Every one keeps the invariant, none faults, and so the invariant
holds in every state of every run.
-/

namespace CPractice.MpmcQueue

open Lib

variable {ι α : Type} [DecidableEq ι] {s : State ι α} {h : History α} {t : ι}

/-! ## Steps -/

theorem dif_eq {a b : ℕ} (ha : a < 9223372036854775808) (hb : b < 9223372036854775808) :
    dif a b = a - b := by
  have hword : ∀ n : ℤ, -9223372036854775808 ≤ n → n < 9223372036854775808 → intptr n = n := by
    intro n hlow hhigh
    exact Int.bmod_eq_of_le_mul_two (by omega) (by omega)
  rw [dif, hword a (by omega) (by omega), hword b (by omega) (by omega),
    hword _ (by omega) (by omega)]

/-- The steps of a thread, with the node of a ticket found by its remainder. -/
inductive Step (q : Queue α) : Pc α → Event α → Queue α → Pc α → Prop where
  | enqLoad (data : α) : Step q (.enqLoad data) .silent q (.enqLoop data q.headSeq)
  | enqLoop (data : α) (headSeq : ℕ) :
      Step q (.enqLoop data headSeq) .silent q
        (.enqTest data headSeq (q.buffer (headSeq % q.size)).seq)
  | enqClaim (data : α) (headSeq nodeSeq : ℕ) : dif nodeSeq headSeq = 0 → q.headSeq = headSeq →
      Step q (.enqTest data headSeq nodeSeq) (.claimed data)
        { q with headSeq := u8 (headSeq + 1) } (.enqStore data headSeq)
  | enqRetry (data : α) (headSeq nodeSeq : ℕ) : 0 ≤ dif nodeSeq headSeq →
      Step q (.enqTest data headSeq nodeSeq) .silent q (.enqLoop data q.headSeq)
  | enqFull (data : α) (headSeq nodeSeq : ℕ) : dif nodeSeq headSeq < 0 →
      Step q (.enqTest data headSeq nodeSeq) (.enqReturn data false) q .idle
  | enqStore (data : α) (headSeq : ℕ) :
      Step q (.enqStore data headSeq) .silent
        (setNode q (headSeq % q.size) { q.buffer (headSeq % q.size) with data := some data })
        (.enqPublish data headSeq)
  | enqPublish (data : α) (headSeq : ℕ) :
      Step q (.enqPublish data headSeq) (.published headSeq)
        (setNode q (headSeq % q.size)
          { q.buffer (headSeq % q.size) with seq := u8 (headSeq + 1) }) (.enqCount data)
  | enqCount (data : α) : Step q (.enqCount data) (.enqReturn data true) (count q 1) .idle
  | deqLoad : Step q .deqLoad .silent q (.deqLoop q.tailSeq)
  | deqLoop (tailSeq : ℕ) :
      Step q (.deqLoop tailSeq) .silent q (.deqTest tailSeq (q.buffer (tailSeq % q.size)).seq)
  | deqTake (tailSeq nodeSeq : ℕ) : dif nodeSeq (u8 (tailSeq + 1)) = 0 → q.tailSeq = tailSeq →
      Step q (.deqTest tailSeq nodeSeq) .taken { q with tailSeq := u8 (tailSeq + 1) }
        (.deqCopy tailSeq)
  | deqRetry (tailSeq nodeSeq : ℕ) : 0 ≤ dif nodeSeq (u8 (tailSeq + 1)) →
      Step q (.deqTest tailSeq nodeSeq) .silent q (.deqLoop q.tailSeq)
  | deqEmpty (tailSeq nodeSeq : ℕ) : dif nodeSeq (u8 (tailSeq + 1)) < 0 →
      Step q (.deqTest tailSeq nodeSeq) (.deqReturn none) q .idle
  | deqCopy (tailSeq : ℕ) (data : α) : (q.buffer (tailSeq % q.size)).data = some data →
      Step q (.deqCopy tailSeq) .silent q (.deqRelease tailSeq data)
  | deqRelease (tailSeq : ℕ) (data : α) :
      Step q (.deqRelease tailSeq data) (.released tailSeq data)
        (setNode q (tailSeq % q.size)
          { q.buffer (tailSeq % q.size) with seq := u8 (u8 (tailSeq + q.mask) + 1) })
        (.deqCount data)
  | deqCount (data : α) :
      Step q (.deqCount data) (.deqReturn (some data)) (count q (-1)) .idle

theorem step_eq_dequeue {q : Queue α} {weak : Bool} {pc : Pc α}
    (hnone : stepEnqueue q weak pc = none) : step q weak pc = stepDequeue q weak pc := by
  rw [step, hnone]
  rfl

/-- A step that does not fault is one of these. -/
theorem step_spec {q : Queue α} {weak : Bool} {pc : Pc α} {out : Event α × Queue α × Pc α}
    (hnode : ∀ k, nodeAt q k = some (k % q.size, q.buffer (k % q.size)))
    (hstep : step q weak pc = some out) : Step q pc out.1 out.2.1 out.2.2 := by
  cases pc with
  | idle => cases hstep
  | enqTest data headSeq nodeSeq =>
      rw [step, stepEnqueue] at hstep
      split at hstep
      · next hzero =>
          split at hstep
          · next hcas =>
              obtain rfl := Option.some.inj hstep
              exact .enqClaim data headSeq nodeSeq hzero hcas.1
          · obtain rfl := Option.some.inj hstep
            exact .enqRetry data headSeq nodeSeq hzero.ge
      · split at hstep
        · next hneg =>
            obtain rfl := Option.some.inj hstep
            exact .enqFull data headSeq nodeSeq hneg
        · next hpos =>
            obtain rfl := Option.some.inj hstep
            exact .enqRetry data headSeq nodeSeq (not_lt.mp hpos)
  | deqTest tailSeq nodeSeq =>
      rw [step_eq_dequeue rfl, stepDequeue] at hstep
      split at hstep
      · next hzero =>
          split at hstep
          · next hcas =>
              obtain rfl := Option.some.inj hstep
              exact .deqTake tailSeq nodeSeq hzero hcas.1
          · obtain rfl := Option.some.inj hstep
            exact .deqRetry tailSeq nodeSeq hzero.ge
      · split at hstep
        · next hneg =>
            obtain rfl := Option.some.inj hstep
            exact .deqEmpty tailSeq nodeSeq hneg
        · next hpos =>
            obtain rfl := Option.some.inj hstep
            exact .deqRetry tailSeq nodeSeq (not_lt.mp hpos)
  | deqCopy tailSeq =>
      rw [step_eq_dequeue rfl, stepDequeue, hnode, Option.bind_eq_bind, Option.bind_some] at hstep
      obtain ⟨data, hdata, hout⟩ := Option.bind_eq_some_iff.mp hstep
      obtain rfl := Option.some.inj hout
      exact .deqCopy tailSeq data hdata
  | enqLoop data headSeq =>
      rw [step, stepEnqueue, hnode] at hstep
      obtain rfl := Option.some.inj hstep
      exact .enqLoop data headSeq
  | enqStore data headSeq =>
      rw [step, stepEnqueue, hnode] at hstep
      obtain rfl := Option.some.inj hstep
      exact .enqStore data headSeq
  | enqPublish data headSeq =>
      rw [step, stepEnqueue, hnode] at hstep
      obtain rfl := Option.some.inj hstep
      exact .enqPublish data headSeq
  | deqLoop tailSeq =>
      rw [step_eq_dequeue rfl, stepDequeue, hnode] at hstep
      obtain rfl := Option.some.inj hstep
      exact .deqLoop tailSeq
  | deqRelease tailSeq data =>
      rw [step_eq_dequeue rfl, stepDequeue, hnode] at hstep
      obtain rfl := Option.some.inj hstep
      exact .deqRelease tailSeq data
  | enqLoad data =>
      obtain rfl := Option.some.inj hstep
      exact .enqLoad data
  | enqCount data =>
      obtain rfl := Option.some.inj hstep
      exact .enqCount data
  | deqLoad =>
      obtain rfl := Option.some.inj hstep
      exact .deqLoad
  | deqCount data =>
      obtain rfl := Option.some.inj hstep
      exact .deqCount data

/-- The size of the queue stays. -/
theorem Step.size_eq {q q' : Queue α} {pc pc' : Pc α} {event : Event α}
    (hstep : Step q pc event q' pc') : q'.size = q.size := by
  cases hstep <;> rfl

namespace Inv

/-- Every step keeps the invariant. -/
theorem step (hinv : Inv s h) (hbound : s.queue.headSeq + s.queue.size < 9223372036854775808)
    {event : Event α} {q' : Queue α} {pc' : Pc α}
    (hstep : Step s.queue (s.threads t) event q' pc') (call : Call ι α) :
    Inv (s.advance t q' pc') (h.step call event) := by
  have hshape := hinv.shape
  have hhead := hshape.headSeq
  have htail := hshape.tailSeq
  have htaken := hshape.taken_le
  have htwo := hshape.two_le
  have hok := hinv.locals t
  generalize hpc : s.threads t = pc at hstep hok
  cases hstep with
  | enqLoad data => exact hinv.pause hhead.le (by rw [hpc]; rfl)
  | enqLoop data headSeq =>
      refine hinv.pause ⟨hok, ?_, ?_⟩ (by rw [hpc]; rfl)
      · have hlt := hshape.seq_lt headSeq
        omega
      · rintro hseq rfl
        exact hshape.free_of_seq hseq
  | enqClaim data headSeq nodeSeq hzero hcas =>
      obtain ⟨hle, hlt, hfree⟩ := hok
      rw [dif_eq hlt (by omega)] at hzero
      have hcurrent : headSeq = h.enqueued.length := hcas.symm.trans hhead
      exact hinv.claim hcurrent (hfree (by omega) hcurrent) (by omega) (by rw [hpc]; rfl)
  | enqRetry data headSeq nodeSeq _ => exact hinv.pause hhead.le (by rw [hpc]; rfl)
  | enqFull data headSeq nodeSeq _ => exact hinv.pause trivial (by rw [hpc]; rfl)
  | enqStore data headSeq => exact hinv.store hpc
  | enqPublish data headSeq => exact hinv.publish hpc
  | enqCount data =>
      exact hinv.quiet (hshape.count 1) rfl trivial (by rw [hpc]; rfl) fun _ _ _ _ _ ↦ rfl
  | deqLoad => exact hinv.pause htail.le (by rw [hpc]; rfl)
  | deqLoop tailSeq =>
      refine hinv.pause ⟨hok, ?_, ?_⟩ (by rw [hpc]; rfl)
      · have hlt := hshape.seq_lt tailSeq
        omega
      · rintro hseq rfl
        exact hshape.published_of_seq hseq
  | deqTake tailSeq nodeSeq hzero hcas =>
      obtain ⟨hle, hlt, hpub⟩ := hok
      rw [u8_of_lt (by omega), dif_eq hlt (by omega)] at hzero
      have hcurrent : tailSeq = h.taken := hcas.symm.trans htail
      exact hinv.take hcurrent (hpub (by omega) hcurrent) (by rw [hpc]; rfl)
  | deqRetry tailSeq nodeSeq _ => exact hinv.pause htail.le (by rw [hpc]; rfl)
  | deqEmpty tailSeq nodeSeq _ => exact hinv.pause trivial (by rw [hpc]; rfl)
  | deqCopy tailSeq data hdata =>
      obtain ⟨hlt, hrel⟩ := (hinv.held (.deq tailSeq)).mpr ⟨t, by rw [hpc, Pc.ticket]⟩
      have hget := hshape.data _ (hshape.taken_published _ hlt) hrel
      exact hinv.pause (hget.symm.trans hdata) (by rw [hpc]; rfl)
  | deqRelease tailSeq data => exact hinv.release hpc
  | deqCount data =>
      exact hinv.quiet (hshape.count (-1)) rfl trivial (by rw [hpc]; rfl) fun _ _ _ _ _ ↦ rfl

omit [DecidableEq ι] in
/-- No step faults. -/
theorem step_isSome (hinv : Inv s h) (weak : Bool) (hpc : s.threads t ≠ .idle) :
    (MpmcQueue.step s.queue weak (s.threads t)).isSome := by
  have hnode := hinv.shape.nodeAt_eq
  cases hcase : s.threads t with
  | idle => exact absurd hcase hpc
  | enqTest data headSeq nodeSeq =>
      rw [MpmcQueue.step, stepEnqueue]
      split
      · split <;> rfl
      · split <;> rfl
  | deqTest tailSeq nodeSeq =>
      rw [step_eq_dequeue rfl, stepDequeue]
      split
      · split <;> rfl
      · split <;> rfl
  | deqCopy tailSeq =>
      obtain ⟨hlt, hrel⟩ := (hinv.held (.deq tailSeq)).mpr ⟨t, by rw [hcase, Pc.ticket]⟩
      have hpub := hinv.shape.taken_published _ hlt
      have hget := hinv.shape.data _ hpub hrel
      rw [List.getElem?_eq_getElem (hinv.shape.published_lt _ hpub)] at hget
      simp [MpmcQueue.step, stepEnqueue, stepDequeue, hnode, hget]
  | _ => simp [MpmcQueue.step, stepEnqueue, stepDequeue, hnode]

/-- One call of any thread. -/
theorem exec_some (hinv : Inv s h) {size : ℕ} {call : Call ι α}
    (hok : (machine ι α size).ok s call) :
    ∃ event s', exec s call = some (event, s') ∧ s'.queue.size = s.queue.size ∧
      Inv s' (h.step call event) := by
  obtain ⟨henabled, hbound⟩ := hok
  cases call with
  | enqueue t data =>
      exact ⟨_, _, rfl, rfl, hinv.pause trivial (by rw [show s.threads t = .idle from henabled]; rfl)⟩
  | dequeue t =>
      exact ⟨_, _, rfl, rfl, hinv.pause trivial (by rw [show s.threads t = .idle from henabled]; rfl)⟩
  | size t => exact ⟨_, _, rfl, rfl, hinv⟩
  | step t weak =>
      obtain ⟨out, hout⟩ := Option.isSome_iff_exists.mp (hinv.step_isSome weak henabled)
      have hstep := step_spec hinv.shape.nodeAt_eq hout
      refine ⟨out.1, s.advance t out.2.1 out.2.2, ?_, hstep.size_eq, hinv.step hbound hstep _⟩
      rw [exec, hout]
      rfl

end Inv

/-! ## Runs -/

/-- The size that the assertion of the constructor admits. -/
theorem mpmcInit_eq_some {size : ℕ} {q : Queue α} (hinit : mpmcInit size = some q) :
    (∃ e, size = 2 ^ e) ∧ size < 18446744073709551616 ∧
      q = ⟨size, u8Sub size 1, fun i ↦ ⟨none, i⟩, 0, 0, 0⟩ := by
  rw [mpmcInit] at hinit
  split at hinit
  · next hsize =>
      obtain ⟨hzero, hand⟩ := hsize
      have hsub : u8Sub 0 size < 2 ^ 64 := by
        unfold u8Sub u8
        omega
      have hlt : size < 2 ^ 64 := by
        calc
          size = size &&& u8Sub 0 size := hand.symm
          _ ≤ u8Sub 0 size := Nat.and_le_right
          _ < 2 ^ 64 := hsub
      have hneg : u8Sub 0 size = 2 ^ 64 - ((size - 1) + 1) := by
        unfold u8Sub u8
        omega
      refine ⟨?_, hlt, (Option.some.inj hinit).symm⟩
      apply (Nat.and_sub_one_eq_zero_iff_isPowerOfTwo hzero).mp
      apply Nat.eq_of_testBit_eq
      intro i
      rw [Nat.testBit_and, Nat.zero_testBit]
      cases hbit : size.testBit i with
      | false => rfl
      | true =>
          rw [← hand, Nat.testBit_and, hneg,
            Nat.testBit_two_pow_sub_succ (by omega : size - 1 < 2 ^ 64)] at hbit
          simp only [Bool.and_eq_true, Bool.not_eq_true', decide_eq_true_eq] at hbit
          rw [hbit.2.2]
          rfl
  · cases hinit

/-- A new queue has the shape of the empty history. -/
theorem shape_init {size : ℕ} {q : Queue α} (hinit : mpmcInit size = some q) (htwo : 2 ≤ size) :
    Shape q .empty := by
  obtain ⟨⟨e, he⟩, hlt, rfl⟩ := mpmcInit_eq_some hinit
  have hexp : e < 64 := by
    by_contra hge
    have hpow := Nat.pow_le_pow_right (by decide : 0 < 2) (Nat.le_of_not_lt hge)
    omega
  have hhalf : size ≤ 9223372036854775808 := by
    have hpow := Nat.pow_le_pow_right (by decide : 0 < 2) (Nat.le_of_lt_succ hexp)
    omega
  exact
    { power := ⟨e, he⟩
      two_le := htwo
      mask := u8Sub_of_le (by omega) hlt
      bound := by
        change 0 + size ≤ _
        omega
      headSeq := rfl
      tailSeq := rfl
      taken_published := fun k hk ↦ absurd hk (Nat.not_lt_zero k)
      published_lt := fun k hk ↦ absurd hk List.not_mem_nil
      published_nodup := List.nodup_nil
      released_taken := fun k data hk ↦ absurd hk List.not_mem_nil
      released_nodup := List.nodup_nil
      window := fun k hk ↦ absurd hk (Nat.not_lt_zero k)
      seq_fresh := fun _ _ _ ↦ rfl
      seq_claimed := fun k hk ↦ absurd hk (Nat.not_lt_zero k)
      seq_published := fun k hk ↦ absurd hk List.not_mem_nil
      seq_released := by
        rintro k ⟨data, hk⟩
        exact absurd hk List.not_mem_nil
      data := fun k hk ↦ absurd hk List.not_mem_nil }

section Runs

variable {size : ℕ} {log : List (Call ι α × Event α)}

theorem inv_init (htwo : 2 ≤ size) (hinit : (machine ι α size).init s) :
    s.queue.size = size ∧ Inv s .empty := by
  obtain ⟨hqueue, hidle⟩ := hinit
  obtain ⟨-, -, hq⟩ := mpmcInit_eq_some hqueue
  refine ⟨by rw [hq], shape_init hqueue htwo, ?_, ?_, ?_⟩
  · intro t
    rw [hidle t]
    trivial
  · intro t u x hx
    rw [hidle t] at hx
    cases hx
  · intro x
    constructor
    · intro hopen
      cases x with
      | enq k => exact absurd hopen.1 (Nat.not_lt_zero k)
      | deq k => exact absurd hopen.1 (Nat.not_lt_zero k)
    · rintro ⟨t, ht⟩
      rw [hidle t] at ht
      cases ht

/-- The invariant in every state of every run. -/
theorem inv_of_trace (htwo : 2 ≤ size) (htrace : Machine.Trace (machine ι α size) s log) :
    s.queue.size = size ∧ Inv s (history log) := by
  have hsim : Machine.Simulates (machine ι α size) History.step (fun _ _ _ ↦ True)
      fun s h ↦ s.queue.size = size ∧ Inv s h := by
    intro s h call hrel hok
    obtain ⟨event, s', hexec, hsize, hinv⟩ := hrel.2.exec_some hok
    exact ⟨event, s', hexec, trivial, hsize.trans hrel.1, hinv⟩
  exact htrace.related .empty (fun s hinit ↦ inv_init htwo hinit) hsim

end Runs

/-! ## Two threads on two nodes -/

def pairStart : State Bool ℕ := ⟨⟨2, 1, fun i ↦ ⟨none, i⟩, 0, 0, 0⟩, fun _ ↦ .idle⟩

theorem pairStart_init : (machine Bool ℕ 2).init pairStart := by
  refine ⟨?_, fun _ ↦ rfl⟩
  rw [mpmcInit, if_pos (by with_unfolding_all decide)]
  with_unfolding_all rfl

/-- A list of calls as a run. -/
theorem pair_trace {calls : List (Call Bool ℕ)}
    (hrun : ((machine Bool ℕ 2).execAll pairStart calls).isSome)
    (hok : (machine Bool ℕ 2).AllOk pairStart calls) :
    Machine.Trace (machine Bool ℕ 2) (((machine Bool ℕ 2).execAll pairStart calls).get hrun).2
      (((machine Bool ℕ 2).execAll pairStart calls).get hrun).1 :=
  Machine.trace_execAll pairStart_init hok (Option.some_get _).symm

/-- One thread enqueues and starts to do so again; the other has taken the first element. -/
def pairCalls : List (Call Bool ℕ) :=
  .enqueue false 7 :: List.replicate 6 (.step false false) ++
    .dequeue true :: List.replicate 3 (.step true false) ++
    .enqueue false 8 :: List.replicate 3 (.step false false)

theorem pairCalls_run : ((machine Bool ℕ 2).execAll pairStart pairCalls).isSome := by
  with_unfolding_all decide

theorem pairCalls_ok : (machine Bool ℕ 2).AllOk pairStart pairCalls := by
  with_unfolding_all decide

end CPractice.MpmcQueue
