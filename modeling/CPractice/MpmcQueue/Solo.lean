import CPractice.MpmcQueue.Steps
import CPractice.Lib.Steps

/-!
# Threads that run alone

A thread that is left alone returns within seven steps, wherever the other threads stand: it fails at most
one compare-and-swap.  The buffer must have two nodes or more.  With one node the sequence number of a
published ticket is that of the next free one: `enqueue` goes on overwriting the node, and after two
of them a `dequeue` retries for ever.
-/

namespace CPractice.MpmcQueue

open Lib

variable {ι α : Type} [DecidableEq ι] {s s' : State ι α} {h : History α} {t : ι} {n : ℕ}

/-- The next step of a thread, with no failure of a compare-and-swap that could succeed. -/
def alone (t : ι) (s : State ι α) : Option (State ι α) := (exec s (.step t false)).map Prod.snd

/-- Within so many steps of its own the thread has returned. -/
def Finishes (t : ι) (n : ℕ) (s : State ι α) : Prop :=
  ∃ m ≤ n, ∃ s', Steps.after (alone t) s m = some s' ∧ s'.threads t = .idle

theorem alone_eq {out : Event α × Queue α × Pc α}
    (hstep : step s.queue false (s.threads t) = some out) :
    alone t s = some (s.advance t out.2.1 out.2.2) := by
  rw [alone, exec, hstep]
  rfl

namespace Finishes

theorem now (hidle : s.threads t = .idle) : Finishes t n s := ⟨0, Nat.zero_le n, s, rfl, hidle⟩

theorem mono {m : ℕ} (hfin : Finishes t m s) (hle : m ≤ n) : Finishes t n s := by
  obtain ⟨count, hcount, s', hafter⟩ := hfin
  exact ⟨count, hcount.trans hle, s', hafter⟩

theorem next (hstep : alone t s = some s') (hfin : Finishes t n s') : Finishes t (n + 1) s := by
  obtain ⟨m, hm, s'', hafter, hidle⟩ := hfin
  refine ⟨1 + m, by omega, s'', ?_, hidle⟩
  rw [Steps.after_add, Steps.after, Steps.after, Option.bind_some, hstep, Option.bind_some, hafter]

end Finishes

/-! ## Two nodes or more -/

namespace Inv

/-- The invariant after a step of the thread, and the rest of its run. -/
theorem finishes_next (hinv : Inv s h)
    (hbound : s.queue.headSeq + s.queue.size < 9223372036854775808) (hbusy : s.threads t ≠ .idle)
    (hrest : ∀ event q' pc', Step s.queue (s.threads t) event q' pc' →
      MpmcQueue.step s.queue false (s.threads t) = some (event, q', pc') →
      Inv (s.advance t q' pc') (h.step (.step t false : Call ι α) event) →
      Finishes t n (s.advance t q' pc')) : Finishes t (n + 1) s := by
  obtain ⟨out, hout⟩ := Option.isSome_iff_exists.mp (hinv.step_isSome false hbusy)
  have hstep := step_spec hinv.shape.nodeAt_eq hout
  exact .next (alone_eq hout)
    (hrest out.1 out.2.1 out.2.2 hstep hout (hinv.step hbound hstep _))

variable (hinv : Inv s h) (hbound : s.queue.headSeq + s.queue.size < 9223372036854775808)
include hinv hbound

theorem finishes_count {data : α}
    (hpc : s.threads t = .enqCount data ∨ s.threads t = .deqCount data) : Finishes t 1 s := by
  apply hinv.finishes_next hbound
  · rcases hpc with hpc | hpc <;> simp [hpc]
  · intro event q' pc' hstep _ _
    rcases hpc with hpc | hpc
    · rw [hpc] at hstep
      cases hstep
      exact .now (State.advance_self _ _)
    · rw [hpc] at hstep
      cases hstep
      exact .now (State.advance_self _ _)

theorem finishes_publish {data : α} {k : ℕ}
    (hpc : s.threads t = .enqPublish data k ∨ s.threads t = .deqRelease k data) :
    Finishes t 2 s := by
  apply hinv.finishes_next hbound
  · rcases hpc with hpc | hpc <;> simp [hpc]
  · intro event q' pc' hstep _ hinv'
    rcases hpc with hpc | hpc
    · rw [hpc] at hstep
      cases hstep
      exact hinv'.finishes_count hbound (.inl (State.advance_self _ _))
    · rw [hpc] at hstep
      cases hstep
      exact hinv'.finishes_count hbound (.inr (State.advance_self _ _))

theorem finishes_store {k : ℕ} (hpc : (∃ data, s.threads t = .enqStore data k) ∨
    s.threads t = .deqCopy k) : Finishes t 3 s := by
  apply hinv.finishes_next hbound
  · rcases hpc with ⟨data, hpc⟩ | hpc <;> simp [hpc]
  · intro event q' pc' hstep _ hinv'
    rcases hpc with ⟨data, hpc⟩ | hpc
    · rw [hpc] at hstep
      cases hstep
      exact hinv'.finishes_publish hbound (.inl (State.advance_self _ _))
    · rw [hpc] at hstep
      cases hstep
      exact hinv'.finishes_publish hbound (.inr (State.advance_self _ _))

end Inv

/-! ## The retries -/

theorem step_enqClaim {q : Queue α} {data : α} {nodeSeq : ℕ} (hzero : dif nodeSeq q.headSeq = 0) :
    step q false (.enqTest data q.headSeq nodeSeq) =
      some (.claimed data, { q with headSeq := u8 (q.headSeq + 1) }, .enqStore data q.headSeq) := by
  rw [step, stepEnqueue, if_pos hzero, if_pos ⟨rfl, rfl⟩]
  rfl

theorem step_deqTake {q : Queue α} {nodeSeq : ℕ} (hzero : dif nodeSeq (u8 (q.tailSeq + 1)) = 0) :
    step q false (.deqTest q.tailSeq nodeSeq) =
      some (.taken, { q with tailSeq := u8 (q.tailSeq + 1) }, .deqCopy q.tailSeq) := by
  rw [step_eq_dequeue rfl, stepDequeue, if_pos hzero, if_pos ⟨rfl, rfl⟩]

/-- The sequence number of the node of the next ticket to take is not ahead of its publication. -/
theorem Shape.seq_taken_le {q : Queue α} (hs : Shape q h) :
    (q.buffer (h.taken % q.size)).seq ≤ h.taken + 1 := by
  have hnot : ¬ h.Released h.taken := fun hrel ↦ absurd (hs.released_lt hrel) (lt_irrefl _)
  by_cases hpub : h.taken ∈ h.published
  · exact (hs.seq_published _ hpub hnot).le
  · rcases Nat.lt_or_ge h.taken h.enqueued.length with hlt | hge
    · rw [hs.seq_claimed _ hlt hpub]
      exact Nat.le_succ _
    · rw [le_antisymm hs.taken_le hge]
      by_cases hfree : h.Free q.size h.enqueued.length
      · exact (hs.seq_next.1 hfree).le.trans (Nat.le_succ _)
      · exact (hs.seq_next.2 hfree).le.trans (Nat.le_succ _)

namespace Inv

variable (hinv : Inv s h) (hbound : s.queue.headSeq + s.queue.size + 1 < 9223372036854775808)
include hinv hbound

/-- A test of a sequence number that was loaded for the current ticket. -/
theorem finishes_test {nodeSeq : ℕ}
    (hpc : (∃ data, s.threads t = .enqTest data s.queue.headSeq nodeSeq) ∧
        nodeSeq ≤ s.queue.headSeq ∨
      s.threads t = .deqTest s.queue.tailSeq nodeSeq ∧ nodeSeq ≤ s.queue.tailSeq + 1) :
    Finishes t 4 s := by
  have hbound' : s.queue.headSeq + s.queue.size < 9223372036854775808 := by omega
  have htaken := hinv.shape.taken_le
  have hhead := hinv.shape.headSeq
  have htail := hinv.shape.tailSeq
  have htwo := hinv.shape.two_le
  have hok := hinv.locals t
  apply hinv.finishes_next hbound'
  · rcases hpc with ⟨⟨data, hpc⟩, -⟩ | ⟨hpc, -⟩ <;> simp [hpc]
  · intro event q' pc' hstep heq hinv'
    rcases hpc with ⟨⟨data, hpc⟩, hle⟩ | ⟨hpc, hle⟩
    · rw [hpc] at hstep heq hok
      have hdif := dif_eq hok.2.1 (show s.queue.headSeq < 9223372036854775808 by omega)
      by_cases hzero : dif nodeSeq s.queue.headSeq = 0
      · rw [step_enqClaim hzero] at heq
        cases heq
        refine hinv'.finishes_store ?_ (.inl ⟨data, State.advance_self _ _⟩)
        change u8 (s.queue.headSeq + 1) + s.queue.size < _
        rw [u8_of_lt (by omega)]
        omega
      · cases hstep with
        | enqClaim _ _ _ hclaim _ => exact absurd hclaim hzero
        | enqRetry _ _ _ hge => exact absurd hzero (by omega)
        | enqFull => exact .now (State.advance_self _ _)
    · rw [hpc] at hstep heq hok
      have hu8 : u8 (s.queue.tailSeq + 1) = s.queue.tailSeq + 1 := u8_of_lt (by omega)
      have hdif := dif_eq hok.2.1 (show s.queue.tailSeq + 1 < 9223372036854775808 by omega)
      by_cases hzero : dif nodeSeq (u8 (s.queue.tailSeq + 1)) = 0
      · rw [step_deqTake hzero] at heq
        cases heq
        exact hinv'.finishes_store hbound' (.inr (State.advance_self _ _))
      · cases hstep with
        | deqTake _ _ hclaim _ => exact absurd hclaim hzero
        | deqRetry _ _ hge =>
            rw [hu8] at hge hzero
            exact absurd hzero (by omega)
        | deqEmpty => exact .now (State.advance_self _ _)

/-- A loop that starts from the current ticket. -/
theorem finishes_loop (hpc : (∃ data, s.threads t = .enqLoop data s.queue.headSeq) ∨
    s.threads t = .deqLoop s.queue.tailSeq) : Finishes t 5 s := by
  have hbound' : s.queue.headSeq + s.queue.size < 9223372036854775808 := by omega
  apply hinv.finishes_next hbound'
  · rcases hpc with ⟨data, hpc⟩ | hpc <;> simp [hpc]
  · intro event q' pc' hstep _ hinv'
    rcases hpc with ⟨data, hpc⟩ | hpc
    · rw [hpc] at hstep
      cases hstep
      refine hinv'.finishes_test hbound (.inl ⟨⟨data, State.advance_self _ _⟩, ?_⟩)
      change (s.queue.buffer (s.queue.headSeq % s.queue.size)).seq ≤ s.queue.headSeq
      rw [hinv.shape.headSeq]
      by_cases hfree : h.Free s.queue.size h.enqueued.length
      · exact (hinv.shape.seq_next.1 hfree).le
      · exact (hinv.shape.seq_next.2 hfree).le
    · rw [hpc] at hstep
      cases hstep
      refine hinv'.finishes_test hbound (.inr ⟨State.advance_self _ _, ?_⟩)
      change (s.queue.buffer (s.queue.tailSeq % s.queue.size)).seq ≤ s.queue.tailSeq + 1
      rw [hinv.shape.tailSeq]
      exact hinv.shape.seq_taken_le

/-- A test with any locals: the call is over, or starts again from the current ticket. -/
theorem finishes_stale {headSeq nodeSeq : ℕ}
    (hpc : (∃ data, s.threads t = .enqTest data headSeq nodeSeq) ∨
      s.threads t = .deqTest headSeq nodeSeq) : Finishes t 6 s := by
  have hbound' : s.queue.headSeq + s.queue.size < 9223372036854775808 := by omega
  apply hinv.finishes_next hbound'
  · rcases hpc with ⟨data, hpc⟩ | hpc <;> simp [hpc]
  · intro event q' pc' hstep _ hinv'
    rcases hpc with ⟨data, hpc⟩ | hpc
    · rw [hpc] at hstep
      cases hstep with
      | enqClaim _ _ _ _ hcas =>
          refine (hinv'.finishes_store ?_ (.inl ⟨data, State.advance_self _ _⟩)).mono (by decide)
          change u8 (headSeq + 1) + s.queue.size < _
          rw [u8_of_lt (by omega)]
          omega
      | enqRetry => exact hinv'.finishes_loop hbound (.inl ⟨data, State.advance_self _ _⟩)
      | enqFull => exact .now (State.advance_self _ _)
    · rw [hpc] at hstep
      cases hstep with
      | deqTake =>
          exact (hinv'.finishes_store hbound' (.inr (State.advance_self _ _))).mono (by decide)
      | deqRetry => exact hinv'.finishes_loop hbound (.inr (State.advance_self _ _))
      | deqEmpty => exact .now (State.advance_self _ _)

theorem finishes (t : ι) : Finishes t 7 s := by
  have hbound' : s.queue.headSeq + s.queue.size < 9223372036854775808 := by omega
  cases hpc : s.threads t with
  | idle => exact .now hpc
  | enqLoad data =>
      refine Finishes.mono (m := 6) ?_ (by decide)
      apply hinv.finishes_next hbound' (by simp [hpc])
      intro event q' pc' hstep _ hinv'
      rw [hpc] at hstep
      cases hstep
      exact hinv'.finishes_loop hbound (.inl ⟨data, State.advance_self _ _⟩)
  | enqLoop data headSeq =>
      apply hinv.finishes_next hbound' (by simp [hpc])
      intro event q' pc' hstep _ hinv'
      rw [hpc] at hstep
      cases hstep
      exact hinv'.finishes_stale hbound (.inl ⟨data, State.advance_self _ _⟩)
  | enqTest data headSeq nodeSeq =>
      exact (hinv.finishes_stale hbound (.inl ⟨data, hpc⟩)).mono (by decide)
  | enqStore data headSeq =>
      exact (hinv.finishes_store hbound' (.inl ⟨data, hpc⟩)).mono (by decide)
  | enqPublish data headSeq => exact (hinv.finishes_publish hbound' (.inl hpc)).mono (by decide)
  | enqCount data => exact (hinv.finishes_count hbound' (.inl hpc)).mono (by decide)
  | deqLoad =>
      refine Finishes.mono (m := 6) ?_ (by decide)
      apply hinv.finishes_next hbound' (by simp [hpc])
      intro event q' pc' hstep _ hinv'
      rw [hpc] at hstep
      cases hstep
      exact hinv'.finishes_loop hbound (.inr (State.advance_self _ _))
  | deqLoop tailSeq =>
      apply hinv.finishes_next hbound' (by simp [hpc])
      intro event q' pc' hstep _ hinv'
      rw [hpc] at hstep
      cases hstep
      exact hinv'.finishes_stale hbound (.inr (State.advance_self _ _))
  | deqTest tailSeq nodeSeq => exact (hinv.finishes_stale hbound (.inr hpc)).mono (by decide)
  | deqCopy tailSeq => exact (hinv.finishes_store hbound' (.inr hpc)).mono (by decide)
  | deqRelease tailSeq data =>
      exact (hinv.finishes_publish hbound' (.inr hpc)).mono (by decide)
  | deqCount data => exact (hinv.finishes_count hbound' (.inr hpc)).mono (by decide)

end Inv

end CPractice.MpmcQueue
