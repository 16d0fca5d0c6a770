import CPractice.MpmcQueue.Steps

/-!
# What a refusal says

`enqueue` returns false and `dequeue` returns nothing only after a load, inside of the same call, at a
moment when the next ticket could not be served: its node was not given back from the lap before, or no
`enqueue` had published it.
-/

namespace CPractice.MpmcQueue

open Lib

variable {ι α : Type} {s s' : State ι α} {h : History α} {size : ℕ}
  {log : List (Call ι α × Event α)} {t : ι}

/-- The ticket one lap before the next one is drawn and not given back. -/
def History.Full (h : History α) (size : ℕ) : Prop :=
  ∃ prior, prior + size = h.enqueued.length ∧ ¬ h.Released prior

/-- The next ticket to take is not published. -/
def History.Empty (h : History α) : Prop := h.taken ∉ h.published

/-- The last step of the thread was made when the history satisfied `P`. -/
def Saw (P : History α → Prop) (log : List (Call ι α × Event α)) (t : ι) : Prop :=
  ∃ before weak event rest, log = before ++ (.step t weak, event) :: rest ∧
    (∀ entry ∈ rest, entry.1.thread ≠ t) ∧ P (history before)

theorem Saw.other {P : History α → Prop} (hsaw : Saw P log t) {call : Call ι α}
    (hne : call.thread ≠ t) (event : Event α) : Saw P (log ++ [(call, event)]) t := by
  obtain ⟨before, weak, event', rest, hlog, hrest, hP⟩ := hsaw
  refine ⟨before, weak, event', rest ++ [(call, event)], ?_, ?_, hP⟩
  · rw [hlog, List.append_assoc, List.cons_append]
  · intro entry hentry
    rcases List.mem_append.mp hentry with hmem | hmem
    · exact hrest entry hmem
    · rw [List.mem_singleton.mp hmem]
      exact hne

/-- A sequence number loaded behind the ticket of an `enqueue` was loaded from a full queue. -/
theorem full_of_load (hinv : Inv s h) {headSeq : ℕ} (hle : headSeq ≤ h.enqueued.length)
    (hseq : (s.queue.buffer (headSeq % s.queue.size)).seq < headSeq) : h.Full s.queue.size := by
  rcases Nat.lt_or_ge headSeq h.enqueued.length with hlt | hge
  · exact absurd (hinv.shape.le_seq hlt).1 (by omega)
  · obtain rfl : headSeq = h.enqueued.length := le_antisymm hle hge
    by_contra hfull
    have hfree : h.Free s.queue.size h.enqueued.length := by
      intro prior hprior
      by_contra hrel
      exact hfull ⟨prior, hprior, hrel⟩
    have hnext := hinv.shape.seq_next.1 hfree
    omega

/-- A sequence number loaded behind the published ticket of a `dequeue` was loaded when the next ticket
to take was not published. -/
theorem empty_of_load (hinv : Inv s h) {tailSeq : ℕ} (hle : tailSeq ≤ h.taken)
    (hseq : (s.queue.buffer (tailSeq % s.queue.size)).seq < tailSeq + 1) : h.Empty := by
  intro hpub
  have hmem : tailSeq ∈ h.published := by
    rcases Nat.lt_or_ge tailSeq h.taken with hlt | hge
    · exact hinv.shape.taken_published _ hlt
    · rwa [le_antisymm hle hge]
  have hafter := (hinv.shape.le_seq (hinv.shape.published_lt _ hmem)).2 hmem
  omega

/-! ## Runs -/

/-- What a thread that is about to refuse has seen. -/
def SawRefusal (size : ℕ) (log : List (Call ι α × Event α)) (t : ι) (pc : Pc α) : Prop :=
  (∀ data headSeq nodeSeq, pc = .enqTest data headSeq nodeSeq → nodeSeq < headSeq →
    Saw (History.Full · size) log t) ∧
  ∀ tailSeq nodeSeq, pc = .deqTest tailSeq nodeSeq → nodeSeq < tailSeq + 1 →
    Saw History.Empty log t

theorem SawRefusal.none {pc : Pc α} (henq : ∀ data headSeq nodeSeq, pc ≠ .enqTest data headSeq nodeSeq)
    (hdeq : ∀ tailSeq nodeSeq, pc ≠ .deqTest tailSeq nodeSeq) : SawRefusal size log t pc :=
  ⟨fun data headSeq nodeSeq hpc ↦ absurd hpc (henq data headSeq nodeSeq),
    fun tailSeq nodeSeq hpc ↦ absurd hpc (hdeq tailSeq nodeSeq)⟩

theorem SawRefusal.other {pc : Pc α} (hsaw : SawRefusal size log t pc) {call : Call ι α}
    (hne : call.thread ≠ t) (event : Event α) : SawRefusal size (log ++ [(call, event)]) t pc :=
  ⟨fun data headSeq nodeSeq hpc hlt ↦ (hsaw.1 data headSeq nodeSeq hpc hlt).other hne event,
    fun tailSeq nodeSeq hpc hlt ↦ (hsaw.2 tailSeq nodeSeq hpc hlt).other hne event⟩

theorem sawRefusal_of_step (hinv : Inv s (history log)) {event : Event α} {q' : Queue α} {pc' : Pc α}
    (hstep : Step s.queue (s.threads t) event q' pc') (weak : Bool) :
    SawRefusal s.queue.size (log ++ [(.step t weak, event)]) t pc' := by
  have hok := hinv.locals t
  generalize s.threads t = pc at hstep hok
  constructor
  · rintro data headSeq nodeSeq rfl hlt
    cases hstep
    exact ⟨log, weak, _, [], rfl, fun _ hmem ↦ absurd hmem List.not_mem_nil,
      full_of_load hinv hok hlt⟩
  · rintro tailSeq nodeSeq rfl hlt
    cases hstep
    exact ⟨log, weak, _, [], rfl, fun _ hmem ↦ absurd hmem List.not_mem_nil,
      empty_of_load hinv hok hlt⟩

variable [DecidableEq ι]

theorem sawRefusal (htwo : 2 ≤ size) (htrace : Machine.Trace (machine ι α size) s log) (t : ι) :
    SawRefusal size log t (s.threads t) := by
  induction htrace with
  | init hinit =>
      rw [hinit.2 t]
      exact .none (by simp) (by simp)
  | @call s s' log call event htrace hok hexec ih =>
      obtain ⟨hsize, hinv⟩ := inv_of_trace htwo htrace
      cases call with
      | enqueue u data =>
          obtain ⟨rfl, rfl⟩ := Prod.mk.inj (Option.some.inj hexec)
          by_cases hu : u = t
          · subst hu
            simp only [Function.update_self]
            exact .none (by simp) (by simp)
          · simp only [Function.update_of_ne (Ne.symm hu)]
            exact ih.other (show (Call.enqueue u data).thread ≠ t from hu) _
      | dequeue u =>
          obtain ⟨rfl, rfl⟩ := Prod.mk.inj (Option.some.inj hexec)
          by_cases hu : u = t
          · subst hu
            simp only [Function.update_self]
            exact .none (by simp) (by simp)
          · simp only [Function.update_of_ne (Ne.symm hu)]
            exact ih.other (show (Call.dequeue u).thread ≠ t from hu) _
      | size u =>
          obtain ⟨rfl, rfl⟩ := Prod.mk.inj (Option.some.inj hexec)
          by_cases hu : u = t
          · subst hu
            rw [show s.threads u = .idle from hok.1]
            exact .none (by simp) (by simp)
          · exact ih.other (show (Call.size u).thread ≠ t from hu) _
      | step u weak =>
          obtain ⟨out, hout, heq⟩ := Option.map_eq_some_iff.mp hexec
          obtain ⟨rfl, rfl⟩ := Prod.mk.inj heq
          by_cases hu : u = t
          · subst hu
            simp only [Function.update_self]
            rw [← hsize]
            exact sawRefusal_of_step hinv (step_spec hinv.shape.nodeAt_eq hout) weak
          · simp only [Function.update_of_ne (Ne.symm hu)]
            exact ih.other (show (Call.step u weak).thread ≠ t from hu) _

/-- A call that is refused has, as its last step before the return, loaded a sequence number when the
queue could not serve it. -/
theorem refused (htwo : 2 ≤ size) (htrace : Machine.Trace (machine ι α size) s log) {weak : Bool}
    {event : Event α} (hexec : exec s (.step t weak) = some (event, s')) :
    (∀ data, event = .enqReturn data false → Saw (History.Full · size) log t) ∧
      (event = .deqReturn none → Saw History.Empty log t) := by
  obtain ⟨rfl, hinv⟩ := inv_of_trace htwo htrace
  have hsaw := sawRefusal htwo htrace t
  have hok := hinv.locals t
  have hbound := hinv.shape.bound
  have htaken := hinv.shape.taken_le
  obtain ⟨out, hout, heq⟩ := Option.map_eq_some_iff.mp hexec
  obtain ⟨rfl, -⟩ := Prod.mk.inj heq
  have hstep := step_spec hinv.shape.nodeAt_eq hout
  generalize s.threads t = pc at hstep hok hsaw
  generalize out.2.1 = q', out.2.2 = pc' at hstep
  constructor
  · intro data hevent
    rw [hevent] at hstep
    cases hstep with
    | enqFull data headSeq nodeSeq hneg =>
        obtain ⟨hle, hlt, -⟩ := hok
        rw [dif_eq hlt (by omega)] at hneg
        exact hsaw.1 data headSeq nodeSeq rfl (by omega)
  · intro hevent
    rw [hevent] at hstep
    cases hstep with
    | deqEmpty tailSeq nodeSeq hneg =>
        obtain ⟨hle, hlt, -⟩ := hok
        rw [u8_of_lt (by omega), dif_eq hlt (by omega)] at hneg
        exact hsaw.2 tailSeq nodeSeq rfl (by omega)

/-- A `dequeue` of the new queue, up to its return. -/
def emptyCalls : List (Call Bool ℕ) := [.dequeue true, .step true false, .step true false]

theorem emptyCalls_run : ((machine Bool ℕ 2).execAll pairStart emptyCalls).isSome := by
  with_unfolding_all decide

theorem refused_pair :
    ∃ s log s', Machine.Trace (machine Bool ℕ 2) s log ∧
      exec s (.step true false) = some (.deqReturn none, s') ∧ Saw History.Empty log true := by
  have htrace := pair_trace emptyCalls_run (by with_unfolding_all decide)
  have hout : (exec (((machine Bool ℕ 2).execAll pairStart emptyCalls).get emptyCalls_run).2
      (.step true false)).map Prod.fst = some (.deqReturn none) := by with_unfolding_all decide
  obtain ⟨⟨event, s'⟩, hexec, rfl⟩ := Option.map_eq_some_iff.mp hout
  exact ⟨_, _, s', htrace, hexec, (refused (by decide) htrace hexec).2 rfl⟩

end CPractice.MpmcQueue
