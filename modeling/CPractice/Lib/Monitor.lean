import CPractice.Lib.Counting
import CPractice.Lib.Refinement
import Mathlib.Data.Fintype.Card
import Mathlib.Data.Finset.Card
import Mathlib.Algebra.Order.BigOperators.Group.Finset

/-!
# Monitors

Operations on shared data under one mutex.  An operation takes the mutex, waits on a condition variable
while its loop condition holds, runs its body, notifies a condition variable and gives the mutex back.  To
wait is to give the mutex back; a thread that is woken takes it again and tests its loop condition again.
A notification wakes at least one of the threads that wait, and threads may wake without one.

Four rules: what the operations do is a run of the sequential object (`Trace.sequential`); the mutex has
one owner (`Trace.inside_iff`); where a meter counts how many waiters could go on, no wake-up is lost
(`Trace.metered`), and so a thread waits for ever only with its loop condition true (`Trace.stuck`);
threads that are left alone stop (`settles`).
-/

namespace CPractice.Lib

/-- Operations under one mutex: the loop condition, the condition variable of the loop, the body, and
the condition variable notified behind it. -/
structure Monitor (σ ω ρ γ : Type) where
  blocks : σ → ω → Bool
  waitsOn : ω → Option γ
  body : σ → ω → Option (ρ × σ)
  notifies : ω → Option γ

namespace Monitor

variable {ι σ ω ρ γ : Type}

/-- Where a thread is in an operation. -/
inductive Pc (ω : Type) where
  | idle
  | entering (op : ω)
  | inside (op : ω)
  | waiting (op : ω)
  | woken (op : ω)
  deriving DecidableEq

structure State (ι σ ω : Type) where
  shared : σ
  owner : Option ι
  threads : ι → Pc ω

inductive Call (ι ω : Type) where
  | invoke (thread : ι) (op : ω)
  | acquire (thread : ι)
  | run (thread : ι) (wakes : List ι)
  | spurious (thread : ι)

inductive Event (ω ρ : Type) where
  | silent
  | blocked
  | returned (op : ω) (result : ρ)

variable (M : Monitor σ ω ρ γ)

/-- The thread waits on a condition variable. -/
def WaitsFor (c : γ) : Pc ω → Prop
  | .waiting op => M.waitsOn op = some c
  | _ => False

/-- The thread will test the loop condition of an operation that waits on the variable. -/
def Awake (c : γ) : Pc ω → Prop
  | .woken op => M.waitsOn op = some c
  | .inside op => M.waitsOn op = some c
  | _ => False

/-- The thread wants the mutex. -/
def Wants : Pc ω → Prop
  | .entering _ => True
  | .woken _ => True
  | _ => False

/-- The thread waits. -/
def Waits : Pc ω → Prop
  | .waiting _ => True
  | _ => False

section
variable [DecidableEq γ]

instance (c : γ) : (pc : Pc ω) → Decidable (M.WaitsFor c pc)
  | .waiting _ => inferInstanceAs (Decidable (_ = _))
  | .idle | .entering _ | .inside _ | .woken _ => isFalse fun h ↦ h

instance (c : γ) : (pc : Pc ω) → Decidable (M.Awake c pc)
  | .woken _ => inferInstanceAs (Decidable (_ = _))
  | .inside _ => inferInstanceAs (Decidable (_ = _))
  | .idle | .entering _ | .waiting _ => isFalse fun h ↦ h

end

instance : (pc : Pc ω) → Decidable (Wants pc)
  | .entering _ | .woken _ => isTrue trivial
  | .idle | .inside _ | .waiting _ => isFalse fun h ↦ h

instance : (pc : Pc ω) → Decidable (Waits pc)
  | .waiting _ => isTrue trivial
  | .idle | .entering _ | .inside _ | .woken _ => isFalse fun h ↦ h

/-- A waiting thread after a notification that chose it. -/
def rouse [DecidableEq γ] (c : Option γ) : Pc ω → Pc ω
  | .waiting op => if c ≠ none ∧ M.waitsOn op = c then .woken op else .waiting op
  | pc => pc

variable [DecidableEq ι] [DecidableEq γ]

/-- The threads after a notification: of those chosen, the ones that wait on the variable are woken. -/
def wake (c : Option γ) (wakes : List ι) (threads : ι → Pc ω) : ι → Pc ω :=
  fun u ↦ if u ∈ wakes then M.rouse c (threads u) else threads u

def exec (s : State ι σ ω) : Call ι ω → Option (Event ω ρ × State ι σ ω)
  | .invoke t op => some (.silent, { s with threads := Function.update s.threads t (.entering op) })
  | .acquire t =>
      match s.threads t with
      | .entering op | .woken op =>
          if s.owner = none then
            some (.silent, ⟨s.shared, some t, Function.update s.threads t (.inside op)⟩)
          else none
      | _ => none
  | .run t wakes =>
      match s.threads t with
      | .inside op =>
          if M.blocks s.shared op then
            some (.blocked, ⟨s.shared, none, Function.update s.threads t (.waiting op)⟩)
          else (M.body s.shared op).map fun out ↦
            (.returned op out.1,
              ⟨out.2, none, Function.update (M.wake (M.notifies op) wakes s.threads) t .idle⟩)
      | _ => none
  | .spurious t =>
      match s.threads t with
      | .waiting op => some (.silent, { s with threads := Function.update s.threads t (.woken op) })
      | _ => none

/-- A notification behind the body of an operation wakes at least one of the threads that wait. -/
def Chosen (threads : ι → Pc ω) (wakes : List ι) : Pc ω → Prop
  | .inside op => ∀ c ∈ M.notifies op,
      (∃ u, M.WaitsFor c (threads u)) → ∃ u ∈ wakes, M.WaitsFor c (threads u)
  | _ => False

/-- What the system promises: the mutex is given to one thread at a time, and a notification wakes a
thread if one waits. -/
def Ok (s : State ι σ ω) : Call ι ω → Prop
  | .invoke t _ => s.threads t = .idle
  | .acquire t => s.owner = none ∧ Wants (s.threads t)
  | .run t wakes => M.Chosen s.threads wakes (s.threads t)
  | .spurious t => Waits (s.threads t)

instance [Fintype ι] (threads : ι → Pc ω) (wakes : List ι) :
    (pc : Pc ω) → Decidable (M.Chosen threads wakes pc)
  | .inside op => inferInstanceAs (Decidable (∀ c ∈ M.notifies op, _ → _))
  | .idle | .entering _ | .waiting _ | .woken _ => isFalse fun h ↦ h

instance [Fintype ι] [DecidableEq ω] (s : State ι σ ω) : (call : Call ι ω) → Decidable (M.Ok s call)
  | .invoke t _ => inferInstanceAs (Decidable (s.threads t = .idle))
  | .acquire t => inferInstanceAs (Decidable (s.owner = none ∧ Wants (s.threads t)))
  | .run t wakes => inferInstanceAs (Decidable (M.Chosen s.threads wakes (s.threads t)))
  | .spurious t => inferInstanceAs (Decidable (Waits (s.threads t)))

/-- The threads of a program on one object. -/
def machine (ι : Type) [DecidableEq ι] (start : σ → Prop) :
    Machine (State ι σ ω) (Call ι ω) (Event ω ρ) where
  init s := start s.shared ∧ s.owner = none ∧ ∀ t, s.threads t = .idle
  ok := M.Ok
  exec := M.exec

/-- The object without threads: an operation is called when it would not wait. -/
def sequential (start : σ → Prop) : Machine σ ω ρ where
  init := start
  ok s op := M.blocks s op = false
  exec := M.body

/-- The operations of a run that have returned, in the order of their bodies. -/
def history (log : List (Call ι ω × Event ω ρ)) : List (ω × ρ) :=
  log.filterMap fun entry ↦ match entry.2 with
    | .returned op result => some (op, result)
    | _ => none

/-! ## Steps -/

/-- The calls that succeed. -/
inductive Step (s : State ι σ ω) : Call ι ω → Event ω ρ → State ι σ ω → Prop where
  | invoke (t : ι) (op : ω) : s.threads t = .idle →
      Step s (.invoke t op) .silent { s with threads := Function.update s.threads t (.entering op) }
  | acquire (t : ι) (op : ω) : s.owner = none →
      s.threads t = .entering op ∨ s.threads t = .woken op →
      Step s (.acquire t) .silent
        ⟨s.shared, some t, Function.update s.threads t (.inside op)⟩
  | block (t : ι) (op : ω) (wakes : List ι) : s.threads t = .inside op →
      M.blocks s.shared op = true →
      Step s (.run t wakes) .blocked ⟨s.shared, none, Function.update s.threads t (.waiting op)⟩
  | finish (t : ι) (op : ω) (wakes : List ι) (result : ρ) (shared : σ) :
      s.threads t = .inside op → M.blocks s.shared op = false →
      M.body s.shared op = some (result, shared) →
      (∀ c, M.notifies op = some c → (∃ u, M.WaitsFor c (s.threads u)) →
        ∃ u ∈ wakes, M.WaitsFor c (s.threads u)) →
      Step s (.run t wakes) (.returned op result)
        ⟨shared, none, Function.update (M.wake (M.notifies op) wakes s.threads) t .idle⟩
  | spurious (t : ι) (op : ω) : s.threads t = .waiting op →
      Step s (.spurious t) .silent { s with threads := Function.update s.threads t (.woken op) }

variable {M} {s s' : State ι σ ω} {start : σ → Prop} {log : List (Call ι ω × Event ω ρ)}

theorem step_spec {call : Call ι ω} {event : Event ω ρ} (hok : M.Ok s call)
    (hexec : M.exec s call = some (event, s')) : M.Step s call event s' := by
  cases call with
  | invoke t op =>
      obtain ⟨rfl, rfl⟩ := Prod.mk.inj (Option.some.inj hexec)
      exact .invoke t op hok
  | acquire t =>
      obtain ⟨howner, hwants⟩ := hok
      rw [exec] at hexec
      cases hpc : s.threads t with
      | entering op =>
          rw [hpc] at hexec
          dsimp only at hexec
          rw [if_pos howner] at hexec
          obtain ⟨rfl, rfl⟩ := Prod.mk.inj (Option.some.inj hexec)
          exact .acquire t op howner (.inl hpc)
      | woken op =>
          rw [hpc] at hexec
          dsimp only at hexec
          rw [if_pos howner] at hexec
          obtain ⟨rfl, rfl⟩ := Prod.mk.inj (Option.some.inj hexec)
          exact .acquire t op howner (.inr hpc)
      | _ =>
          rw [hpc] at hexec
          cases hexec
  | run t wakes =>
      rw [Ok] at hok
      rw [exec] at hexec
      cases hpc : s.threads t with
      | inside op =>
          rw [hpc] at hexec hok
          dsimp only at hexec hok
          split at hexec
          · next hblocks =>
              obtain ⟨rfl, rfl⟩ := Prod.mk.inj (Option.some.inj hexec)
              exact .block t op wakes hpc hblocks
          · next hblocks =>
              obtain ⟨⟨result, shared⟩, hbody, heq⟩ := Option.map_eq_some_iff.mp hexec
              obtain ⟨rfl, rfl⟩ := Prod.mk.inj heq
              exact .finish t op wakes result shared hpc (Bool.eq_false_iff.mpr hblocks) hbody hok
      | _ =>
          rw [hpc] at hexec
          cases hexec
  | spurious t =>
      rw [exec] at hexec
      cases hpc : s.threads t with
      | waiting op =>
          rw [hpc] at hexec
          obtain ⟨rfl, rfl⟩ := Prod.mk.inj (Option.some.inj hexec)
          exact .spurious t op hpc
      | _ =>
          rw [hpc] at hexec
          cases hexec

/-! ## The sequential object -/

omit [DecidableEq ι] [DecidableEq γ] in
theorem history_append (log : List (Call ι ω × Event ω ρ)) (call : Call ι ω) (event : Event ω ρ) :
    history (log ++ [(call, event)]) = history log ++ history [(call, event)] :=
  List.filterMap_append

/-- The operations that have returned are a run of the object without threads. -/
theorem Trace.sequential (htrace : Machine.Trace (M.machine ι start) s log) :
    Machine.Trace (M.sequential start) s.shared (history log) := by
  induction htrace with
  | init hinit => exact .init hinit.1
  | call _ hok hexec ih =>
      rw [history_append]
      cases step_spec hok hexec with
      | finish t op wakes result shared _ hblocks hbody _ => exact ih.call hblocks hbody
      | _ => simpa [history] using ih

/-- No call faults if none does without threads. -/
theorem Trace.exec_isSome (htrace : Machine.Trace (M.machine ι start) s log)
    (htotal : ∀ shared log, Machine.Trace (M.sequential start) shared log →
      ∀ op, M.blocks shared op = false → (M.body shared op).isSome)
    {call : Call ι ω} (hok : M.Ok s call) : (M.exec s call).isSome := by
  cases call with
  | invoke t op => rfl
  | acquire t =>
      obtain ⟨howner, hwants⟩ := hok
      rw [exec]
      cases hpc : s.threads t with
      | entering op => simp [howner]
      | woken op => simp [howner]
      | _ =>
          rw [hpc] at hwants
          exact absurd hwants id
  | run t wakes =>
      rw [Ok] at hok
      rw [exec]
      cases hpc : s.threads t with
      | inside op =>
          dsimp only
          split
          · rfl
          · next hblocks =>
              rw [Option.isSome_map]
              exact htotal _ _ (Trace.sequential htrace) op (Bool.eq_false_iff.mpr hblocks)
      | _ =>
          rw [hpc] at hok
          exact absurd hok id
  | spurious t =>
      rw [Ok] at hok
      rw [exec]
      cases hpc : s.threads t with
      | waiting op => rfl
      | _ =>
          rw [hpc] at hok
          exact absurd hok id

/-! ## The mutex -/

@[simp]
theorem rouse_inside (c : Option γ) (pc : Pc ω) (op : ω) :
    M.rouse c pc = .inside op ↔ pc = .inside op := by
  cases pc with
  | waiting op' =>
      rw [rouse]
      split <;> simp
  | _ => rfl

theorem wake_inside (c : Option γ) (wakes : List ι) (threads : ι → Pc ω) (u : ι) (op : ω) :
    M.wake c wakes threads u = .inside op ↔ threads u = .inside op := by
  rw [wake]
  split
  · exact rouse_inside c _ op
  · rfl

/-- The owner of the mutex is the only thread inside. -/
theorem Trace.inside_iff (htrace : Machine.Trace (M.machine ι start) s log) (t : ι) :
    (∃ op, s.threads t = .inside op) ↔ s.owner = some t := by
  induction htrace generalizing t with
  | init hinit =>
      obtain ⟨-, howner, hidle⟩ := hinit
      rw [howner, hidle t]
      simp
  | @call s s' log call event _ hok hexec ih =>
      have hmove : ∀ (pc : Pc ω) (t u : ι), (∀ op, pc ≠ .inside op) →
          (∀ op, s.threads t ≠ .inside op) →
          ((∃ op, Function.update s.threads t pc u = .inside op) ↔ s.owner = some u) := by
        intro pc t u hpc ht
        by_cases hu : u = t
        · subst hu
          rw [Function.update_self]
          refine iff_of_false (fun ⟨op, hop⟩ ↦ hpc op hop) fun howner ↦ ?_
          obtain ⟨op, hop⟩ := (ih u).mpr howner
          exact ht op hop
        · rw [Function.update_of_ne hu]
          exact ih u
      have hleave : ∀ (pc : Pc ω) (threads : ι → Pc ω) (t : ι) (op : ω), (∀ op, pc ≠ .inside op) →
          s.threads t = .inside op →
          (∀ u op, threads u = .inside op ↔ s.threads u = .inside op) → ∀ u,
          ((∃ op, Function.update threads t pc u = .inside op) ↔ (none : Option ι) = some u) := by
        intro pc threads t op hpc ht hsame u
        refine iff_of_false ?_ (by simp)
        rintro ⟨op', hop'⟩
        by_cases hu : u = t
        · rw [hu, Function.update_self] at hop'
          exact hpc op' hop'
        · rw [Function.update_of_ne hu, hsame] at hop'
          have hself := (ih t).mp ⟨op, ht⟩
          rw [(ih u).mp ⟨op', hop'⟩] at hself
          exact hu (Option.some.inj hself)
      cases step_spec hok hexec with
      | invoke u op hidle => exact hmove _ u t (by simp) (by simp [hidle])
      | acquire u op howner hpc =>
          by_cases ht : t = u
          · rw [ht]
            simp
          · have hother : ¬ ∃ op, s.threads t = .inside op := by
              rw [ih t, howner]
              simp
            simp only [Function.update_of_ne ht]
            exact iff_of_false hother fun heq ↦ ht (Option.some.inj heq).symm
      | block u op wakes hpc _ => exact hleave _ _ u op (by simp) hpc (fun _ _ ↦ Iff.rfl) t
      | finish u op wakes result shared hpc _ _ _ =>
          exact hleave _ _ u op (by simp) hpc (wake_inside _ _ _) t
      | spurious u op hpc => exact hmove _ u t (by simp) (by simp [hpc])

/-! ## Wake-ups -/

omit [DecidableEq γ] in
theorem waitsFor_of_update {c : γ} {threads : ι → Pc ω} {t : ι} {pc : Pc ω} (hpc : ¬ M.WaitsFor c pc)
    (hwaits : ∃ u, M.WaitsFor c (Function.update threads t pc u)) :
    ∃ u, M.WaitsFor c (threads u) := by
  obtain ⟨u, hu⟩ := hwaits
  by_cases ht : u = t
  · rw [ht, Function.update_self] at hu
    exact absurd hu hpc
  · rw [Function.update_of_ne ht] at hu
    exact ⟨u, hu⟩

omit [DecidableEq ι] in
theorem rouse_eq_of_awake {c : γ} {notified : Option γ} {pc : Pc ω} (hawake : M.Awake c pc) :
    M.rouse notified pc = pc := by
  cases pc with
  | waiting op => exact absurd hawake id
  | _ => rfl

theorem awake_wake {c : γ} {notified : Option γ} {wakes : List ι} {threads : ι → Pc ω} {u : ι}
    (hawake : M.Awake c (threads u)) : M.Awake c (M.wake notified wakes threads u) := by
  rw [wake]
  split
  · rwa [rouse_eq_of_awake hawake]
  · exact hawake

/-- A thread that is chosen is awake. -/
theorem awake_of_chosen {c : γ} {wakes : List ι} {threads : ι → Pc ω} {u : ι} (hu : u ∈ wakes)
    (hwaits : M.WaitsFor c (threads u)) : M.Awake c (M.wake (some c) wakes threads u) := by
  rw [wake, if_pos hu]
  cases hpc : threads u with
  | waiting op =>
      rw [hpc] at hwaits
      rw [rouse, if_pos ⟨by simp, hwaits⟩]
      exact hwaits
  | _ =>
      rw [hpc] at hwaits
      exact absurd hwaits id

theorem waitsFor_of_wake {c : γ} {notified : Option γ} {wakes : List ι} {threads : ι → Pc ω}
    (hwaits : ∃ u, M.WaitsFor c (M.wake notified wakes threads u)) :
    ∃ u, M.WaitsFor c (threads u) := by
  obtain ⟨u, hu⟩ := hwaits
  refine ⟨u, ?_⟩
  rw [wake] at hu
  cases hpc : threads u with
  | waiting op =>
      rw [hpc, rouse] at hu
      split at hu
      · split at hu
        · exact absurd hu id
        · exact hu
      · exact hu
  | _ =>
      rw [hpc] at hu
      simp only [rouse, ite_self] at hu
      exact hu

section Metered
variable [Fintype ι]

/-- The number of threads that will test a loop condition on the variable. -/
def awakeCount (M : Monitor σ ω ρ γ) (c : γ) (threads : ι → Pc ω) : ℕ :=
  (Finset.univ.filter fun u ↦ M.Awake c (threads u)).card

theorem awakeCount_update (c : γ) (threads : ι → Pc ω) (t : ι) (pc : Pc ω) :
    M.awakeCount c (Function.update threads t pc) + (if M.Awake c (threads t) then 1 else 0) =
      M.awakeCount c threads + if M.Awake c pc then 1 else 0 := by
  exact count_update (M.Awake c) threads t pc

theorem awakeCount_wake (c : γ) (notified : Option γ) (wakes : List ι) (threads : ι → Pc ω) :
    M.awakeCount c threads ≤ M.awakeCount c (M.wake notified wakes threads) := by
  apply Finset.card_le_card
  intro u hu
  rw [Finset.mem_filter] at hu ⊢
  exact ⟨hu.1, awake_wake hu.2⟩

theorem awakeCount_chosen {c : γ} {wakes : List ι} {threads : ι → Pc ω} {u : ι} (hu : u ∈ wakes)
    (hwaits : M.WaitsFor c (threads u)) :
    M.awakeCount c threads + 1 ≤ M.awakeCount c (M.wake (some c) wakes threads) := by
  apply Finset.card_lt_card
  rw [Finset.ssubset_iff_of_subset]
  · refine ⟨u, ?_, ?_⟩
    · rw [Finset.mem_filter]
      exact ⟨Finset.mem_univ u, awake_of_chosen hu hwaits⟩
    · rw [Finset.mem_filter]
      rintro ⟨-, hawake⟩
      cases hpc : threads u with
      | waiting op =>
          rw [hpc] at hawake
          exact hawake
      | _ =>
          rw [hpc] at hwaits
          exact hwaits
  · intro v hv
    rw [Finset.mem_filter] at hv ⊢
    exact ⟨hv.1, awake_wake hv.2⟩

/-- `room` counts the operations on the variable that could go on: none can when it is zero, and one
that does, or is made possible, changes it by one. -/
structure Metered (M : Monitor σ ω ρ γ) (start : σ → Prop) (c : γ) (room : σ → ℕ) : Prop where
  blocks_iff {shared : σ} {log : List (ω × ρ)} {op : ω} :
    Machine.Trace (M.sequential start) shared log → M.waitsOn op = some c →
      (M.blocks shared op = true ↔ room shared = 0)
  body_room {shared shared' : σ} {log : List (ω × ρ)} {op : ω} {result : ρ} :
    Machine.Trace (M.sequential start) shared log → M.blocks shared op = false →
      M.body shared op = some (result, shared') →
      room shared' + (if M.waitsOn op = some c then 1 else 0) ≤
        room shared + if M.notifies op = some c then 1 else 0

/-- While a thread waits, every operation that could go on has a thread awake for it. -/
def Guarded (M : Monitor σ ω ρ γ) (c : γ) (room : σ → ℕ) (s : State ι σ ω) : Prop :=
  (∃ u, M.WaitsFor c (s.threads u)) → room s.shared ≤ M.awakeCount c s.threads

variable {c : γ} {room : σ → ℕ}

theorem Metered.step (hmeter : M.Metered start c room)
    (htrace : Machine.Trace (M.machine ι start) s log) {call : Call ι ω} {event : Event ω ρ}
    (hstep : M.Step s call event s') (hguard : M.Guarded c room s) : M.Guarded c room s' := by
  intro hwaits
  cases hstep with
  | invoke t op hidle =>
      have hcount := M.awakeCount_update c s.threads t (.entering op)
      rw [hidle] at hcount
      exact (hguard (waitsFor_of_update id hwaits)).trans (le_of_eq hcount.symm)
  | acquire t op howner hpc =>
      have hcount := M.awakeCount_update c s.threads t (.inside op)
      have hle := hguard (waitsFor_of_update id hwaits)
      have hawake : M.Awake c (s.threads t) → M.Awake c (.inside op) := by
        intro h
        cases hpc with
        | inl hpc =>
            rw [hpc] at h
            exact absurd h id
        | inr hpc =>
            rw [hpc] at h
            exact h
      by_cases hin : M.Awake c (.inside op)
      · rw [if_pos hin] at hcount
        dsimp only
        split at hcount <;> omega
      · rw [if_neg hin, if_neg fun h ↦ hin (hawake h)] at hcount
        exact hle.trans (le_of_eq hcount.symm)
  | block t op wakes hpc hblocks =>
      by_cases hc : M.waitsOn op = some c
      · have hroom := (hmeter.blocks_iff (Trace.sequential htrace) hc).mp hblocks
        exact (le_of_eq hroom).trans (Nat.zero_le _)
      · have hcount := M.awakeCount_update c s.threads t (.waiting op)
        rw [hpc, if_neg (show ¬ M.Awake c (.inside op) from hc),
          if_neg (show ¬ M.Awake c (.waiting op) from id)] at hcount
        have hbefore := waitsFor_of_update (show ¬ M.WaitsFor c (.waiting op) from hc) hwaits
        exact (hguard hbefore).trans (le_of_eq hcount.symm)
  | finish t op wakes result shared hpc hblocks hbody hchosen =>
      have hbefore := waitsFor_of_wake (waitsFor_of_update id hwaits)
      have hroom := hmeter.body_room (Trace.sequential htrace) hblocks hbody
      have hle := hguard hbefore
      have hcount := M.awakeCount_update c (M.wake (M.notifies op) wakes s.threads) t .idle
      rw [(M.wake_inside (M.notifies op) wakes s.threads t op).mpr hpc,
        if_neg (show ¬ M.Awake c .idle from id)] at hcount
      have hinside : M.Awake c (.inside op) ↔ M.waitsOn op = some c := Iff.rfl
      simp only [hinside] at hcount
      by_cases hnotify : M.notifies op = some c
      · obtain ⟨u, hu, huwaits⟩ := hchosen c hnotify hbefore
        have hmore := M.awakeCount_chosen hu huwaits
        rw [hnotify] at hcount hroom ⊢
        rw [if_pos rfl] at hroom
        dsimp only
        omega
      · have hmore := M.awakeCount_wake c (M.notifies op) wakes s.threads
        rw [if_neg hnotify] at hroom
        dsimp only
        omega
  | spurious t op hpc =>
      have hcount := M.awakeCount_update c s.threads t (.woken op)
      rw [hpc, if_neg (show ¬ M.Awake c (.waiting op) from id)] at hcount
      have hle := hguard (waitsFor_of_update id hwaits)
      dsimp only
      omega

theorem Trace.metered (hmeter : M.Metered start c room)
    (htrace : Machine.Trace (M.machine ι start) s log) : M.Guarded c room s := by
  induction htrace with
  | init hinit =>
      rintro ⟨u, hu⟩
      rw [hinit.2.2 u] at hu
      exact absurd hu id
  | call htrace hok hexec ih => exact hmeter.step htrace (step_spec hok hexec) ih

/-- No wake-up is lost: a thread that waits although it could go on is not the last one awake. -/
theorem Trace.awake (hmeter : M.Metered start c room)
    (htrace : Machine.Trace (M.machine ι start) s log) {t : ι} {op : ω}
    (hpc : s.threads t = .waiting op) (hc : M.waitsOn op = some c)
    (hready : M.blocks s.shared op = false) : ∃ u, M.Awake c (s.threads u) := by
  have hroom : room s.shared ≠ 0 := by
    intro hzero
    rw [(hmeter.blocks_iff (Trace.sequential htrace) hc).mpr hzero] at hready
    exact absurd hready (by simp)
  have hle := Trace.metered hmeter htrace ⟨t, by rw [hpc]; exact hc⟩
  have hpos : 0 < M.awakeCount c s.threads := lt_of_lt_of_le (Nat.pos_of_ne_zero hroom) hle
  obtain ⟨u, hu⟩ := Finset.card_pos.mp hpos
  exact ⟨u, (Finset.mem_filter.mp hu).2⟩

/-! ## Threads left alone -/

omit [Fintype ι] in
/-- A thread waits on some variable. -/
theorem Trace.waitsOn_isSome (hwait : ∀ shared op, M.blocks shared op = true → (M.waitsOn op).isSome)
    (htrace : Machine.Trace (M.machine ι start) s log) {t : ι} {op : ω}
    (hpc : s.threads t = .waiting op) : (M.waitsOn op).isSome := by
  induction htrace generalizing t op with
  | init hinit =>
      rw [hinit.2.2 t] at hpc
      cases hpc
  | @call s s' log call event _ hok hexec ih =>
      have hupdate : ∀ {threads : ι → Pc ω} {u : ι} {pc : Pc ω}, (∀ op, pc ≠ .waiting op) →
          (∀ {t op}, threads t = .waiting op → (M.waitsOn op).isSome) →
          Function.update threads u pc t = .waiting op → (M.waitsOn op).isSome := by
        intro threads u pc hne hall hupdate
        by_cases ht : t = u
        · rw [ht, Function.update_self] at hupdate
          exact absurd hupdate (hne op)
        · rw [Function.update_of_ne ht] at hupdate
          exact hall hupdate
      cases step_spec hok hexec with
      | block u op' wakes _ hblocks =>
          dsimp only at hpc
          by_cases ht : t = u
          · rw [ht, Function.update_self] at hpc
            cases hpc
            exact hwait _ _ hblocks
          · rw [Function.update_of_ne ht] at hpc
            exact ih hpc
      | finish u op' wakes result shared _ _ _ _ =>
          refine hupdate (by simp) ?_ hpc
          intro v op hwake
          rw [wake] at hwake
          cases hv : s.threads v with
          | waiting op' =>
              rw [hv, rouse] at hwake
              have hsame : op' = op := by
                split at hwake
                · split at hwake <;> cases hwake
                  rfl
                · cases hwake
                  rfl
              exact ih (hsame ▸ hv)
          | _ =>
              rw [hv] at hwake
              simp only [rouse, ite_self] at hwake
              cases hwake
      | _ => exact hupdate (by simp) ih hpc

/-- No thread can go on by itself. -/
def Stuck (M : Monitor σ ω ρ γ) (s : State ι σ ω) : Prop :=
  (∀ t, ¬ M.Ok s (.acquire t)) ∧ ∀ t wakes, ¬ M.Ok s (.run t wakes)

omit [DecidableEq ι] [DecidableEq γ] in
theorem Stuck.not_inside (hstuck : M.Stuck s) (t : ι) (op : ω) : s.threads t ≠ .inside op := by
  intro hpc
  apply hstuck.2 t Finset.univ.toList
  rw [Ok, hpc]
  rintro c - ⟨u, hu⟩
  exact ⟨u, by simp, hu⟩

theorem Stuck.not_wants (hstuck : M.Stuck s)
    (htrace : Machine.Trace (M.machine ι start) s log) (t : ι) : ¬ Wants (s.threads t) := by
  intro hwants
  refine hstuck.1 t ⟨?_, hwants⟩
  cases howner : s.owner with
  | none => rfl
  | some u =>
      obtain ⟨op, hop⟩ := (Trace.inside_iff htrace u).mpr howner
      exact absurd hop (hstuck.not_inside u op)

/-- Where no thread can go on, each is outside or waits with its loop condition true. -/
theorem Trace.stuck (hwait : ∀ shared op, M.blocks shared op = true → (M.waitsOn op).isSome)
    (hmeter : ∀ c, ∃ room, M.Metered start c room)
    (htrace : Machine.Trace (M.machine ι start) s log) (hstuck : M.Stuck s) (t : ι) :
    s.threads t = .idle ∨ ∃ op, s.threads t = .waiting op ∧ M.blocks s.shared op = true := by
  have hwants := hstuck.not_wants htrace
  have hinside := hstuck.not_inside
  cases hpc : s.threads t with
  | idle => exact .inl rfl
  | entering op => exact absurd (by rw [hpc]; trivial) (hwants t)
  | woken op => exact absurd (by rw [hpc]; trivial) (hwants t)
  | inside op => exact absurd hpc (hinside t op)
  | waiting op =>
      refine .inr ⟨op, rfl, ?_⟩
      by_contra hready
      obtain ⟨c, hc⟩ := Option.isSome_iff_exists.mp (Trace.waitsOn_isSome hwait htrace hpc)
      obtain ⟨room, hroom⟩ := hmeter c
      obtain ⟨u, hu⟩ := Trace.awake hroom htrace hpc hc (Bool.eq_false_iff.mpr hready)
      cases hupc : s.threads u with
      | inside op' => exact hinside u op' hupc
      | woken op' => exact hwants u (by rw [hupc]; trivial)
      | _ =>
          rw [hupc] at hu
          exact hu

/-- The steps that a thread and those it wakes can still cost. -/
def potential (threads : ℕ) : Pc ω → ℕ
  | .idle => 0
  | .waiting _ => 2 * threads + 1
  | .inside _ => 2 * threads + 2
  | .entering _ | .woken _ => 2 * threads + 3

def work (s : State ι σ ω) : ℕ := ∑ u, potential (Fintype.card ι) (s.threads u)

omit [DecidableEq ι] in
theorem work_le (s : State ι σ ω) : work s ≤ Fintype.card ι * (2 * Fintype.card ι + 3) := by
  calc work s ≤ ∑ _u : ι, (2 * Fintype.card ι + 3) := by
        apply Finset.sum_le_sum
        intro u _
        cases s.threads u <;> simp only [potential] <;> omega
    _ = Fintype.card ι * (2 * Fintype.card ι + 3) := by
        rw [Finset.sum_const_nat (fun _ _ ↦ rfl), Finset.card_univ]

/-- A call that a thread makes by itself once it is in an operation. -/
def Call.Own : Call ι ω → Prop
  | .acquire _ | .run _ _ => True
  | .invoke _ _ | .spurious _ => False

omit [DecidableEq ι] [Fintype ι] in
theorem potential_rouse (threads : ℕ) (c : Option γ) (pc : Pc ω) :
    potential threads (M.rouse c pc) ≤ potential threads pc + 2 := by
  cases pc with
  | waiting op =>
      rw [rouse]
      split
      · exact le_refl _
      · omega
  | _ => exact Nat.le_add_right _ _

theorem Step.work_lt {call : Call ι ω} {event : Event ω ρ} (hstep : M.Step s call event s')
    (hown : call.Own) : work s' < work s := by
  cases hstep with
  | invoke t op _ => exact absurd hown id
  | spurious t op _ => exact absurd hown id
  | acquire t op _ hpc =>
      have hsum := sum_update (potential (Fintype.card ι)) s.threads t (.inside op)
      have hpot : potential (Fintype.card ι) (s.threads t) = 2 * Fintype.card ι + 3 := by
        cases hpc with
        | inl hpc => rw [hpc, potential]
        | inr hpc => rw [hpc, potential]
      rw [hpot, potential] at hsum
      dsimp only [work]
      omega
  | block t op wakes hpc _ =>
      have hsum := sum_update (potential (Fintype.card ι)) s.threads t (.waiting op)
      rw [hpc, potential, potential] at hsum
      dsimp only [work]
      omega
  | finish t op wakes result shared hpc _ _ _ =>
      have hsum := sum_update (potential (Fintype.card ι)) (M.wake (M.notifies op) wakes s.threads) t
        .idle
      have hwoken : ∑ u, potential (Fintype.card ι) (M.wake (M.notifies op) wakes s.threads u) ≤
          ∑ u, potential (Fintype.card ι) (s.threads u) + 2 * Fintype.card ι := by
        calc ∑ u, potential (Fintype.card ι) (M.wake (M.notifies op) wakes s.threads u)
            ≤ ∑ u, (potential (Fintype.card ι) (s.threads u) + 2) := by
              apply Finset.sum_le_sum
              intro u _
              rw [wake]
              split
              · exact potential_rouse _ _ _
              · exact Nat.le_add_right _ _
          _ = ∑ u, potential (Fintype.card ι) (s.threads u) + 2 * Fintype.card ι := by
              rw [Finset.sum_add_distrib, Finset.sum_const_nat (m := 2) (fun _ _ ↦ rfl), Finset.card_univ,
                mul_comm]
      rw [(M.wake_inside (M.notifies op) wakes s.threads t op).mpr hpc, potential, potential] at hsum
      dsimp only [work]
      omega

/-- Threads that are left alone stop. -/
theorem settles {calls : List (Call ι ω)} (hown : ∀ call ∈ calls, call.Own)
    (hok : (M.machine ι start).AllOk s calls) {out : List (Call ι ω × Event ω ρ) × State ι σ ω}
    (hexec : (M.machine ι start).execAll s calls = some out) :
    calls.length + work out.2 ≤ work s := by
  induction calls generalizing s out with
  | nil =>
      cases Option.some.inj hexec
      exact le_of_eq (Nat.zero_add _)
  | cons call calls ih =>
      obtain ⟨⟨event, s₁⟩, hstep, hrest⟩ := Option.bind_eq_some_iff.mp hexec
      obtain ⟨rest, htail, rfl⟩ := Option.map_eq_some_iff.mp hrest
      have hlt := (step_spec hok.1 hstep).work_lt (hown call (List.mem_cons_self ..))
      have hle := ih (fun c hc ↦ hown c (List.mem_cons_of_mem _ hc)) (hok.2 _ hstep) htail
      rw [List.length_cons]
      dsimp only at hle ⊢
      omega

end Metered

end Monitor

end CPractice.Lib
