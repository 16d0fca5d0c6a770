import Mathlib.Data.List.Basic

/-!
# Machines, their traces, and refinement of an abstract object

A `Machine` is a component driven by calls.  A call returns a result and a new state, or faults
(`none`: a read through a null or dangling pointer, an access out of bounds, a loop that does not
end).  `ok` collects what the environment promises about a call in a given state: the address an
allocator hands out is fresh, a pointer passed back is still live.

`Trace` lists the states reached together with the log of calls and results.  The abstract state
after a run is a function of that log (`replay`), so a refinement statement needs no ghost state:
`Trace.refines` says that a relation which holds at the start and is kept by every call holds of
every reachable state and the replay of its log, and that no call faults.
-/

namespace CPractice.Lib

/-- A component driven by calls in `ι` with results in `ρ`. -/
structure Machine (σ ι ρ : Type*) where
  init : σ → Prop
  ok : σ → ι → Prop
  exec : σ → ι → Option (ρ × σ)

namespace Machine

variable {σ ι ρ τ : Type*}

/-- States reached from an initial state, with the log of the calls made and their results. -/
inductive Trace (M : Machine σ ι ρ) : σ → List (ι × ρ) → Prop where
  | init {s : σ} : M.init s → Trace M s []
  | call {s s' : σ} {log : List (ι × ρ)} {i : ι} {r : ρ} :
      Trace M s log → M.ok s i → M.exec s i = some (r, s') → Trace M s' (log ++ [(i, r)])

/-- The abstract state after a log, from `start` and one abstract step per call. -/
def replay (step : τ → ι → ρ → τ) (start : τ) (log : List (ι × ρ)) : τ :=
  log.foldl (fun t entry ↦ step t entry.1 entry.2) start

@[simp]
theorem replay_nil (step : τ → ι → ρ → τ) (start : τ) : replay step start [] = start := rfl

@[simp]
theorem replay_append_singleton (step : τ → ι → ρ → τ) (start : τ) (log : List (ι × ρ))
    (entry : ι × ρ) :
    replay step start (log ++ [entry]) = step (replay step start log) entry.1 entry.2 := by
  simp [replay]

/-- Run a list of calls, stopping at the first fault. -/
def execAll (M : Machine σ ι ρ) (s : σ) : List ι → Option (List (ι × ρ) × σ)
  | [] => some ([], s)
  | i :: calls => (M.exec s i).bind fun out ↦
      (M.execAll out.2 calls).map fun rest ↦ ((i, out.1) :: rest.1, rest.2)

theorem execAll_append (M : Machine σ ι ρ) (s : σ) (calls calls' : List ι) :
    M.execAll s (calls ++ calls') = (M.execAll s calls).bind fun out ↦
      (M.execAll out.2 calls').map fun rest ↦ (out.1 ++ rest.1, rest.2) := by
  induction calls generalizing s with
  | nil =>
      rw [List.nil_append, Machine.execAll, Option.bind_some]
      cases M.execAll s calls' <;> rfl
  | cons i calls ih =>
      rw [List.cons_append, Machine.execAll, Machine.execAll]
      cases M.exec s i with
      | none => rfl
      | some out =>
          rw [Option.bind_some, Option.bind_some, ih, Option.map_bind, Option.bind_map]
          cases M.execAll out.2 calls with
          | none => rfl
          | some mid =>
              rw [Option.bind_some, Option.bind_some]
              simp [Function.comp_def]

/-- The calls of a list are admissible, each in the state it is made in. -/
def AllOk (M : Machine σ ι ρ) (s : σ) : List ι → Prop
  | [] => True
  | i :: calls => M.ok s i ∧ ∀ out ∈ M.exec s i, M.AllOk out.2 calls

instance decidableAllOk (M : Machine σ ι ρ) [∀ s i, Decidable (M.ok s i)] (s : σ) :
    (calls : List ι) → Decidable (M.AllOk s calls)
  | [] => isTrue trivial
  | i :: calls =>
      have (out : ρ × σ) : Decidable (M.AllOk out.2 calls) := decidableAllOk M out.2 calls
      inferInstanceAs (Decidable (M.ok s i ∧ ∀ out ∈ M.exec s i, M.AllOk out.2 calls))

theorem Trace.execAll {M : Machine σ ι ρ} {s : σ} {log : List (ι × ρ)} (htrace : Trace M s log)
    {calls : List ι} (hok : M.AllOk s calls) {out : List (ι × ρ) × σ}
    (hexec : M.execAll s calls = some out) : Trace M out.2 (log ++ out.1) := by
  obtain ⟨log', s'⟩ := out
  induction calls generalizing s log log' with
  | nil =>
      obtain ⟨rfl, rfl⟩ : log' = [] ∧ s' = s := by
        simpa [Machine.execAll, eq_comm] using hexec
      simpa using htrace
  | cons i calls ih =>
      obtain ⟨⟨r, s₁⟩, hstep, hrest⟩ := Option.bind_eq_some_iff.mp hexec
      obtain ⟨⟨log₁, s₂⟩, htail, hout⟩ := Option.map_eq_some_iff.mp hrest
      obtain ⟨rfl, rfl⟩ : (i, r) :: log₁ = log' ∧ s₂ = s' := by simpa using hout
      have hnext := ih (htrace.call hok.1 hstep) (hok.2 (r, s₁) hstep) log₁ htail
      simpa using hnext

/-- The trace of a run that was computed. -/
theorem trace_execAll {M : Machine σ ι ρ} {s : σ} (hinit : M.init s) {calls : List ι}
    (hok : M.AllOk s calls) {out : List (ι × ρ) × σ} (hexec : M.execAll s calls = some out) :
    Trace M out.2 out.1 := by
  have htrace := (Trace.init hinit).execAll hok hexec
  simpa using htrace

/-- A property kept by every call holds of every reachable state. -/
theorem Trace.invariant {M : Machine σ ι ρ} (Inv : σ → Prop)
    (hinit : ∀ s, M.init s → Inv s)
    (hcall : ∀ s i r s', Inv s → M.ok s i → M.exec s i = some (r, s') → Inv s')
    {s : σ} {log : List (ι × ρ)} (htrace : Trace M s log) : Inv s := by
  induction htrace with
  | init h => exact hinit _ h
  | call _ hok hexec ih => exact hcall _ _ _ _ ih hok hexec

/-- Where a condition decides whether a call faults, it decides whether a run does. -/
theorem execAll_isSome_iff {M N : Machine σ ι ρ} (Inv : σ → Prop) (hexec : N.exec = M.exec)
    (hcall : ∀ s i r s', Inv s → M.ok s i → M.exec s i = some (r, s') → Inv s')
    (hiff : ∀ s i, Inv s → M.ok s i → ((M.exec s i).isSome ↔ N.ok s i)) {s : σ} (hinv : Inv s)
    {calls : List ι} (hok : M.AllOk s calls) : (M.execAll s calls).isSome ↔ N.AllOk s calls := by
  induction calls generalizing s with
  | nil => exact ⟨fun _ ↦ trivial, fun _ ↦ rfl⟩
  | cons i calls ih =>
      have hthis := hiff s i hinv hok.1
      cases hstep : M.exec s i with
      | none =>
          rw [hstep] at hthis
          simp only [Machine.execAll, hstep, Option.bind_none, Option.isSome_none,
            Bool.false_eq_true, false_iff]
          exact fun hall ↦ absurd (hthis.mpr hall.1) (by simp)
      | some out =>
          rw [hstep] at hthis
          have hrest := ih (hcall s i out.1 out.2 hinv hok.1 hstep) (hok.2 out hstep)
          rw [Machine.execAll, hstep, Option.bind_some, Option.isSome_map, hrest]
          constructor
          · intro hall
            refine ⟨hthis.mp rfl, ?_⟩
            intro out' hout'
            rw [hexec, hstep] at hout'
            cases hout'
            exact hall
          · intro hall
            exact hall.2 out (by rw [hexec, hstep]; rfl)

/-- A run of a machine is a run of one that admits more. -/
theorem Trace.mono {M N : Machine σ ι ρ} {s : σ} {log : List (ι × ρ)} (htrace : Trace M s log)
    (hinit : ∀ s, M.init s → N.init s) (hok : ∀ s i, M.ok s i → N.ok s i)
    (hexec : M.exec = N.exec) : Trace N s log := by
  induction htrace with
  | init h => exact .init (hinit _ h)
  | call _ h hcall ih => exact ih.call (hok _ _ h) (hexec ▸ hcall)

/-- The machine with a ghost state, which each call changes as the state before it tells. -/
def withGhost {γ : Type*} (M : Machine σ ι ρ) (ghost : σ → ι → γ → γ) (start : γ) :
    Machine (σ × γ) ι ρ where
  init s := M.init s.1 ∧ s.2 = start
  ok s := M.ok s.1
  exec s i := (M.exec s.1 i).map fun out ↦ (out.1, out.2, ghost s.1 i s.2)

/-- What one call owes the abstract object: it does not fault, its result is allowed, and the
relation holds again after the abstract step. -/
def Simulates (M : Machine σ ι ρ) (step : τ → ι → ρ → τ) (Post : τ → ι → ρ → Prop)
    (R : σ → τ → Prop) : Prop :=
  ∀ s t i, R s t → M.ok s i →
    ∃ r s', M.exec s i = some (r, s') ∧ Post t i r ∧ R s' (step t i r)

/-- The induction over runs: a call-by-call simulation relates every reachable state to the replay
of its log. -/
theorem Trace.related {M : Machine σ ι ρ} {step : τ → ι → ρ → τ} {Post : τ → ι → ρ → Prop}
    {R : σ → τ → Prop} (start : τ) (hinit : ∀ s, M.init s → R s start)
    (hsim : Simulates M step Post R) {s : σ} {log : List (ι × ρ)} (htrace : Trace M s log) :
    R s (replay step start log) := by
  induction htrace with
  | init h => simpa using hinit _ h
  | call _ hok hexec ih =>
      obtain ⟨r, s', hexec', _, hrel⟩ := hsim _ _ _ ih hok
      obtain ⟨rfl, rfl⟩ : r = _ ∧ s' = _ := by simpa [hexec] using hexec'.symm
      simpa using hrel

/-- Refinement: along every run the relation holds, and every further call returns a result that
the abstract object allows. -/
theorem Trace.refines {M : Machine σ ι ρ} {step : τ → ι → ρ → τ} {Post : τ → ι → ρ → Prop}
    {R : σ → τ → Prop} (start : τ) (hinit : ∀ s, M.init s → R s start)
    (hsim : Simulates M step Post R) {s : σ} {log : List (ι × ρ)} (htrace : Trace M s log) :
    R s (replay step start log) ∧
      ∀ i, M.ok s i → ∃ r s', M.exec s i = some (r, s') ∧ Post (replay step start log) i r := by
  have hrel := htrace.related start hinit hsim
  refine ⟨hrel, fun i hok ↦ ?_⟩
  obtain ⟨r, s', hexec, hpost, _⟩ := hsim _ _ _ hrel hok
  exact ⟨r, s', hexec, hpost⟩

end Machine

end CPractice.Lib
