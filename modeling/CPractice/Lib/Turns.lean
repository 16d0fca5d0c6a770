import Mathlib.Data.List.Basic

/-!
# Computations with a bounded number of turns

A loop that need not end is modelled with a bound on its turns: `none` when the bound is used up (or
when the computation fails).  `Settles run enough out` says that the bounded computation returns
`out` for every bound from `enough` on and does not return below it, so that the bound plays no part
in the result.  The rules compose it over binds and over folds.
-/

namespace CPractice.Lib

variable {σ τ : Type} {α : Type*}

/-- From `enough` turns on the computation returns `out`; with fewer it does not return. -/
def Settles (run : ℕ → Option σ) (enough : ℕ) (out : σ) : Prop :=
  ∀ turns, run turns = if enough ≤ turns then some out else none

namespace Settles

theorem eq_of_some {run : ℕ → Option σ} {enough turns : ℕ} {out out' : σ}
    (h : Settles run enough out) (hrun : run turns = some out') : out' = out := by
  rw [h turns] at hrun
  split at hrun
  · exact (Option.some.inj hrun).symm
  · cases hrun

theorem const (out : σ) : Settles (fun _ ↦ some out) 0 out := by
  intro turns
  rw [if_pos (Nat.zero_le turns)]

theorem bind {run : ℕ → Option σ} {next : ℕ → σ → Option τ} {m n : ℕ} {mid : σ} {out : τ}
    (hrun : Settles run m mid) (hnext : Settles (fun turns ↦ next turns mid) n out) :
    Settles (fun turns ↦ run turns >>= next turns) (max m n) out := by
  intro turns
  have hmid := hnext turns
  simp only at hmid ⊢
  rw [hrun turns]
  by_cases hm : m ≤ turns
  · rw [if_pos hm, Option.bind_eq_bind, Option.bind_some, hmid]
    by_cases hn : n ≤ turns
    · rw [if_pos hn, if_pos (Nat.max_le.mpr ⟨hm, hn⟩)]
    · rw [if_neg hn, if_neg fun h ↦ hn (Nat.le_trans (Nat.le_max_right _ _) h)]
  · rw [if_neg hm, if_neg fun h ↦ hm (Nat.le_trans (Nat.le_max_left _ _) h)]
    rfl

/-- A fold whose every step settles and keeps a relation to the elements taken so far. -/
theorem foldlM {step : ℕ → σ → α → Option σ} (Rel : List α → σ → Prop) (xs : List α)
    (hstep : ∀ x ∈ xs, ∀ taken s, Rel taken s →
      ∃ enough s', Settles (fun turns ↦ step turns s x) enough s' ∧ Rel (taken ++ [x]) s')
    (taken : List α) (s : σ) (hs : Rel taken s) :
    ∃ enough s', Settles (fun turns ↦ xs.foldlM (step turns) s) enough s' ∧
      Rel (taken ++ xs) s' := by
  induction xs generalizing taken s with
  | nil => exact ⟨0, s, const s, by rwa [List.append_nil]⟩
  | cons x xs ih =>
      rcases hstep x List.mem_cons_self taken s hs with ⟨m, mid, hmid, hrel⟩
      rcases ih (fun y hy ↦ hstep y (List.mem_cons_of_mem x hy)) (taken ++ [x]) mid hrel with
        ⟨n, out, hout, hlast⟩
      refine ⟨max m n, out, Settles.bind hmid hout, ?_⟩
      rwa [List.append_assoc, List.singleton_append] at hlast

end Settles

/-- A fold that succeeds took every one of its steps from some state. -/
theorem step_of_foldlM_eq_some {step : σ → α → Option σ} (xs : List α) {s out : σ}
    (h : xs.foldlM step s = some out) {x : α} (hx : x ∈ xs) : ∃ t t', step t x = some t' := by
  induction xs generalizing s with
  | nil => cases hx
  | cons y xs ih =>
      rw [List.foldlM_cons, Option.bind_eq_bind, Option.bind_eq_some_iff] at h
      rcases h with ⟨mid, hmid, hrest⟩
      rcases List.mem_cons.mp hx with rfl | hmem
      · exact ⟨s, mid, hmid⟩
      · exact ih hrest hmem

end CPractice.Lib
