import Mathlib.Logic.Relation
import Mathlib.Data.Set.Finite.Basic
import Mathlib.Order.Preorder.Finite

/-!
# Deterministic steps

A partial function as a machine that stops where the function is undefined.  With finitely many
states to go on from, it stops from a state just if no state it passes is passed again.
-/

namespace CPractice.Lib

open Relation

namespace Steps

variable {σ : Type*} (step : σ → Option σ) {s s' : σ}

/-- The state after a number of steps, if the machine does not stop before. -/
def after (s : σ) : ℕ → Option σ
  | 0 => some s
  | count + 1 => (after s count).bind step

/-- A step as a relation. -/
def Next (s s' : σ) : Prop := step s = some s'

variable {step}

theorem after_add (s : σ) (m n : ℕ) :
    after step s (m + n) = (after step s m).bind fun s' ↦ after step s' n := by
  induction n with
  | zero => simp [after]
  | succ n ih =>
      rw [← Nat.add_assoc, after, ih, Option.bind_assoc]
      rfl

theorem after_none_of_le {m n : ℕ} (hle : m ≤ n) (h : after step s m = none) :
    after step s n = none := by
  obtain ⟨rest, rfl⟩ := Nat.exists_eq_add_of_le hle
  rw [after_add, h, Option.bind_none]

/-- The states passed are the reachable ones. -/
theorem reaches_iff : ReflTransGen (Next step) s s' ↔ ∃ count, after step s count = some s' := by
  constructor
  · intro h
    induction h with
    | refl => exact ⟨0, rfl⟩
    | tail _ hnext ih =>
        obtain ⟨count, hcount⟩ := ih
        refine ⟨count + 1, ?_⟩
        rw [after, hcount]
        exact hnext
  · rintro ⟨count, hcount⟩
    induction count generalizing s' with
    | zero =>
        obtain rfl := Option.some.inj hcount
        exact .refl
    | succ count ih =>
        obtain ⟨mid, hmid, hnext⟩ := Option.bind_eq_some_iff.mp hcount
        exact (ih hmid).tail hnext

theorem transGen_iff : TransGen (Next step) s s' ↔ ∃ count, after step s (count + 1) = some s' := by
  rw [TransGen.tail'_iff]
  constructor
  · rintro ⟨mid, hreach, hnext⟩
    obtain ⟨count, hcount⟩ := reaches_iff.mp hreach
    refine ⟨count, ?_⟩
    rw [after, hcount]
    exact hnext
  · rintro ⟨count, hcount⟩
    obtain ⟨mid, hmid, hnext⟩ := Option.bind_eq_some_iff.mp hcount
    exact ⟨mid, reaches_iff.mpr ⟨count, hmid⟩, hnext⟩

/-- A path of steps of two kinds has steps of the first kind only, or one of the second. -/
theorem transGen_or {α : Type*} {r q : α → α → Prop} {a b : α}
    (h : TransGen (fun a b ↦ r a b ∨ q a b) a b) :
    TransGen r a b ∨ ∃ c d, ReflTransGen (fun a b ↦ r a b ∨ q a b) a c ∧ q c d ∧
      ReflTransGen (fun a b ↦ r a b ∨ q a b) d b := by
  induction h with
  | single hstep =>
      rcases hstep with hfirst | hsecond
      · exact .inl (.single hfirst)
      · exact .inr ⟨a, _, .refl, hsecond, .refl⟩
  | tail hpath hstep ih =>
      rcases ih with hfirst | ⟨c, d, hbefore, hsecond, hbehind⟩
      · rcases hstep with hstep | hsecond
        · exact .inl (hfirst.tail hstep)
        · exact .inr ⟨_, _, hpath.to_reflTransGen, hsecond, .refl⟩
      · exact .inr ⟨c, d, hbefore, hsecond, hbehind.tail hstep⟩

/-- A machine that comes back to a state does so again and again. -/
theorem after_cycle {count : ℕ} (h : after step s count = some s) (rounds : ℕ) :
    after step s (count * rounds) = some s := by
  induction rounds with
  | zero => rfl
  | succ rounds ih =>
      rw [Nat.mul_succ, after_add, ih]
      exact h

/-- A machine that comes back to a state does not stop. -/
theorem not_stops_of_cycle (hcycle : TransGen (Next step) s s) (count : ℕ) :
    after step s count ≠ none := by
  obtain ⟨period, hperiod⟩ := transGen_iff.mp hcycle
  intro hnone
  have hlater := after_none_of_le (Nat.le_mul_of_pos_left count (Nat.succ_pos period)) hnone
  rw [after_cycle hperiod count] at hlater
  cases hlater

theorem stops_iff (hfin : {s | (step s).isSome}.Finite) (s : σ) :
    (∃ count, after step s count = none) ↔
      ∀ s', ReflTransGen (Next step) s s' → ¬ TransGen (Next step) s' s' := by
  constructor
  · rintro ⟨count, hstop⟩ s' hreach hcycle
    obtain ⟨before, hbefore⟩ := reaches_iff.mp hreach
    have hlater := after_none_of_le (Nat.le_add_left count before) hstop
    rw [after_add, hbefore] at hlater
    exact not_stops_of_cycle hcycle count hlater
  · intro hacyclic
    by_contra hruns
    push Not at hruns
    choose state hstate using fun count ↦ Option.ne_none_iff_exists'.mp (hruns count)
    -- every state passed has a successor, so two of them are the same
    have hmem : ∀ count, state count ∈ {s | (step s).isSome} := by
      intro count
      have hnext := hstate (count + 1)
      rw [after, hstate count, Option.bind_some] at hnext
      exact Option.isSome_iff_exists.mpr ⟨_, hnext⟩
    obtain ⟨m, n, hlt, heq⟩ := hfin.exists_lt_map_eq_of_forall_mem hmem
    obtain ⟨period, rfl⟩ := Nat.exists_eq_add_of_lt hlt
    refine hacyclic (state m) (reaches_iff.mpr ⟨m, hstate m⟩) (transGen_iff.mpr ⟨period, ?_⟩)
    have hloop := hstate (m + period + 1)
    rwa [Nat.add_assoc, after_add, hstate m, Option.bind_some, ← Nat.add_assoc, ← heq] at hloop

end Steps

end CPractice.Lib
