import Mathlib.Data.Multiset.MapFold
import Mathlib.Data.Multiset.Dedup
import Mathlib.Logic.Function.Basic

/-!
# Owned cells of a memory

`Owns mem cells` says that the memory holds a multiset of cells at distinct addresses.  It plays the
part of a separating conjunction: a multiset is rearranged with `+`, one cell is loaded, stored,
allocated or freed, and the others stay as they are.
-/

namespace CPractice.Lib

variable {π ν : Type*}

/-- The memory holds each of the cells, and no two of them at one address. -/
structure Owns (mem : π → Option ν) (cells : Multiset (π × ν)) : Prop where
  nodup : (cells.map Prod.fst).Nodup
  read : ∀ cell ∈ cells, mem cell.1 = some cell.2

namespace Owns

variable {mem : π → Option ν} {cells rest : Multiset (π × ν)} {p q : π} {c d : ν}

theorem load (h : Owns mem ((p, c) ::ₘ rest)) : mem p = some c :=
  h.read (p, c) (Multiset.mem_cons_self _ _)

theorem not_mem_rest (h : Owns mem ((p, c) ::ₘ rest)) : p ∉ rest.map Prod.fst := by
  have hnodup := h.nodup
  rw [Multiset.map_cons, Multiset.nodup_cons] at hnodup
  exact hnodup.1

theorem ne_of_mem_rest (h : Owns mem ((p, c) ::ₘ rest)) {cell : π × ν} (hcell : cell ∈ rest) :
    cell.1 ≠ p := by
  rintro rfl
  exact h.not_mem_rest (Multiset.mem_map_of_mem _ hcell)

/-- Part of what is owned is owned. -/
theorem mono (h : Owns mem cells) (hle : rest ≤ cells) : Owns mem rest where
  nodup := Multiset.nodup_of_le (Multiset.map_le_map hle) h.nodup
  read := fun cell hcell ↦ h.read cell (Multiset.mem_of_le hle hcell)

theorem tail (h : Owns mem ((p, c) ::ₘ rest)) : Owns mem rest :=
  h.mono (Multiset.le_cons_self rest (p, c))

theorem ne (h : Owns mem ((p, c) ::ₘ (q, d) ::ₘ rest)) : p ≠ q :=
  fun heq ↦ h.ne_of_mem_rest (Multiset.mem_cons_self (q, d) rest) heq.symm

variable [DecidableEq π]

/-- A write outside the cells leaves them. -/
theorem frame (h : Owns mem rest) (hp : p ∉ rest.map Prod.fst) (content : Option ν) :
    Owns (Function.update mem p content) rest where
  nodup := h.nodup
  read := by
    intro cell hcell
    have hne : cell.1 ≠ p := by
      rintro rfl
      exact hp (Multiset.mem_map_of_mem _ hcell)
    rw [Function.update_of_ne hne]
    exact h.read cell hcell

/-- A store to one of the cells. -/
theorem store (h : Owns mem ((p, c) ::ₘ rest)) (d : ν) :
    Owns (Function.update mem p (some d)) ((p, d) ::ₘ rest) where
  nodup := by
    have hnodup := h.nodup
    rwa [Multiset.map_cons] at hnodup ⊢
  read := by
    intro cell hcell
    rcases Multiset.mem_cons.mp hcell with rfl | hrest
    · exact Function.update_self ..
    · exact (h.tail.frame h.not_mem_rest (some d)).read cell hrest

/-- A new cell at an address that held nothing. -/
theorem alloc (h : Owns mem rest) (hfresh : mem p = none) (d : ν) :
    Owns (Function.update mem p (some d)) ((p, d) ::ₘ rest) := by
  have hp : p ∉ rest.map Prod.fst := by
    intro hmem
    rcases Multiset.mem_map.mp hmem with ⟨cell, hcell, rfl⟩
    rw [h.read cell hcell] at hfresh
    cases hfresh
  constructor
  · rw [Multiset.map_cons, Multiset.nodup_cons]
    exact ⟨hp, h.nodup⟩
  · intro cell hcell
    rcases Multiset.mem_cons.mp hcell with rfl | hrest
    · exact Function.update_self ..
    · exact (h.frame hp (some d)).read cell hrest

/-- A cell is given up. -/
theorem free (h : Owns mem ((p, c) ::ₘ rest)) : Owns (Function.update mem p none) rest :=
  h.tail.frame h.not_mem_rest none

end Owns

end CPractice.Lib
