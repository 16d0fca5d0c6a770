import Mathlib.Data.List.Basic
import Mathlib.Logic.Function.Basic

/-!
# Lists of items as finite maps

A container that keeps its items in some order holds a partial function from keys to values.  The
rules say what becomes of the function when one item is put in, taken out or exchanged.
-/

namespace CPractice.Lib

variable {α κ ν : Type*}

/-- The items hold exactly the bindings. -/
def Binds (key : α → κ) (value : α → ν) (items : List α) (bindings : κ → Option ν) : Prop :=
  ∀ k v, bindings k = some v ↔ ∃ item ∈ items, key item = k ∧ value item = v

namespace Binds

variable {key : α → κ} {value : α → ν} {items front rest : List α} {bindings : κ → Option ν}
  {item : α}

theorem nil : Binds key value [] fun _ ↦ none := by
  intro k v
  simp

theorem eq_some (h : Binds key value items bindings) (hitem : item ∈ items) :
    bindings (key item) = some (value item) :=
  (h _ _).mpr ⟨item, hitem, rfl, rfl⟩

/-- A key that no item has is unbound. -/
theorem eq_none (h : Binds key value items bindings) {k : κ} (hkey : ∀ item ∈ items, key item ≠ k) :
    bindings k = none := by
  by_contra hsome
  rcases Option.ne_none_iff_exists'.mp hsome with ⟨v, hv⟩
  rcases (h k v).mp hv with ⟨item, hitem, heq, -⟩
  exact hkey item hitem heq

variable [DecidableEq κ]

/-- An item with a key of its own is put in. -/
theorem insert (h : Binds key value (front ++ rest) bindings)
    (hnew : ∀ other ∈ front ++ rest, key other ≠ key item) :
    Binds key value (front ++ item :: rest)
      (Function.update bindings (key item) (some (value item))) := by
  intro k v
  by_cases hk : k = key item
  · rw [hk, Function.update_self, Option.some_inj]
    constructor
    · intro heq
      exact ⟨item, by simp, rfl, heq⟩
    · rintro ⟨other, hother, hkey, hvalue⟩
      rcases List.mem_append.mp hother with hmem | hmem
      · exact absurd hkey (hnew other (List.mem_append_left _ hmem))
      · rcases List.mem_cons.mp hmem with rfl | hmem
        · exact hvalue
        · exact absurd hkey (hnew other (List.mem_append_right _ hmem))
  · rw [Function.update_of_ne hk, h k v]
    constructor
    · rintro ⟨other, hother, hpair⟩
      refine ⟨other, ?_, hpair⟩
      rcases List.mem_append.mp hother with hmem | hmem
      · exact List.mem_append_left _ hmem
      · exact List.mem_append_right _ (List.mem_cons_of_mem _ hmem)
    · rintro ⟨other, hother, hkey, hvalue⟩
      refine ⟨other, ?_, hkey, hvalue⟩
      rcases List.mem_append.mp hother with hmem | hmem
      · exact List.mem_append_left _ hmem
      · rcases List.mem_cons.mp hmem with rfl | hmem
        · exact absurd hkey.symm hk
        · exact List.mem_append_right _ hmem

/-- The only item of its key is taken out. -/
theorem erase (h : Binds key value (front ++ item :: rest) bindings)
    (honly : ∀ other ∈ front ++ rest, key other ≠ key item) :
    Binds key value (front ++ rest) (Function.update bindings (key item) none) := by
  intro k v
  by_cases hk : k = key item
  · rw [hk, Function.update_self]
    constructor
    · intro heq
      cases heq
    · rintro ⟨other, hother, hkey, -⟩
      exact absurd hkey (honly other hother)
  · rw [Function.update_of_ne hk, h k v]
    constructor
    · rintro ⟨other, hother, hkey, hvalue⟩
      refine ⟨other, ?_, hkey, hvalue⟩
      rcases List.mem_append.mp hother with hmem | hmem
      · exact List.mem_append_left _ hmem
      · rcases List.mem_cons.mp hmem with rfl | hmem
        · exact absurd hkey.symm hk
        · exact List.mem_append_right _ hmem
    · rintro ⟨other, hother, hpair⟩
      refine ⟨other, ?_, hpair⟩
      rcases List.mem_append.mp hother with hmem | hmem
      · exact List.mem_append_left _ hmem
      · exact List.mem_append_right _ (List.mem_cons_of_mem _ hmem)

/-- The only item of its key is exchanged for another one of the same key. -/
theorem exchange {new : α} (h : Binds key value (front ++ item :: rest) bindings)
    (honly : ∀ other ∈ front ++ rest, key other ≠ key item) (hnew : key new = key item) :
    Binds key value (front ++ new :: rest)
      (Function.update bindings (key item) (some (value new))) := by
  have hinsert : Binds key value (front ++ new :: rest)
      (Function.update (Function.update bindings (key item) none) (key new) (some (value new))) :=
    (h.erase honly).insert (by rwa [hnew])
  rwa [hnew, Function.update_idem] at hinsert

end Binds

end CPractice.Lib
