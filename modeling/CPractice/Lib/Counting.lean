import CPractice.Lib.Bindings
import Mathlib.Algebra.BigOperators.Ring.Finset
import Mathlib.Data.Fintype.BigOperators
import Mathlib.Data.Set.Card

/-!
# Counting

A sum or a count over finitely many places changes by what an update of one place changes; a list without
repeated keys has as many items as it has bindings.
-/

namespace CPractice.Lib

section
variable {ι α : Type*} [Fintype ι] [DecidableEq ι]

theorem sum_update (f : α → ℕ) (places : ι → α) (i : ι) (x : α) :
    ∑ j, f (Function.update places i x j) + f (places i) = ∑ j, f (places j) + f x := by
  have hrest : ∑ j ∈ ({i} : Finset ι)ᶜ, f (Function.update places i x j) =
      ∑ j ∈ ({i} : Finset ι)ᶜ, f (places j) := by
    apply Finset.sum_congr rfl
    intro j hj
    rw [Function.update_of_ne (by simpa using hj)]
  rw [Fintype.sum_eq_add_sum_compl i, hrest, Fintype.sum_eq_add_sum_compl i (fun j ↦ f (places j)),
    Function.update_self]
  omega

theorem count_update (p : α → Prop) [DecidablePred p] (places : ι → α) (i : ι) (x : α) :
    (Finset.univ.filter fun j ↦ p (Function.update places i x j)).card + (if p (places i) then 1 else 0) =
      (Finset.univ.filter fun j ↦ p (places j)).card + if p x then 1 else 0 := by
  rw [Finset.card_filter, Finset.card_filter]
  exact sum_update (fun x ↦ if p x then 1 else 0) places i x

end

section
variable {α κ ν : Type*} {key : α → κ} {value : α → ν} {items items' : List α} {bindings : κ → Option ν}

theorem Binds.of_perm (h : Binds key value items bindings) (hperm : items'.Perm items) :
    Binds key value items' bindings := by
  intro k v
  rw [h k v]
  simp only [hperm.mem_iff]

theorem Binds.ncard (h : Binds key value items bindings) (hnodup : (items.map key).Nodup) :
    {k | bindings k ≠ none}.ncard = items.length := by
  classical
  have hset : {k | bindings k ≠ none} = ((items.map key).toFinset : Set κ) := by
    ext k
    rw [Set.mem_ofPred_eq, Finset.mem_coe, List.mem_toFinset, List.mem_map, Option.ne_none_iff_exists']
    constructor
    · intro hk
      obtain ⟨v, hv⟩ := hk
      obtain ⟨item, hitem, hkey, -⟩ := (h k v).mp hv
      exact ⟨item, hitem, hkey⟩
    · intro hk
      obtain ⟨item, hitem, rfl⟩ := hk
      exact ⟨_, h.eq_some hitem⟩
  rw [hset, Set.ncard_coe_finset, List.toFinset_card_of_nodup hnodup, List.length_map]

end

end CPractice.Lib
