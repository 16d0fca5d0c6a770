import Mathlib.Data.List.Basic
import Mathlib.Logic.Function.Basic

/-!
# Setting several keys of a store

A store maps keys to values.  Several pairs are set one after another, or only where the key is new, or
all of them just if every key is new.  The last value of a key counts when the pairs overwrite one
another, the first one when a key that is there is kept.
-/

namespace CPractice.Lib

variable {κ ν : Type*} [DecidableEq κ]

/-- Set a key. -/
def put (store : κ → Option ν) (pair : κ × ν) : κ → Option ν :=
  Function.update store pair.1 (some pair.2)

/-- Set a key that is not there. -/
def putNew (store : κ → Option ν) (pair : κ × ν) : κ → Option ν :=
  if (store pair.1).isSome then store else put store pair

/-- Set all keys, or none if one of them is there. -/
def putAllNew (store : κ → Option ν) (pairs : List (κ × ν)) : κ → Option ν :=
  if ∃ pair ∈ pairs, (store pair.1).isSome then store else pairs.foldl put store

/-- The first value of every key is its last one. -/
def FirstIsLast (pairs : List (κ × ν)) : Prop := ∀ key, pairs.lookup key = pairs.reverse.lookup key

variable {store : κ → Option ν} {pairs : List (κ × ν)}

theorem put_apply (pair : κ × ν) (key : κ) :
    put store pair key = ([pair].lookup key).or (store key) := by
  rw [put, Function.update_apply, List.lookup_cons]
  by_cases hkey : key = pair.1
  · rw [if_pos hkey, beq_iff_eq.mpr hkey]
    rfl
  · rw [if_neg hkey, beq_eq_false_iff_ne.mpr hkey]
    rfl

/-- Pairs that overwrite one another leave the last value of a key. -/
theorem foldl_put_apply (store : κ → Option ν) (pairs : List (κ × ν)) (key : κ) :
    pairs.foldl put store key = (pairs.reverse.lookup key).or (store key) := by
  induction pairs generalizing store with
  | nil => rfl
  | cons pair pairs ih =>
      rw [List.foldl_cons, ih, put_apply, List.reverse_cons, List.lookup_append, Option.or_assoc]

theorem putNew_apply (pair : κ × ν) (key : κ) :
    putNew store pair key = (store key).or ([pair].lookup key) := by
  rw [putNew]
  split_ifs with hthere
  · by_cases hkey : key = pair.1
    · rw [hkey, Option.or_of_isSome hthere]
    · rw [List.lookup_cons, beq_eq_false_iff_ne.mpr hkey]
      exact (Option.or_none).symm
  · by_cases hkey : key = pair.1
    · have hnone : store key = none := by rwa [hkey, ← Option.not_isSome_iff_eq_none]
      rw [put_apply, hnone, Option.or_none, Option.none_or]
    · rw [put_apply, List.lookup_cons, beq_eq_false_iff_ne.mpr hkey]
      exact (Option.or_none).symm

/-- Pairs that keep what is there leave the first value of a new key. -/
theorem foldl_putNew_apply (store : κ → Option ν) (pairs : List (κ × ν)) (key : κ) :
    pairs.foldl putNew store key = (store key).or (pairs.lookup key) := by
  induction pairs generalizing store with
  | nil => exact Option.or_none.symm
  | cons pair pairs ih =>
      rw [List.foldl_cons, ih, putNew_apply, Option.or_assoc, ← List.lookup_append,
        List.singleton_append]

theorem lookup_eq_none_of_forall {p : κ → Prop} {key : κ} (hall : ∀ pair ∈ pairs, p pair.1)
    (hkey : ¬ p key) : pairs.lookup key = none := by
  rw [List.lookup_eq_none_iff]
  intro pair hpair
  rw [bne_iff_ne]
  rintro rfl
  exact hkey (hall pair hpair)

theorem lookup_map_snd {μ : Type*} (f : ν → μ) (pairs : List (κ × ν)) (key : κ) :
    (pairs.map fun pair ↦ (pair.1, f pair.2)).lookup key = (pairs.lookup key).map f := by
  induction pairs with
  | nil => rfl
  | cons pair pairs ih =>
      rw [List.map_cons, List.lookup_cons, List.lookup_cons, ih]
      cases key == pair.1 with
      | false => rfl
      | true => rfl

theorem firstIsLast_map_iff {μ : Type*} {f : ν → μ} (hf : Function.Injective f) :
    FirstIsLast (pairs.map fun pair ↦ (pair.1, f pair.2)) ↔ FirstIsLast pairs := by
  apply forall_congr'
  intro key
  rw [← List.map_reverse, lookup_map_snd, lookup_map_snd]
  exact (Option.map_injective hf).eq_iff

theorem firstIsLast_of_nodup (h : (pairs.map Prod.fst).Nodup) : FirstIsLast pairs := by
  intro key
  induction pairs with
  | nil => rfl
  | cons pair pairs ih =>
      rcases List.nodup_cons.mp h with ⟨hnew, hrest⟩
      rw [List.reverse_cons, List.lookup_append, ← ih hrest, List.lookup_cons, List.lookup_cons]
      by_cases hkey : key = pair.1
      · have hnone : pairs.lookup key = none :=
          lookup_eq_none_of_forall (p := fun key ↦ key ∈ pairs.map Prod.fst)
            (fun _ hmem ↦ List.mem_map_of_mem hmem) (hkey ▸ hnew)
        rw [hnone, beq_iff_eq.mpr hkey]
        rfl
      · rw [beq_eq_false_iff_ne.mpr hkey]
        exact Option.or_none.symm

/-- One by one where the key is new: nothing changes just if all keys are there. -/
theorem foldl_putNew_eq_self_iff :
    pairs.foldl putNew store = store ↔ ∀ pair ∈ pairs, (store pair.1).isSome := by
  constructor
  · intro heq pair hpair
    rw [← Option.ne_none_iff_isSome]
    intro hnone
    have hlookup := congrFun heq pair.1
    rw [foldl_putNew_apply, hnone, Option.none_or, List.lookup_eq_none_iff] at hlookup
    exact bne_iff_ne.mp (hlookup pair hpair) rfl
  · intro hall
    funext key
    rw [foldl_putNew_apply]
    by_cases hthere : (store key).isSome
    · exact Option.or_of_isSome hthere
    · rw [lookup_eq_none_of_forall (p := fun key ↦ (store key).isSome) hall hthere, Option.or_none]

/-- For new keys the two ways differ in the value of a key that is repeated. -/
theorem foldl_putNew_eq_foldl_put_iff (hnew : ∀ pair ∈ pairs, store pair.1 = none) :
    pairs.foldl putNew store = pairs.foldl put store ↔ FirstIsLast pairs := by
  rw [funext_iff]
  apply forall_congr'
  intro key
  rw [foldl_putNew_apply, foldl_put_apply]
  by_cases hthere : store key = none
  · rw [hthere, Option.none_or, Option.or_none]
  · have hreverse : ∀ pair ∈ pairs.reverse, store pair.1 = none := fun pair hpair ↦
      hnew pair (List.mem_reverse.mp hpair)
    rw [lookup_eq_none_of_forall (p := fun key ↦ store key = none) hnew hthere,
      lookup_eq_none_of_forall (p := fun key ↦ store key = none) hreverse hthere, Option.or_none,
      Option.none_or]
    exact iff_of_true rfl rfl

/-- One by one where the key is new, or all of them if every key is: this is the same if all keys are
there, or if all are new and a key that is repeated ends as it begins. -/
theorem foldl_putNew_eq_putAllNew_iff :
    pairs.foldl putNew store = putAllNew store pairs ↔
      (∀ pair ∈ pairs, (store pair.1).isSome) ∨
        (∀ pair ∈ pairs, store pair.1 = none) ∧ FirstIsLast pairs := by
  rw [putAllNew]
  split_ifs with hbusy
  · rcases hbusy with ⟨pair, hpair, hthere⟩
    have hnot : ¬ ∀ pair ∈ pairs, store pair.1 = none := by
      intro hnew
      rw [hnew pair hpair] at hthere
      cases hthere
    rw [foldl_putNew_eq_self_iff]
    exact (or_iff_left fun h ↦ hnot h.1).symm
  · have hnew : ∀ pair ∈ pairs, store pair.1 = none := fun pair hpair ↦
      Option.not_isSome_iff_eq_none.mp fun hthere ↦ hbusy ⟨pair, hpair, hthere⟩
    have hempty : (∀ pair ∈ pairs, (store pair.1).isSome) → FirstIsLast pairs := by
      intro hall
      cases pairs with
      | nil => exact fun _ ↦ rfl
      | cons pair pairs => exact absurd ⟨pair, List.mem_cons_self, hall pair List.mem_cons_self⟩ hbusy
    rw [foldl_putNew_eq_foldl_put_iff hnew]
    constructor
    · exact fun hfirst ↦ .inr ⟨hnew, hfirst⟩
    · rintro (hall | ⟨-, hfirst⟩)
      · exact hempty hall
      · exact hfirst

end CPractice.Lib
