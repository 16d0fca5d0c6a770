import CPractice.Dict.Model
import CPractice.Lib.Buckets

/-!
# One hash table

A table in order has a size that is zero or a power of two, the mask that goes with it, the number of its
entries, and each entry in the bucket of its hash.
-/

namespace CPractice.Dict

open Lib

variable {κ ν : Type} {hash : κ → ℕ} {ht ht0 ht1 : Dictht κ ν}

/-- The sizes of a table. -/
def IsSize (size : ℕ) : Prop := ∃ k, 2 ≤ k ∧ k ≤ 31 ∧ size = 2 ^ k

theorem IsSize.pos {size : ℕ} (h : IsSize size) : 0 < size := by
  obtain ⟨k, -, -, rfl⟩ := h
  exact Nat.two_pow_pos k

theorem IsSize.le {size : ℕ} (h : IsSize size) : size ≤ 2147483648 := by
  obtain ⟨k, -, hk, rfl⟩ := h
  calc 2 ^ k ≤ 2 ^ 31 := Nat.pow_le_pow_right (by decide) hk
    _ = 2147483648 := by decide

theorem IsSize.and_lt {size : ℕ} (h : IsSize size) (n : ℕ) : n &&& (size - 1) < size := by
  obtain ⟨k, -, -, rfl⟩ := h
  rw [Nat.and_two_pow_sub_one_eq_mod]
  exact Nat.mod_lt _ (Nat.two_pow_pos k)

structure HtWf (hash : κ → ℕ) (ht : Dictht κ ν) : Prop where
  length_eq : ht.table.length = ht.size
  size_cases : ht.size = 0 ∨ IsSize ht.size
  mask_eq : ht.sizemask = ht.size - 1
  used_eq : ht.used = ht.table.flatten.length
  placed : Placed (fun he ↦ indexOf hash ht he.1) ht.table

theorem htWf_reset : HtWf hash (dictReset : Dictht κ ν) := by
  refine ⟨rfl, .inl rfl, rfl, rfl, fun i b hb ↦ ?_⟩
  rw [dictReset, List.getElem?_nil] at hb
  cases hb

theorem htWf_fresh {size : ℕ} (h : IsSize size) :
    HtWf hash (⟨List.replicate size [], size, size - 1, 0⟩ : Dictht κ ν) := by
  refine ⟨List.length_replicate, .inr h, rfl, ?_, placed_replicate _ size⟩
  rw [List.flatten_replicate_nil]
  rfl

namespace HtWf

theorem isSize (h : HtWf hash ht) (hsize : ht.size ≠ 0) : IsSize ht.size :=
  h.size_cases.resolve_left hsize

/-- The bucket of a key. -/
theorem exists_bucket (h : HtWf hash ht) (hsize : ht.size ≠ 0) (key : κ) :
    ∃ b, ht.table[indexOf hash ht key]? = some b := by
  have hlt : indexOf hash ht key < ht.table.length := by
    rw [h.length_eq, indexOf, h.mask_eq]
    exact (h.isSize hsize).and_lt _
  exact ⟨_, List.getElem?_eq_getElem hlt⟩

theorem mem_bucket_iff (h : HtWf hash ht) {key : κ} {b : List (κ × ν)}
    (hb : ht.table[indexOf hash ht key]? = some b) {he : κ × ν} (hkey : key = he.1) :
    he ∈ b ↔ he ∈ ht.table.flatten := by
  rw [h.placed.mem_bucket_iff hb, hkey]
  exact and_iff_left rfl

/-- A bucket is changed, and `used` with it. -/
theorem set (h : HtWf hash ht) {i used : ℕ} {b' : List (κ × ν)}
    (hb' : ∀ he ∈ b', indexOf hash ht he.1 = i) (hused : used = (ht.table.set i b').flatten.length) :
    HtWf hash { ht with table := ht.table.set i b', used := used } :=
  ⟨List.length_set.trans h.length_eq, h.size_cases, h.mask_eq, hused, h.placed.set i hb'⟩

theorem pushEntry (h : HtWf hash ht) (hsize : ht.size ≠ 0) (hfew : ht.used < 18446744073709551615)
    (entry : κ × ν) :
    ∃ ht', pushEntry ht (indexOf hash ht entry.1) entry = some ht' ∧ HtWf hash ht' ∧
      ht'.size = ht.size ∧ ht'.used = ht.used + 1 ∧
      ht'.table.flatten.Perm (entry :: ht.table.flatten) := by
  obtain ⟨b, hb⟩ := h.exists_bucket hsize entry.1
  have hperm := flatten_push hb entry
  have hcount : u8 (ht.used + 1) = ht.used + 1 := u8_of_lt (by omega)
  have hplaced : ∀ he ∈ entry :: b, indexOf hash ht he.1 = indexOf hash ht entry.1 := by
    intro he hmem
    rcases List.mem_cons.mp hmem with rfl | hold
    · rfl
    · exact h.placed _ b hb he hold
  refine ⟨_, by rw [Dict.pushEntry, hb, Option.bind_eq_bind, Option.bind_some], h.set hplaced ?_, rfl,
    hcount, hperm⟩
  rw [hcount, hperm.length_eq, List.length_cons, h.used_eq]

/-- A bucket moves to another table. -/
theorem moveBucket (h1 : HtWf hash ht1) (hsize : ht1.size ≠ 0) (bucket : List (κ × ν))
    (hle : bucket.length ≤ ht0.used) (hfew : ht0.used + ht1.used < 18446744073709551616) :
    ∃ ht1', moveBucket hash ht0 ht1 bucket = some ({ ht0 with used := ht0.used - bucket.length }, ht1') ∧
      HtWf hash ht1' ∧ ht1'.size = ht1.size ∧ ht1'.used = ht1.used + bucket.length ∧
      ht1'.table.flatten.Perm (bucket ++ ht1.table.flatten) := by
  induction bucket generalizing ht0 ht1 with
  | nil => exact ⟨ht1, rfl, h1, rfl, rfl, List.Perm.refl _⟩
  | cons de nextde ih =>
      rw [List.length_cons] at hle
      obtain ⟨ht1', hpush, hwf, hsize', hused, hperm⟩ := h1.pushEntry hsize (by omega) de
      have hsub : u8Sub ht0.used 1 = ht0.used - 1 := u8Sub_of_le (by omega) (by omega)
      have hle' : nextde.length ≤ ({ ht0 with used := ht0.used - 1 } : Dictht κ ν).used := by
        dsimp only
        omega
      obtain ⟨ht1'', hmove, hwf', hsize'', hused', hperm'⟩ :=
        ih hwf (by rw [hsize']; exact hsize) hle' (by dsimp only; omega)
      refine ⟨ht1'', ?_, hwf', hsize''.trans hsize', ?_, ?_⟩
      · rw [Dict.moveBucket, hpush, Option.bind_eq_bind, Option.bind_some, hsub, hmove]
        dsimp only
        rw [List.length_cons, Nat.sub_sub, Nat.add_comm 1]
      · rw [hused', hused, List.length_cons]
        omega
      · calc ht1''.table.flatten.Perm (nextde ++ ht1'.table.flatten) := hperm'
          (nextde ++ ht1'.table.flatten).Perm (nextde ++ de :: ht1.table.flatten) :=
            hperm.append_left nextde
          (nextde ++ de :: ht1.table.flatten).Perm (de :: (nextde ++ ht1.table.flatten)) :=
            List.perm_middle

section
variable [DecidableEq κ]

theorem findIn (h : HtWf hash ht) (hsize : ht.size ≠ 0) (key : κ) :
    ∃ he, findIn hash ht key = some he ∧
      (∀ e, he = some e → e ∈ ht.table.flatten ∧ key = e.1) ∧
      (he = none → ∀ e ∈ ht.table.flatten, key ≠ e.1) := by
  obtain ⟨b, hb⟩ := h.exists_bucket hsize key
  refine ⟨_, by rw [Dict.findIn, hb, Option.map_some], fun e hfind ↦ ?_, fun hnone e hmem heq ↦ ?_⟩
  · have hfound := List.find?_some hfind
    have hkey : key = e.1 := of_decide_eq_true hfound
    exact ⟨(h.mem_bucket_iff hb hkey).mp (List.mem_of_find?_eq_some hfind), hkey⟩
  · have hno := List.find?_eq_none.mp hnone e ((h.mem_bucket_iff hb heq).mpr hmem)
    exact hno (decide_eq_true heq)

theorem deleteIn (h : HtWf hash ht) (hsize : ht.size ≠ 0) (hfew : ht.used < 18446744073709551616)
    (key : κ) :
    (∃ ht' e, deleteIn hash ht key = some (true, ht') ∧ key = e.1 ∧ HtWf hash ht' ∧
        ht'.size = ht.size ∧ ht.table.flatten.Perm (e :: ht'.table.flatten) ∧
        ∀ i : ℕ, ht.table[i]? = some [] → ht'.table[i]? = some []) ∨
      (deleteIn hash ht key = some (false, ht) ∧ ∀ e ∈ ht.table.flatten, key ≠ e.1) := by
  obtain ⟨b, hb⟩ := h.exists_bucket hsize key
  by_cases hany : (b.any fun he ↦ key = he.1) = true
  · obtain ⟨e, l₁, l₂, hno, hkey, hsplit, herase⟩ := List.exists_of_eraseP
      (p := fun he : κ × ν ↦ decide (key = he.1)) (l := b) (List.any_eq_true.mp hany).choose_spec.1
      (List.any_eq_true.mp hany).choose_spec.2
    have hperm : b.Perm (e :: b.eraseP fun he ↦ decide (key = he.1)) := by
      rw [herase]
      conv => lhs; rw [hsplit]
      exact List.perm_middle
    have hflat := flatten_remove hb hperm
    have hplaced : ∀ he ∈ b.eraseP fun he ↦ decide (key = he.1), indexOf hash ht he.1 = _ :=
      fun he hmem ↦ h.placed _ b hb he (List.mem_of_mem_eraseP hmem)
    have hcount : u8Sub ht.used 1 =
        (ht.table.set (indexOf hash ht key) (b.eraseP fun he ↦ decide (key = he.1))).flatten.length := by
      have hlength := hflat.length_eq
      rw [List.length_cons, ← h.used_eq] at hlength
      rw [u8Sub_of_le (by omega) hfew]
      omega
    refine .inl ⟨_, e, ?_, of_decide_eq_true hkey, h.set hplaced hcount, rfl, hflat, fun i hi ↦ ?_⟩
    · rw [Dict.deleteIn, hb, Option.bind_eq_bind, Option.bind_some, if_pos hany]
    · -- an empty bucket is not the one that had the entry
      have hne : indexOf hash ht key ≠ i := by
        rintro rfl
        rw [hb] at hi
        rw [Option.some.inj hi] at hany
        cases hany
      exact (List.getElem?_set_ne hne).trans hi
  · refine .inr ⟨?_, fun e hmem heq ↦ hany ?_⟩
    · rw [Dict.deleteIn, hb, Option.bind_eq_bind, Option.bind_some, if_neg hany]
    · exact List.any_eq_true.mpr ⟨e, (h.mem_bucket_iff hb heq).mpr hmem, decide_eq_true heq⟩

/-- The first entry of a key gets the value. -/
theorem setVal_split (key : κ) (val : ν) (b : List (κ × ν)) (hb : ∃ he ∈ b, key = he.1) :
    ∃ l₁ e l₂, b = l₁ ++ e :: l₂ ∧ key = e.1 ∧ setVal key val b = l₁ ++ (e.1, val) :: l₂ := by
  induction b with
  | nil =>
      obtain ⟨he, hmem, -⟩ := hb
      exact absurd hmem (by simp)
  | cons he next ih =>
      by_cases hkey : key = he.1
      · exact ⟨[], he, next, rfl, hkey, by rw [setVal, if_pos hkey]; rfl⟩
      · have hnext : ∃ he ∈ next, key = he.1 := by
          obtain ⟨e, hmem, heq⟩ := hb
          rcases List.mem_cons.mp hmem with rfl | htail
          · exact absurd heq hkey
          · exact ⟨e, htail, heq⟩
        obtain ⟨l₁, e, l₂, hsplit, he', hset⟩ := ih hnext
        refine ⟨he :: l₁, e, l₂, by rw [hsplit, List.cons_append], he', ?_⟩
        rw [setVal, if_neg hkey, hset, List.cons_append]

theorem setIn (h : HtWf hash ht) {key : κ} (hkey : ∃ e ∈ ht.table.flatten, key = e.1) (val : ν) :
    ∃ ht' e l, setIn hash ht key val = some ht' ∧ key = e.1 ∧ HtWf hash ht' ∧ ht'.size = ht.size ∧
      ht.table.flatten.Perm (e :: l) ∧ ht'.table.flatten.Perm ((e.1, val) :: l) ∧
      ∀ i : ℕ, ht.table[i]? = some [] → ht'.table[i]? = some [] := by
  obtain ⟨e₀, hmem, heq⟩ := hkey
  obtain ⟨b, hb, hin⟩ := h.placed.mem_iff.mp hmem
  rw [← heq] at hb
  obtain ⟨l₁, e, l₂, hsplit, hkey, hset⟩ := setVal_split key val b ⟨e₀, hin, heq⟩
  have hb_perm : b.Perm (e :: (l₁ ++ l₂)) := by
    rw [hsplit]
    exact List.perm_middle
  have hset_perm : (setVal key val b).Perm ((e.1, val) :: (l₁ ++ l₂)) := by
    rw [hset]
    exact List.perm_middle
  obtain ⟨rest, hold, hnew⟩ := flatten_replace hb hb_perm hset_perm
  have hplaced : ∀ he ∈ setVal key val b, indexOf hash ht he.1 = indexOf hash ht key := by
    intro he hin
    rcases List.mem_cons.mp (hset_perm.mem_iff.mp hin) with rfl | hother
    · rw [hkey]
    · exact h.placed _ b hb he (hb_perm.mem_iff.mpr (List.mem_cons_of_mem e hother))
  have hcount : ht.used = (ht.table.set (indexOf hash ht key) (setVal key val b)).flatten.length := by
    rw [h.used_eq, hold.length_eq, hnew.length_eq, List.length_cons, List.length_cons]
  refine ⟨_, e, rest, ?_, hkey, h.set hplaced hcount, rfl, hold, hnew, fun i hi ↦ ?_⟩
  · rw [Dict.setIn, hb, Option.bind_eq_bind, Option.bind_some]
  · have hne : indexOf hash ht key ≠ i := by
      rintro rfl
      rw [hb] at hi
      rw [Option.some.inj hi] at hin
      cases hin
    exact (List.getElem?_set_ne hne).trans hi

end

end HtWf

end CPractice.Dict
