import Mathlib.Data.List.Sort

/-!
# Lists sorted by a key, with equal keys in the order of insertion

An element put behind all elements of an equal key leaves these in the order in which they came.  The
times of insertion are read from a history, the list of all insertions made so far: an entry is
stamped with the place of its last occurrence, and later insertions of other entries do not change
the stamp.
-/

namespace CPractice.Lib

variable {α κ : Type*}

/-! ## Histories -/

section
variable [DecidableEq α]

/-- The place of the last occurrence of an entry, counted from one; zero if there is none. -/
def stampOf (history : List α) (entry : α) : ℕ := history.length - history.reverse.idxOf entry

theorem stampOf_le (history : List α) (entry : α) : stampOf history entry ≤ history.length :=
  Nat.sub_le _ _

theorem stampOf_append_self (history : List α) (entry : α) :
    stampOf (history ++ [entry]) entry = history.length + 1 := by
  simp [stampOf]

theorem stampOf_append_other (history : List α) {entry other : α} (h : other ≠ entry) :
    stampOf (history ++ [entry]) other = stampOf history other := by
  have hne : entry ≠ other := h.symm
  simp [stampOf, List.idxOf_cons_ne _ hne]

end

/-! ## Stable insertion -/

variable [LinearOrder κ] {key key' : α → κ} {stamp stamp' : α → ℕ} {list : List α} {a : α}

/-- Sorted by the key, and by the stamp where keys are equal. -/
def StablySorted (key : α → κ) (stamp : α → ℕ) (list : List α) : Prop :=
  list.Pairwise fun a b ↦ key a ≤ key b ∧ (key a = key b → stamp a < stamp b)

namespace StablySorted

theorem sublist {list' : List α} (h : StablySorted key stamp list) (hsub : list'.Sublist list) :
    StablySorted key stamp list' :=
  List.Pairwise.sublist hsub h

theorem congr (h : StablySorted key stamp list) (hkey : ∀ a ∈ list, key' a = key a)
    (hstamp : ∀ a ∈ list, stamp' a = stamp a) : StablySorted key' stamp' list := by
  refine List.Pairwise.imp_of_mem ?_ h
  intro a b ha hb hpair
  rwa [hkey a ha, hkey b hb, hstamp a ha, hstamp b hb]

/-- An element with the latest stamp, put behind the elements whose key is not greater. -/
theorem orderedInsert (h : StablySorted key stamp list) {r : α → α → Prop} [DecidableRel r]
    (hr : ∀ b, r a b ↔ key a < key b) (hlatest : ∀ b ∈ list, stamp b < stamp a) :
    StablySorted key stamp (list.orderedInsert r a) := by
  induction list with
  | nil => exact List.pairwise_singleton _ _
  | cons b rest ih =>
      obtain ⟨hb, hrest⟩ := List.pairwise_cons.mp h
      obtain ⟨hlate, hlatest⟩ := List.forall_mem_cons.mp hlatest
      rw [List.orderedInsert_cons]
      split
      · next hbefore =>
          have hlt : key a < key b := (hr b).mp hbefore
          refine List.pairwise_cons.mpr ⟨?_, h⟩
          intro c hc
          have hac : key a < key c := by
            rcases List.mem_cons.mp hc with rfl | hc
            · exact hlt
            · exact hlt.trans_le (hb c hc).1
          exact ⟨hac.le, fun heq ↦ absurd heq hac.ne⟩
      · next hbehind =>
          have hle : key b ≤ key a := not_lt.mp fun hlt ↦ hbehind ((hr b).mpr hlt)
          refine List.pairwise_cons.mpr ⟨?_, ih hrest hlatest⟩
          intro c hc
          rcases (List.mem_orderedInsert _).mp hc with rfl | hc
          · exact ⟨hle, fun _ ↦ hlate⟩
          · exact hb c hc

end StablySorted

end CPractice.Lib
