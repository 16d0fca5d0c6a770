import CPractice.Dict.Rehash

/-!
# The operations on a dictionary

Each operation first moves a bucket, if the dictionary is rehashing, and then searches one table or both.
What it does is said of the entries, up to order.
-/

namespace CPractice.Dict

open Lib

variable {κ ν : Type} {hash : κ → ℕ} {d d' : DictT κ ν} [DecidableEq κ]

omit [DecidableEq κ] in
theorem Wf.used_lt (h : Wf hash d) : d.ht0.used ≤ 1073741824 ∧ d.ht1.used ≤ 1073741824 := by
  have hfew := h.few
  rw [dictSize] at hfew
  omega

/-- The search of both tables. -/
theorem search_cases (h : Wf hash d) (hsize : d.ht0.size ≠ 0) (key : κ) :
    (∃ e, findIn hash d.ht0 key = some (some e) ∧ e ∈ d.ht0.table.flatten ∧ key = e.1) ∨
    (∃ e, findIn hash d.ht0 key = some none ∧ isRehashing d ∧
        findIn hash d.ht1 key = some (some e) ∧ e ∈ d.ht1.table.flatten ∧ key = e.1) ∨
    (findIn hash d.ht0 key = some none ∧ (isRehashing d → findIn hash d.ht1 key = some none) ∧
        ∀ e ∈ entries d, key ≠ e.1) := by
  obtain ⟨he, hfind, hsome, hnone⟩ := h.ht0.findIn hsize key
  cases he with
  | some e => exact .inl ⟨e, hfind, hsome e rfl⟩
  | none =>
      have hfirst := hnone rfl
      by_cases hr : isRehashing d
      · obtain ⟨he', hfind', hsome', hnone'⟩ := h.ht1.findIn (h.moving hr).size1 key
        cases he' with
        | some e => exact .inr (.inl ⟨e, hfind, hr, hfind', hsome' e rfl⟩)
        | none =>
            refine .inr (.inr ⟨hfind, fun _ ↦ hfind', fun e he ↦ ?_⟩)
            rcases List.mem_append.mp he with h0 | h1
            · exact hfirst e h0
            · exact hnone' rfl e h1
      · refine .inr (.inr ⟨hfind, fun hr' ↦ absurd hr' hr, fun e he ↦ ?_⟩)
        rw [h.reset_entries hr] at he
        exact hfirst e he

omit [DecidableEq κ] in
/-- A table without buckets has no entries. -/
theorem Wf.entries_nil (h : Wf hash d) (hsize : d.ht0.size = 0) : entries d = [] := by
  have hidle : ¬ isRehashing d := fun hr ↦ (h.moving hr).size0 hsize
  have hnil : d.ht0.table = [] := by rw [← List.length_eq_zero_iff, h.ht0.length_eq, hsize]
  rw [h.reset_entries hidle, hnil]
  rfl

omit [DecidableEq κ] in
/-- A change of the first table. -/
theorem Wf.change0 (h : Wf hash d) {ht0 : Dictht κ ν} (hht : HtWf hash ht0) (hsize : ht0.size = d.ht0.size)
    (hempty : isRehashing d → ∀ i : ℕ, d.ht0.table[i]? = some [] → ht0.table[i]? = some [])
    (hnodup : ((entries { d with ht0 := ht0 }).map Prod.fst).Nodup)
    (hfew : (entries { d with ht0 := ht0 }).length ≤ 1073741824) : Wf hash { d with ht0 := ht0 } := by
  refine ⟨hht, h.ht1, fun hr ↦ ?_, h.alone, hnodup, ?_⟩
  · have hm := h.moving hr
    refine ⟨hm.idx_nonneg, by rw [hsize]; exact hm.idx_le, by rw [hsize]; exact hm.size0, hm.size1,
      fun i hi b hb ↦ ?_⟩
    have hlt : i < d.ht0.table.length := by
      rw [h.ht0.length_eq, ← hsize, ← hht.length_eq]
      exact (List.getElem?_eq_some_iff.mp hb).1
    have hold := List.getElem?_eq_getElem hlt
    rw [hm.below i hi _ hold] at hold
    have hnew := hempty hr i hold
    rw [hnew] at hb
    exact (Option.some.inj hb).symm
  · rw [entries, List.length_append, ← hht.used_eq, ← h.ht1.used_eq] at hfew
    exact hfew

omit [DecidableEq κ] in
/-- A change of the second table. -/
theorem Wf.change1 (h : Wf hash d) (hr : isRehashing d) {ht1 : Dictht κ ν} (hht : HtWf hash ht1)
    (hsize : ht1.size = d.ht1.size) (hnodup : ((entries { d with ht1 := ht1 }).map Prod.fst).Nodup)
    (hfew : (entries { d with ht1 := ht1 }).length ≤ 1073741824) : Wf hash { d with ht1 := ht1 } := by
  have hm := h.moving hr
  refine ⟨h.ht0, hht, fun _ ↦ ?_, fun hidle ↦ absurd hr hidle, hnodup, ?_⟩
  · exact ⟨hm.idx_nonneg, hm.idx_le, hm.size0, by rw [hsize]; exact hm.size1, hm.below⟩
  · rw [entries, List.length_append, ← h.ht0.used_eq, ← hht.used_eq] at hfew
    exact hfew

theorem dictFind_spec (h : Wf hash d) (key : κ) :
    ∃ he d', dictFind hash d key = some (he, d') ∧ Kept hash d d' ∧ (he ≠ none → d'.ht0.size ≠ 0) ∧
      (∀ e, he = some e → e ∈ entries d' ∧ key = e.1) ∧ (he = none → ∀ e ∈ entries d', key ≠ e.1) := by
  rw [dictFind]
  split
  · next hzero =>
      refine ⟨none, d, rfl, .refl h, fun hne ↦ absurd rfl hne, fun e he ↦ absurd he (by simp),
        fun _ e he ↦ ?_⟩
      rw [h.entries_nil hzero] at he
      exact absurd he (by simp)
  · next hsize =>
      obtain ⟨d', hstep, hkept⟩ := dictRehashStep_spec h
      have hsize' := hkept.sized hsize
      rw [hstep, Option.bind_eq_bind, Option.bind_some]
      rcases search_cases hkept.wf hsize' key with ⟨e, hfind, hmem, hkey⟩ |
        ⟨e, hfind, hr, hfind', hmem, hkey⟩ | ⟨hfind, hfind', hno⟩
      · rw [hfind]
        refine ⟨some e, d', rfl, hkept, fun _ ↦ hsize', fun e' he ↦ ?_, fun hn ↦ absurd hn (by simp)⟩
        cases he
        exact ⟨List.mem_append_left _ hmem, hkey⟩
      · rw [hfind, Option.bind_eq_bind, Option.bind_some]
        dsimp only
        rw [if_pos hr, hfind']
        refine ⟨some e, d', rfl, hkept, fun _ ↦ hsize', fun e' he ↦ ?_, fun hn ↦ absurd hn (by simp)⟩
        cases he
        exact ⟨List.mem_append_right _ hmem, hkey⟩
      · rw [hfind, Option.bind_eq_bind, Option.bind_some]
        dsimp only
        refine ⟨none, d', ?_, hkept, fun _ ↦ hsize', fun e he ↦ absurd he (by simp), fun _ ↦ hno⟩
        split
        · next hr => rw [hfind' hr]; rfl
        · rfl

omit [DecidableEq κ] in
/-- An index in a table is cut to an `int` without loss. -/
theorem HtWf.bmod_indexOf {ht : Dictht κ ν} (h : HtWf hash ht) (hsize : ht.size ≠ 0) (key : κ) :
    Int.bmod (indexOf hash ht key) 4294967296 = indexOf hash ht key := by
  have hlt := (h.isSize hsize).and_lt (hash key)
  have hle := (h.isSize hsize).le
  rw [← h.mask_eq] at hlt
  have hindex : indexOf hash ht key < 2147483648 := lt_of_lt_of_le hlt hle
  apply Int.bmod_eq_of_le_mul_two <;> omega

theorem dictKeyIndex_spec (h : Wf hash d) (hfew : dictSize d < 1073741824) (canResize : Bool) (key : κ) :
    ∃ index d', dictKeyIndex hash canResize d key = some (index, d') ∧ Kept hash d d' ∧
      d'.ht0.size ≠ 0 ∧
      ((index = -1 ∧ ∃ e ∈ entries d', key = e.1) ∨
        ((∀ e ∈ entries d', key ≠ e.1) ∧
          index = if isRehashing d' then indexOf hash d'.ht1 key else indexOf hash d'.ht0 key)) := by
  obtain ⟨d', hexpand, hkept, hsize⟩ := dictExpandIfNeeded_spec h hfew canResize
  have hne : ¬ dictOk = dictErr := by decide
  rw [dictKeyIndex, hexpand, Option.bind_eq_bind, Option.bind_some]
  dsimp only
  rw [if_neg hne]
  rcases search_cases hkept.wf hsize key with ⟨e, hfind, hmem, hkey⟩ |
    ⟨e, hfind, hr, hfind', hmem, hkey⟩ | ⟨hfind, hfind', hno⟩
  · rw [hfind]
    exact ⟨-1, d', rfl, hkept, hsize, .inl ⟨rfl, e, List.mem_append_left _ hmem, hkey⟩⟩
  · rw [hfind, Option.bind_eq_bind, Option.bind_some]
    dsimp only
    rw [if_pos hr, hfind']
    exact ⟨-1, d', rfl, hkept, hsize, .inl ⟨rfl, e, List.mem_append_right _ hmem, hkey⟩⟩
  · rw [hfind, Option.bind_eq_bind, Option.bind_some]
    dsimp only
    split
    · next hr =>
        rw [hfind' hr, Option.bind_some]
        dsimp only
        rw [hkept.wf.ht1.bmod_indexOf (hkept.wf.moving hr).size1]
        exact ⟨_, d', rfl, hkept, hsize, .inr ⟨hno, by rw [if_pos hr]⟩⟩
    · next hr =>
        rw [hkept.wf.ht0.bmod_indexOf hsize]
        exact ⟨_, d', rfl, hkept, hsize, .inr ⟨hno, by rw [if_neg hr]⟩⟩

/-- The dictionary with one entry more. -/
structure Added (hash : κ → ℕ) (d d' : DictT κ ν) (entry : κ × ν) : Prop where
  wf : Wf hash d'
  fresh : ∀ e ∈ entries d, entry.1 ≠ e.1
  perm : (entries d').Perm (entry :: entries d)
  iterators_eq : d'.iterators = d.iterators

omit [DecidableEq κ] in
/-- Keys stay apart when a new one is added. -/
theorem nodup_added (h : Wf hash d) {entry : κ × ν} {l : List (κ × ν)}
    (hfresh : ∀ e ∈ entries d, entry.1 ≠ e.1) (hperm : l.Perm (entry :: entries d)) :
    (l.map Prod.fst).Nodup := by
  rw [(hperm.map Prod.fst).nodup_iff, List.map_cons, List.nodup_cons]
  refine ⟨fun hmem ↦ ?_, h.nodup⟩
  obtain ⟨e, he, heq⟩ := List.mem_map.mp hmem
  exact hfresh e he heq.symm

theorem dictAdd_spec (h : Wf hash d) (hfew : dictSize d < 1073741824) (canResize : Bool) (key : κ)
    (val : ν) :
    ∃ ret d', dictAdd hash canResize d key val = some (ret, d') ∧
      ((ret = dictErr ∧ Kept hash d d' ∧ ∃ e ∈ entries d, key = e.1) ∨
        (ret = dictOk ∧ Added hash d d' (key, val))) := by
  obtain ⟨d₁, hstep, hkept₁⟩ := dictRehashStep_spec h
  have hsize₁ : dictSize d₁ = dictSize d := by
    rw [hkept₁.wf.size_eq, h.size_eq, hkept₁.perm.length_eq]
  obtain ⟨index, d₂, hindex, hkept₂, hsize, hcases⟩ :=
    dictKeyIndex_spec hkept₁.wf (by omega) canResize key
  have hkept := hkept₁.trans hkept₂
  have hwf := hkept.wf
  have hused := hwf.used_lt
  have hcount : dictSize d₂ < 1073741824 := by
    rw [hwf.size_eq, hkept.perm.length_eq, ← h.size_eq]
    exact hfew
  rw [dictAdd, hstep, Option.bind_eq_bind, Option.bind_some, hindex, Option.bind_eq_bind,
    Option.bind_some]
  dsimp only
  rcases hcases with ⟨hminus, e, he, hkey⟩ | ⟨hno, hnum⟩
  · rw [if_pos hminus]
    exact ⟨dictErr, d₂, rfl, .inl ⟨rfl, hkept, e, hkept.perm.mem_iff.mp he, hkey⟩⟩
  · have hfresh : ∀ e ∈ entries d, key ≠ e.1 := fun e he ↦ hno e (hkept.perm.mem_iff.mpr he)
    have hlength : ∀ l, List.Perm l ((key, val) :: entries d₂) → l.length ≤ 1073741824 := by
      intro l hl
      rw [hl.length_eq, List.length_cons, ← hwf.size_eq]
      omega
    by_cases hr : isRehashing d₂
    · rw [if_pos hr] at hnum
      obtain ⟨ht1', hpush, hht, hsz, -, hperm⟩ :=
        hwf.ht1.pushEntry (hwf.moving hr).size1 (by omega) (key, val)
      rw [if_neg (by omega), if_neg (by omega), if_pos hr, hnum, Int.toNat_natCast, hpush]
      have hall : (entries { d₂ with ht1 := ht1' }).Perm ((key, val) :: entries d₂) :=
        (hperm.append_left _).trans List.perm_middle
      exact ⟨dictOk, _, rfl, .inr ⟨rfl,
        hwf.change1 hr hht hsz (nodup_added hwf hno hall) (hlength _ hall), hfresh,
        hall.trans (hkept.perm.cons _), hkept.iterators_eq⟩⟩
    · rw [if_neg hr] at hnum
      obtain ⟨ht0', hpush, hht, hsz, -, hperm⟩ := hwf.ht0.pushEntry hsize (by omega) (key, val)
      rw [if_neg (by omega), if_neg (by omega), if_neg hr, hnum, Int.toNat_natCast, hpush]
      have hall : (entries { d₂ with ht0 := ht0' }).Perm ((key, val) :: entries d₂) :=
        hperm.append_right _
      exact ⟨dictOk, _, rfl, .inr ⟨rfl,
        hwf.change0 hht hsz (fun hf ↦ absurd hf hr) (nodup_added hwf hno hall) (hlength _ hall), hfresh,
        hall.trans (hkept.perm.cons _), hkept.iterators_eq⟩⟩

/-- The dictionary without the entry of a key. -/
structure Deleted (hash : κ → ℕ) (d d' : DictT κ ν) (key : κ) : Prop where
  wf : Wf hash d'
  perm : ∃ val, (entries d).Perm ((key, val) :: entries d')
  iterators_eq : d'.iterators = d.iterators

omit [DecidableEq κ] in
/-- What is left of the entries is in order. -/
theorem deleted_fits (h : Wf hash d) {e : κ × ν} {l : List (κ × ν)} (hperm : (entries d).Perm (e :: l)) :
    (l.map Prod.fst).Nodup ∧ l.length ≤ 1073741824 := by
  have hnodup := h.nodup
  have hfew := h.few
  rw [(hperm.map Prod.fst).nodup_iff, List.map_cons] at hnodup
  rw [h.size_eq, hperm.length_eq, List.length_cons] at hfew
  exact ⟨(List.nodup_cons.mp hnodup).2, by omega⟩

theorem dictDelete_spec (h : Wf hash d) (key : κ) :
    ∃ ret d', dictDelete hash d key = some (ret, d') ∧
      ((ret = dictErr ∧ Kept hash d d' ∧ ∀ e ∈ entries d, key ≠ e.1) ∨
        (ret = dictOk ∧ Deleted hash d d' key)) := by
  rw [dictDelete]
  split
  · next hzero =>
      refine ⟨dictErr, d, rfl, .inl ⟨rfl, .refl h, fun e he ↦ ?_⟩⟩
      rw [h.entries_nil hzero] at he
      exact absurd he (by simp)
  · next hsize =>
      obtain ⟨d', hstep, hkept⟩ := dictRehashStep_spec h
      have hwf := hkept.wf
      have hused := hwf.used_lt
      rw [hstep, Option.bind_eq_bind, Option.bind_some]
      rcases hwf.ht0.deleteIn (hkept.sized hsize) (by omega) key with
        ⟨ht0', ⟨_, val⟩, hdel, rfl, hht, hsz, hflat, hempty⟩ | ⟨hdel, hno0⟩
      · rw [hdel]
        have hperm : (entries d').Perm ((key, val) :: entries { d' with ht0 := ht0' }) :=
          hflat.append_right _
        obtain ⟨hnodup, hfew⟩ := deleted_fits hwf hperm
        exact ⟨dictOk, _, rfl, .inr ⟨rfl, hwf.change0 hht hsz (fun _ ↦ hempty) hnodup hfew,
          ⟨val, hkept.perm.symm.trans hperm⟩, hkept.iterators_eq⟩⟩
      · rw [hdel, Option.bind_eq_bind, Option.bind_some]
        dsimp only
        rw [if_neg Bool.false_ne_true]
        by_cases hr : isRehashing d'
        · rw [if_pos hr]
          rcases hwf.ht1.deleteIn (hwf.moving hr).size1 (by omega) key with
            ⟨ht1', ⟨_, val⟩, hdel, rfl, hht, hsz, hflat, -⟩ | ⟨hdel, hno1⟩
          · rw [hdel]
            have hperm : (entries d').Perm ((key, val) :: entries { d' with ht1 := ht1' }) :=
              (hflat.append_left _).trans List.perm_middle
            obtain ⟨hnodup, hfew⟩ := deleted_fits hwf hperm
            exact ⟨dictOk, _, rfl, .inr ⟨rfl, hwf.change1 hr hht hsz hnodup hfew,
              ⟨val, hkept.perm.symm.trans hperm⟩, hkept.iterators_eq⟩⟩
          · rw [hdel]
            refine ⟨dictErr, d', rfl, .inl ⟨rfl, hkept, fun e he ↦ ?_⟩⟩
            rcases List.mem_append.mp (hkept.perm.mem_iff.mpr he) with h0 | h1
            · exact hno0 e h0
            · exact hno1 e h1
        · rw [if_neg hr]
          refine ⟨dictErr, d', rfl, .inl ⟨rfl, hkept, fun e he ↦ hno0 e ?_⟩⟩
          rw [← hwf.reset_entries hr]
          exact hkept.perm.mem_iff.mpr he

/-- The dictionary with another value for a key. -/
structure Replaced (hash : κ → ℕ) (d d' : DictT κ ν) (key : κ) (val : ν) : Prop where
  wf : Wf hash d'
  perm : ∃ old l, (entries d).Perm ((key, old) :: l) ∧ (entries d').Perm ((key, val) :: l)
  iterators_eq : d'.iterators = d.iterators

omit [DecidableEq κ] in
/-- Entries that differ in one value are in order together. -/
theorem replaced_fits (h : Wf hash d) {key : κ} {old val : ν} {l l' : List (κ × ν)}
    (hold : (entries d).Perm ((key, old) :: l)) (hnew : l'.Perm ((key, val) :: l)) :
    (l'.map Prod.fst).Nodup ∧ l'.length ≤ 1073741824 := by
  have hnodup := h.nodup
  have hfew := h.few
  rw [(hold.map Prod.fst).nodup_iff] at hnodup
  rw [h.size_eq, hold.length_eq] at hfew
  rw [(hnew.map Prod.fst).nodup_iff, hnew.length_eq]
  exact ⟨hnodup, hfew⟩

theorem setEntry_spec (h : Wf hash d) (hsize : d.ht0.size ≠ 0) {key : κ}
    (hkey : ∃ e ∈ entries d, key = e.1) (val : ν) :
    ∃ d', setEntry hash d key val = some d' ∧ Replaced hash d d' key val := by
  rw [setEntry]
  rcases search_cases h hsize key with ⟨e, hfind, hmem, heq⟩ | ⟨e, hfind, hr, -, hmem, heq⟩ |
    ⟨-, -, hno⟩
  · obtain ⟨ht0', ⟨_, old⟩, l, hset, rfl, hht, hsz, hflat, hflat', hempty⟩ :=
      h.ht0.setIn ⟨e, hmem, heq⟩ val
    rw [hfind, Option.bind_eq_bind, Option.bind_some, hset]
    have hold : (entries d).Perm ((key, old) :: (l ++ d.ht1.table.flatten)) := hflat.append_right _
    have hnew : (entries { d with ht0 := ht0' }).Perm ((key, val) :: (l ++ d.ht1.table.flatten)) :=
      hflat'.append_right _
    obtain ⟨hnodup, hfew⟩ := replaced_fits h hold hnew
    exact ⟨_, rfl, h.change0 hht hsz (fun _ ↦ hempty) hnodup hfew, ⟨old, _, hold, hnew⟩, rfl⟩
  · obtain ⟨ht1', ⟨_, old⟩, l, hset, rfl, hht, hsz, hflat, hflat', -⟩ :=
      h.ht1.setIn ⟨e, hmem, heq⟩ val
    rw [hfind, Option.bind_eq_bind, Option.bind_some]
    dsimp only
    rw [hset]
    have hold : (entries d).Perm ((key, old) :: (d.ht0.table.flatten ++ l)) :=
      (hflat.append_left _).trans List.perm_middle
    have hnew : (entries { d with ht1 := ht1' }).Perm ((key, val) :: (d.ht0.table.flatten ++ l)) :=
      (hflat'.append_left _).trans List.perm_middle
    obtain ⟨hnodup, hfew⟩ := replaced_fits h hold hnew
    exact ⟨_, rfl, h.change1 hr hht hsz hnodup hfew, ⟨old, _, hold, hnew⟩, rfl⟩
  · obtain ⟨e, he, heq⟩ := hkey
    exact absurd heq (hno e he)

theorem dictReplace_spec (h : Wf hash d) (hfew : dictSize d < 1073741824) (canResize : Bool) (key : κ)
    (val : ν) :
    ∃ ret d', dictReplace hash canResize d key val = some (ret, d') ∧
      ((ret = 1 ∧ Added hash d d' (key, val)) ∨ (ret = 0 ∧ Replaced hash d d' key val)) := by
  obtain ⟨ret, d₁, hadd, hcases⟩ := dictAdd_spec h hfew canResize key val
  rw [dictReplace, hadd, Option.bind_eq_bind, Option.bind_some]
  dsimp only
  rcases hcases with ⟨rfl, hkept, hkey⟩ | ⟨rfl, hadded⟩
  · rw [if_neg (by decide)]
    obtain ⟨he, d₂, hfind, hkept', hsize, hsome, hnone⟩ := dictFind_spec hkept.wf key
    have hkept₂ := hkept.trans hkept'
    have hkey₂ : ∃ e ∈ entries d₂, key = e.1 := by
      obtain ⟨e, hmem, heq⟩ := hkey
      exact ⟨e, hkept₂.perm.mem_iff.mpr hmem, heq⟩
    cases he with
    | none =>
        obtain ⟨e, hmem, heq⟩ := hkey₂
        exact absurd heq (hnone rfl e hmem)
    | some e =>
        obtain ⟨d', hset, hreplaced⟩ := setEntry_spec hkept₂.wf (hsize (by simp)) hkey₂ val
        rw [hfind, Option.bind_eq_bind, Option.bind_some]
        dsimp only
        rw [hset]
        obtain ⟨old, l, hold, hnew⟩ := hreplaced.perm
        exact ⟨0, d', rfl, .inr ⟨rfl, hreplaced.wf, ⟨old, l, hkept₂.perm.symm.trans hold, hnew⟩,
          hreplaced.iterators_eq.trans hkept₂.iterators_eq⟩⟩
  · rw [if_pos rfl]
    exact ⟨1, d₁, rfl, .inl ⟨rfl, hadded⟩⟩

omit [DecidableEq κ] in
theorem dictResize_spec (h : Wf hash d) (canResize : Bool) :
    ∃ ret d', dictResize canResize d = some (ret, d') ∧ Kept hash d d' := by
  have hused := h.used_lt
  rw [dictResize]
  split
  · exact ⟨dictErr, d, rfl, .refl h⟩
  · have hminimal : Int.bmod d.ht0.used 4294967296 = d.ht0.used := by
      apply Int.bmod_eq_of_le_mul_two <;> omega
    rw [hminimal]
    dsimp only
    obtain ⟨ret, d', hexpand, hkept, -⟩ := dictExpand_spec h
      (show ((if (d.ht0.used : ℤ) < initialSize then (initialSize : ℤ) else d.ht0.used) %
        18446744073709551616).toNat ≤ 2147483648 by
          rw [initialSize]
          split <;> omega)
    exact ⟨ret, d', hexpand, hkept⟩

end CPractice.Dict
