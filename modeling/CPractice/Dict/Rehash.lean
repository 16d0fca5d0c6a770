import CPractice.Dict.Tables
import Mathlib.Data.List.Nodup

/-!
# Growing and rehashing

The invariant of a dictionary: two tables in order, no key twice in them, and while it is rehashing no
entry in the buckets of the first table below `rehashidx`.  Rehashing keeps the entries up to order.
-/

namespace CPractice.Dict

open Lib

variable {κ ν : Type} {hash : κ → ℕ} {d d' : DictT κ ν}

/-- The entries of both tables. -/
def entries (d : DictT κ ν) : List (κ × ν) := d.ht0.table.flatten ++ d.ht1.table.flatten

/-- The buckets below an index are empty. -/
def EmptyBelow (table : List (List (κ × ν))) (idx : ℕ) : Prop := ∀ i < idx, ∀ b, table[i]? = some b → b = []

/-- A dictionary in the middle of rehashing. -/
structure Moving (d : DictT κ ν) : Prop where
  idx_nonneg : 0 ≤ d.rehashidx
  idx_le : d.rehashidx ≤ d.ht0.size
  size0 : d.ht0.size ≠ 0
  size1 : d.ht1.size ≠ 0
  below : EmptyBelow d.ht0.table d.rehashidx.toNat

structure Wf (hash : κ → ℕ) (d : DictT κ ν) : Prop where
  ht0 : HtWf hash d.ht0
  ht1 : HtWf hash d.ht1
  moving : isRehashing d → Moving d
  alone : ¬ isRehashing d → d.ht1 = dictReset
  nodup : ((entries d).map Prod.fst).Nodup
  few : dictSize d ≤ 1073741824

theorem Wf.size_eq (h : Wf hash d) : dictSize d = (entries d).length := by
  rw [dictSize, entries, List.length_append, h.ht0.used_eq, h.ht1.used_eq]

theorem wf_create : Wf hash (dictCreate : DictT κ ν) :=
  ⟨htWf_reset, htWf_reset, fun h ↦ absurd rfl h, fun _ ↦ rfl, List.nodup_nil, Nat.zero_le _⟩

/-! ## The size of a table -/

theorem nextPowerLoop_spec {size : ℕ} (hsize : size ≤ 2147483648) (turns k : ℕ) (hk : 2 ≤ k)
    (hle : k ≤ 31) (hturns : 31 < k + turns) :
    ∃ n, nextPowerLoop size (2 ^ k) turns = some n ∧ IsSize n ∧ size ≤ n := by
  induction turns generalizing k with
  | zero => omega
  | succ turns ih =>
      rw [nextPowerLoop]
      split
      · next hge => exact ⟨2 ^ k, rfl, ⟨k, hk, hle, rfl⟩, hge⟩
      · next hlt =>
          have hpow : 2 ^ (k + 1) = 2 ^ k * 2 := Nat.pow_succ 2 k
          have hk31 : k ≠ 31 := by
            rintro rfl
            exact hlt hsize
          have hbound : 2 ^ (k + 1) ≤ 2147483648 := IsSize.le ⟨k + 1, by omega, by omega, rfl⟩
          rw [u8_of_lt (by omega), ← hpow]
          exact ih (k + 1) (by omega) (by omega) (by omega)

theorem dictNextPower_spec {size : ℕ} (hsize : size ≤ 2147483648) :
    ∃ n, dictNextPower size = some n ∧ IsSize n ∧ size ≤ n := by
  have hlong : ¬ size ≥ longMax := by
    rw [longMax]
    omega
  rw [dictNextPower, if_neg hlong]
  exact nextPowerLoop_spec hsize 64 2 (by decide) (by decide) (by decide)

/-- What a call that only moves entries leaves. -/
structure Kept (hash : κ → ℕ) (d d' : DictT κ ν) : Prop where
  wf : Wf hash d'
  perm : (entries d').Perm (entries d)
  iterators_eq : d'.iterators = d.iterators
  sized : d.ht0.size ≠ 0 → d'.ht0.size ≠ 0

theorem Kept.refl (h : Wf hash d) : Kept hash d d := ⟨h, List.Perm.refl _, rfl, fun hne ↦ hne⟩

theorem Kept.trans {d'' : DictT κ ν} (h : Kept hash d d') (h' : Kept hash d' d'') : Kept hash d d'' :=
  ⟨h'.wf, h'.perm.trans h.perm, h'.iterators_eq.trans h.iterators_eq,
    fun hne ↦ h'.sized (h.sized hne)⟩

theorem Wf.reset_entries (h : Wf hash d) (hidle : ¬ isRehashing d) : entries d = d.ht0.table.flatten := by
  rw [entries, h.alone hidle]
  exact List.append_nil _

/-- `dictExpand` changes nothing, sets the first table, or begins to rehash. -/
theorem dictExpand_spec (h : Wf hash d) {size : ℕ} (hsize : size ≤ 2147483648) :
    ∃ ret d', dictExpand d size = some (ret, d') ∧ Kept hash d d' ∧
      (ret = dictErr → isRehashing d ∨ size < d.ht0.used ∨ size ≤ d.ht0.size) ∧
      (ret = dictErr ∨ ret = dictOk ∧ d'.ht0.size ≠ 0) := by
  obtain ⟨n, hpower, hn, hle⟩ := dictNextPower_spec hsize
  have hnle := hn.le
  rw [dictExpand, hpower, Option.bind_eq_bind, Option.bind_some]
  by_cases hbusy : isRehashing d ∨ d.ht0.used > size
  · rw [if_pos hbusy]
    refine ⟨dictErr, d, rfl, .refl h, fun _ ↦ ?_, .inl rfl⟩
    exact hbusy.imp_right .inl
  · rw [if_neg hbusy]
    have hidle : ¬ isRehashing d := fun hr ↦ hbusy (.inl hr)
    by_cases hsame : n = d.ht0.size
    · rw [if_pos hsame]
      exact ⟨dictErr, d, rfl, .refl h, fun _ ↦ .inr (.inr (hsame ▸ hle)), .inl rfl⟩
    · rw [if_neg hsame, if_neg (by omega)]
      have hzero : d.ht1.used = 0 := by
        rw [h.alone hidle]
        rfl
      have hreset := h.reset_entries hidle
      have hfew := h.few
      have hnodup := h.nodup
      rw [dictSize, hzero, Nat.add_zero] at hfew
      by_cases hnull : d.ht0.table.isEmpty = true
      · rw [if_pos hnull]
        rw [hreset, List.isEmpty_iff.mp hnull] at hnodup
        have hentries : ∀ n, entries ({ d with ht0 := ⟨List.replicate n [], n, n - 1, 0⟩ } : DictT κ ν) = [] := by
          intro n
          rw [entries, h.alone hidle, List.flatten_replicate_nil]
          rfl
        refine ⟨dictOk, _, rfl, ⟨⟨htWf_fresh hn, h.ht1, fun hr ↦ absurd hr hidle, h.alone, ?_, ?_⟩, ?_, rfl,
          fun _ ↦ hn.pos.ne'⟩,
          fun hr ↦ absurd hr (by decide), .inr ⟨rfl, hn.pos.ne'⟩⟩
        · rw [hentries]
          exact List.nodup_nil
        · rw [dictSize, hzero]
          exact Nat.zero_le _
        · rw [hentries, hreset, List.isEmpty_iff.mp hnull]
          exact List.Perm.nil
      · rw [if_neg hnull]
        have hpos : d.ht0.size ≠ 0 := by
          intro hz
          apply hnull
          rw [List.isEmpty_iff, ← List.length_eq_zero_iff, h.ht0.length_eq, hz]
        have hentries : ∀ n, entries ({ d with
            ht1 := ⟨List.replicate n [], n, n - 1, 0⟩, rehashidx := 0 } : DictT κ ν) = entries d := by
          intro n
          rw [hreset, entries, List.flatten_replicate_nil, List.append_nil]
        refine ⟨dictOk, _, rfl, ⟨⟨h.ht0, htWf_fresh hn, fun _ ↦ ?_, fun hr ↦ ?_, ?_, ?_⟩, ?_, rfl,
          fun _ ↦ hpos⟩, fun hr ↦ absurd hr (by decide), .inr ⟨rfl, hpos⟩⟩
        · exact ⟨le_refl _, Int.natCast_nonneg _, hpos, hn.pos.ne', fun i hi ↦ absurd hi (by simp)⟩
        · exact absurd (show (0 : ℤ) ≠ -1 by decide) hr
        · rw [hentries]
          exact h.nodup
        · exact hfew
        · rw [hentries]

theorem dictExpandIfNeeded_spec (h : Wf hash d) (hfew : dictSize d < 1073741824) (canResize : Bool) :
    ∃ d', dictExpandIfNeeded canResize d = some (dictOk, d') ∧ Kept hash d d' ∧ d'.ht0.size ≠ 0 := by
  have hle : d.ht0.used ≤ dictSize d := Nat.le_add_right _ _
  rw [dictExpandIfNeeded]
  split
  · next hr => exact ⟨d, rfl, .refl h, (h.moving hr).size0⟩
  · next hidle =>
      -- an expansion that is asked for is made
      have hexpand : ∀ size ≤ 2147483648, d.ht0.used ≤ size → d.ht0.size < size →
          ∃ d', dictExpand d size = some (dictOk, d') ∧ Kept hash d d' ∧ d'.ht0.size ≠ 0 := by
        intro size hsize hused hlt
        obtain ⟨ret, d', hexpand, hkept, herr, hok⟩ := dictExpand_spec h hsize
        rcases hok with hret | ⟨rfl, hne⟩
        · rcases herr hret with hr | hless | hless
          · exact absurd hr hidle
          · omega
          · omega
        · exact ⟨d', hexpand, hkept, hne⟩
      split
      · next hzero =>
          have hused : d.ht0.used = 0 := by
            have hnil : d.ht0.table = [] := by
              rw [← List.length_eq_zero_iff, h.ht0.length_eq, hzero]
            rw [h.ht0.used_eq, hnil]
            rfl
          exact hexpand initialSize (by decide) (by rw [hused]; exact Nat.zero_le _)
            (by rw [hzero]; decide)
      · next hne =>
          split
          · next hfull =>
              rw [u8_of_lt (by omega)]
              exact hexpand _ (by omega) (by omega) (by omega)
          · exact ⟨d, rfl, .refl h, hne⟩

/-! ## Rehashing -/

/-- The loop over empty buckets stops at the first that is not, or before it. -/
theorem skipEmpty_spec {table : List (List (κ × ν))} {j : ℕ} {b : List (κ × ν)}
    (hj : table[j]? = some b) (hb : b ≠ []) (visits idx : ℕ) (hbelow : EmptyBelow table idx) :
    ∃ idx' visits', skipEmpty table idx visits = some (idx', visits') ∧ idx ≤ idx' ∧ idx' ≤ j ∧
      EmptyBelow table idx' ∧ (visits' ≠ 0 → ∃ e b, table[idx']? = some (e :: b)) ∧
      (visits' = 0 → idx' = idx + visits) := by
  have hidx : idx ≤ j := by
    by_contra hlt
    exact hb (hbelow j (Nat.not_le.mp hlt) b hj)
  induction visits generalizing idx with
  | zero => exact ⟨idx, 0, rfl, le_refl _, hidx, hbelow, fun h ↦ absurd rfl h, fun _ ↦ rfl⟩
  | succ visits ih =>
      have hlt : idx < table.length := lt_of_le_of_lt hidx (List.getElem?_eq_some_iff.mp hj).1
      cases hbucket : table[idx] with
      | nil =>
          have hget : table[idx]? = some [] := by rw [List.getElem?_eq_getElem hlt, hbucket]
          have hne : idx ≠ j := by
            rintro rfl
            rw [hget] at hj
            exact hb (Option.some.inj hj).symm
          have hbelow' : EmptyBelow table (idx + 1) := by
            intro i hi c hc
            rcases Nat.lt_or_eq_of_le (Nat.le_of_lt_succ hi) with hlt | rfl
            · exact hbelow i hlt c hc
            · rw [hget] at hc
              exact (Option.some.inj hc).symm
          obtain ⟨idx', visits', hskip, hle, hlej, hempty, hfound, hgave⟩ :=
            ih (idx + 1) hbelow' (by omega)
          refine ⟨idx', visits', ?_, by omega, hlej, hempty, hfound, fun hz ↦ by rw [hgave hz]; omega⟩
          rw [skipEmpty, hget]
          exact hskip
      | cons e rest =>
          have hget : table[idx]? = some (e :: rest) := by rw [List.getElem?_eq_getElem hlt, hbucket]
          refine ⟨idx, visits + 1, ?_, le_refl _, hidx, hbelow, fun _ ↦ ⟨e, rest, hget⟩,
            fun hz ↦ absurd hz (by omega)⟩
          rw [skipEmpty, hget]

theorem HtWf.exists_nonempty {ht : Dictht κ ν} (h : HtWf hash ht) (hused : ht.used ≠ 0) :
    ∃ (j : ℕ) (b : List (κ × ν)), ht.table[j]? = some b ∧ b ≠ [] := by
  rw [h.used_eq, Ne, List.length_eq_zero_iff] at hused
  obtain ⟨e, he⟩ := List.exists_mem_of_ne_nil _ hused
  obtain ⟨b, hb, hmem⟩ := h.placed.mem_iff.mp he
  exact ⟨_, b, hb, List.ne_nil_of_mem hmem⟩

/-- The index of the next bucket to be moved. -/
theorem Moving.with_idx (hm : Moving d) {idx : ℕ} (hle : idx ≤ d.ht0.size)
    (hbelow : EmptyBelow d.ht0.table idx) : Moving { d with rehashidx := idx } :=
  ⟨Int.natCast_nonneg _, Int.ofNat_le.mpr hle, hm.size0, hm.size1, by rwa [Int.toNat_natCast]⟩

theorem Wf.with_idx (h : Wf hash d) {idx : ℤ} (hm : Moving { d with rehashidx := idx }) :
    Wf hash { d with rehashidx := idx } := by
  refine ⟨h.ht0, h.ht1, fun _ ↦ hm, fun hr ↦ ?_, h.nodup, h.few⟩
  have hne : idx ≠ -1 := by
    have hnonneg := hm.idx_nonneg
    dsimp only at hnonneg
    omega
  exact absurd hne hr

theorem EmptyBelow.clear {table : List (List (κ × ν))} {idx : ℕ} (h : EmptyBelow table idx) :
    EmptyBelow (table.set idx []) (idx + 1) := by
  intro i hi b hb
  rw [List.getElem?_set] at hb
  split at hb
  · split at hb
    · exact (Option.some.inj hb).symm
    · cases hb
  · exact h i (by omega) b hb

/-- One bucket is moved. -/
theorem move_spec (h : Wf hash d) (hm : Moving d) {idx : ℕ} {bucket : List (κ × ν)}
    (hbelow : EmptyBelow d.ht0.table idx) (hbucket : d.ht0.table[idx]? = some bucket) :
    ∃ ht0' ht1', moveBucket hash d.ht0 d.ht1 bucket = some (ht0', ht1') ∧ ht0'.size = d.ht0.size ∧
      Kept hash d { d with
        ht0 := { ht0' with table := ht0'.table.set idx [] }
        ht1 := ht1'
        rehashidx := idx + 1 } := by
  have hclear := flatten_clear hbucket
  have hlength := hclear.length_eq
  rw [List.length_append, ← h.ht0.used_eq] at hlength
  have hfew := h.few
  rw [dictSize] at hfew
  obtain ⟨ht1', hmove, hwf, hsize, hused, hperm⟩ :=
    h.ht1.moveBucket hm.size1 bucket (by omega : bucket.length ≤ d.ht0.used) (by omega)
  have hidx : idx < d.ht0.size := by
    rw [← h.ht0.length_eq]
    exact (List.getElem?_eq_some_iff.mp hbucket).1
  have hall : ((d.ht0.table.set idx []).flatten ++ ht1'.table.flatten).Perm (entries d) := by
    calc ((d.ht0.table.set idx []).flatten ++ ht1'.table.flatten).Perm
          ((d.ht0.table.set idx []).flatten ++ (bucket ++ d.ht1.table.flatten)) := hperm.append_left _
      _ = ((d.ht0.table.set idx []).flatten ++ bucket) ++ d.ht1.table.flatten :=
          (List.append_assoc _ _ _).symm
      (((d.ht0.table.set idx []).flatten ++ bucket) ++ d.ht1.table.flatten).Perm (entries d) :=
          hclear.append_right _
  refine ⟨_, ht1', hmove, rfl, ⟨⟨?_, hwf, fun _ ↦ ?_, fun hr ↦ ?_, ?_, ?_⟩, hall, rfl,
    fun hne ↦ hne⟩⟩
  · refine h.ht0.set (fun he hmem ↦ absurd hmem (by simp)) ?_
    dsimp only
    omega
  · refine ⟨?_, ?_, hm.size0, by rw [hsize]; exact hm.size1, ?_⟩
    · dsimp only
      omega
    · dsimp only
      omega
    · exact hbelow.clear
  · exact absurd (show (idx : ℤ) + 1 ≠ -1 by omega) hr
  · exact ((hall.map Prod.fst).nodup_iff).mpr h.nodup
  · rw [dictSize]
    dsimp only
    omega

/-- The loop of `dictRehash` keeps the entries, and goes on if it has something to do. -/
theorem rehashLoop_spec (h : Wf hash d) (hr : isRehashing d) (visits n : ℕ) :
    ∃ returned d', rehashLoop hash d visits n = some (returned, d') ∧ Kept hash d d' ∧
      isRehashing d' ∧ d'.ht0.size = d.ht0.size ∧ d.rehashidx ≤ d'.rehashidx ∧
      (n ≠ 0 → visits ≠ 0 → d.ht0.used ≠ 0 → d.rehashidx < d'.rehashidx) ∧
      (returned = true → d'.ht0.used ≠ 0) := by
  induction n generalizing d visits with
  | zero =>
      exact ⟨false, d, rfl, .refl h, hr, rfl, le_refl _, fun hn ↦ absurd rfl hn, fun hf ↦ absurd hf (by simp)⟩
  | succ n ih =>
      rw [rehashLoop]
      split
      · next hzero =>
          exact ⟨false, d, rfl, .refl h, hr, rfl, le_refl _, fun _ _ hne ↦ absurd hzero hne,
            fun hf ↦ absurd hf (by simp)⟩
      · next hused =>
          have hm := h.moving hr
          have hidx := hm.idx_nonneg
          obtain ⟨j, b, hj, hb⟩ := h.ht0.exists_nonempty hused
          obtain ⟨idx', visits', hskip, hle, hlej, hbelow, hfound, hgave⟩ :=
            skipEmpty_spec hj hb visits d.rehashidx.toNat hm.below
          have hjlt : j < d.ht0.size := by
            rw [← h.ht0.length_eq]
            exact (List.getElem?_eq_some_iff.mp hj).1
          rw [hskip, Option.bind_eq_bind, Option.bind_some]
          dsimp only
          split
          · next hz =>
              have hm' : Moving { d with rehashidx := (idx' : ℤ) } := hm.with_idx (by omega) hbelow
              have hgone := hgave hz
              refine ⟨true, _, rfl, ⟨h.with_idx hm', List.Perm.refl _, rfl, fun hne ↦ hne⟩, ?_, rfl, ?_,
                fun _ hv _ ↦ ?_, fun _ ↦ hused⟩
              · exact show (idx' : ℤ) ≠ -1 by omega
              · dsimp only
                omega
              · dsimp only
                omega
          · next hz =>
              obtain ⟨e, rest, hbucket⟩ := hfound hz
              obtain ⟨ht0', ht1', hmove, hsize, hkept⟩ := move_spec h hm hbelow hbucket
              have hr' : isRehashing ({ d with
                  ht0 := { ht0' with table := ht0'.table.set idx' [] }
                  ht1 := ht1'
                  rehashidx := idx' + 1 } : DictT κ ν) := show (idx' : ℤ) + 1 ≠ -1 by omega
              obtain ⟨returned, d', hloop, hkept', hr'', hsize', hidx', -, hret⟩ :=
                ih hkept.wf hr' visits'
              rw [hbucket, Option.bind_eq_bind, Option.bind_some, hmove, Option.bind_eq_bind,
                Option.bind_some]
              dsimp only at hidx' hsize'
              exact ⟨returned, d', hloop, hkept.trans hkept', hr'', hsize'.trans hsize, by omega,
                fun _ _ _ ↦ by omega, hret⟩

theorem rehashLoop_stay (hzero : d.ht0.used = 0) (visits n : ℕ) :
    rehashLoop hash d visits n = some (false, d) := by
  cases n with
  | zero => rfl
  | succ n => rw [rehashLoop, if_pos hzero]

/-- Where the first table is empty the second takes its place. -/
theorem Wf.finish (h : Wf hash d) (hr : isRehashing d) (hzero : d.ht0.used = 0) :
    Kept hash d { d with ht0 := d.ht1, ht1 := dictReset, rehashidx := -1 } := by
  have hnil : d.ht0.table.flatten = [] := by
    rw [← List.length_eq_zero_iff, ← h.ht0.used_eq, hzero]
  have hentries : entries { d with ht0 := d.ht1, ht1 := dictReset, rehashidx := -1 } = entries d := by
    rw [entries, entries, hnil]
    exact List.append_nil _
  have hfew := h.few
  rw [dictSize, hzero, Nat.zero_add] at hfew
  refine ⟨⟨h.ht1, htWf_reset, fun hf ↦ absurd rfl hf, fun _ ↦ rfl, ?_, hfew⟩, ?_, rfl,
    fun _ ↦ (h.moving hr).size1⟩
  · rw [hentries]
    exact h.nodup
  · rw [hentries]

/-- `dictRehash` keeps the entries; it returns zero exactly if the dictionary is not rehashing any more, and
otherwise has moved on. -/
theorem dictRehash_spec (h : Wf hash d) (n : ℕ) :
    ∃ ret d', dictRehash hash d n = some (ret, d') ∧ Kept hash d d' ∧
      (ret = 0 ↔ ¬ isRehashing d') ∧
      (n ≠ 0 → isRehashing d' → d'.ht0.size = d.ht0.size ∧ d.rehashidx < d'.rehashidx) := by
  rw [dictRehash]
  split
  · next hr =>
      obtain ⟨returned, d₁, hloop, hkept, hr₁, hsize, -, hmoved, hret⟩ := rehashLoop_spec h hr (n * 10) n
      rw [hloop, Option.bind_eq_bind, Option.bind_some]
      dsimp only
      have hgoing : d₁.ht0.used ≠ 0 → (1 = (0 : ℤ) ↔ ¬ isRehashing d₁) ∧
          (n ≠ 0 → isRehashing d₁ → d₁.ht0.size = d.ht0.size ∧ d.rehashidx < d₁.rehashidx) := by
        intro hused₁
        have hused : d.ht0.used ≠ 0 := by
          intro hzero
          rw [rehashLoop_stay hzero] at hloop
          cases hloop
          exact hused₁ hzero
        exact ⟨iff_of_false (by decide) (not_not_intro hr₁), fun hn _ ↦
          ⟨hsize, hmoved hn (by omega) hused⟩⟩
      by_cases hreturned : returned = true
      · rw [if_pos hreturned]
        exact ⟨1, d₁, rfl, hkept, hgoing (hret hreturned)⟩
      · rw [if_neg hreturned]
        split
        · next hzero =>
            exact ⟨0, _, rfl, hkept.trans (hkept.wf.finish hr₁ hzero), iff_of_true rfl (not_not_intro rfl),
              fun _ hf ↦ absurd rfl hf⟩
        · next hused => exact ⟨1, d₁, rfl, hkept, hgoing hused⟩
  · next hidle => exact ⟨0, d, rfl, .refl h, iff_of_true rfl hidle, fun _ hf ↦ absurd hf hidle⟩

theorem dictRehashStep_spec (h : Wf hash d) :
    ∃ d', dictRehashStep hash d = some d' ∧ Kept hash d d' := by
  rw [dictRehashStep]
  split
  · split
    · obtain ⟨ret, d', hrehash, hkept, -⟩ := dictRehash_spec h 1
      exact ⟨d', by rw [hrehash]; rfl, hkept⟩
    · exact ⟨d, rfl, .refl h⟩
  · exact ⟨d, rfl, .refl h⟩

end CPractice.Dict
