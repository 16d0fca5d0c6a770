import CPractice.Dict.Iterators

/-!
# A dictionary under iteration

While an iterator is under way no bucket is moved.  A call then changes a bucket in the keys that it adds
or deletes and leaves the others in their order.
-/

namespace CPractice.Dict

open Lib

variable {κ ν : Type} [DecidableEq κ] {hash : κ → ℕ} {d d' d'' : DictT κ ν} {iter : DictIterator κ}
  {changed : Set κ} {key k : κ}

/-! ## Buckets that differ in some keys -/

/-- Apart from some keys, a bucket has the same keys behind the same keys. -/
def Apart (changed : Set κ) (l l' : List κ) : Prop :=
  ∀ k ∉ changed, (k ∈ l' ↔ k ∈ l) ∧
    ∀ n ∉ changed, (k ∈ l'.dropWhile (· ≠ n) ↔ k ∈ l.dropWhile (· ≠ n))

theorem Apart.refl (changed : Set κ) (l : List κ) : Apart changed l l :=
  fun _ _ ↦ ⟨Iff.rfl, fun _ _ ↦ Iff.rfl⟩

theorem Apart.trans {l l' l'' : List κ} (h : Apart changed l l') (h' : Apart changed l' l'') :
    Apart changed l l'' :=
  fun k hk ↦ ⟨(h' k hk).1.trans (h k hk).1, fun n hn ↦ ((h' k hk).2 n hn).trans ((h k hk).2 n hn)⟩

theorem Apart.mono {changed' : Set κ} {l l' : List κ} (h : Apart changed l l') (hsub : changed ⊆ changed') :
    Apart changed' l l' :=
  fun k hk ↦ ⟨(h k fun hin ↦ hk (hsub hin)).1,
    fun n hn ↦ (h k fun hin ↦ hk (hsub hin)).2 n fun hin ↦ hn (hsub hin)⟩

theorem apart_cons (hkey : key ∈ changed) (l : List κ) : Apart changed l (key :: l) := by
  intro k hk
  have hne : k ≠ key := fun heq ↦ hk (heq ▸ hkey)
  refine ⟨by rw [List.mem_cons, or_iff_right hne], fun n hn ↦ ?_⟩
  have hdrop : decide (key ≠ n) = true := decide_eq_true fun heq ↦ hn (heq ▸ hkey)
  rw [List.dropWhile_cons, if_pos hdrop]

theorem apart_eraseP (hkey : key ∈ changed) (l : List κ) :
    Apart changed l (l.eraseP fun k ↦ key = k) := by
  induction l with
  | nil => exact .refl changed []
  | cons x l ih =>
      by_cases hx : key = x
      · rw [List.eraseP_cons_of_pos (p := fun k ↦ decide (key = k)) (decide_eq_true hx)]
        subst hx
        intro k hk
        have hback := apart_cons hkey l k hk
        exact ⟨hback.1.symm, fun n hn ↦ (hback.2 n hn).symm⟩
      · rw [List.eraseP_cons_of_neg (p := fun k ↦ decide (key = k)) (by simpa using hx)]
        intro k hk
        obtain ⟨hmem, hdrop⟩ := ih k hk
        refine ⟨by rw [List.mem_cons, List.mem_cons, hmem], fun n hn ↦ ?_⟩
        by_cases hxn : x = n
        · have hstop : ¬ decide (x ≠ n) = true := by simpa using hxn
          rw [List.dropWhile_cons, if_neg hstop, List.dropWhile_cons, if_neg hstop, List.mem_cons,
            List.mem_cons, hmem]
        · have hgo : decide (x ≠ n) = true := decide_eq_true hxn
          rw [List.dropWhile_cons, if_pos hgo, List.dropWhile_cons, if_pos hgo]
          exact hdrop n hn

/-- The buckets of two dictionaries differ in some keys only. -/
def Still (changed : Set κ) (d d' : DictT κ ν) : Prop :=
  ∀ t i, Apart changed (bucketKeys d t i) (bucketKeys d' t i)

theorem still_of_eq (changed : Set κ) (heq : ∀ t i, bucketKeys d' t i = bucketKeys d t i) :
    Still changed d d' := by
  intro t i
  rw [heq]
  exact .refl changed _

theorem Still.of_eq_left (h : Still changed d' d'') (heq : ∀ t i, bucketKeys d' t i = bucketKeys d t i) :
    Still changed d d'' := by
  intro t i
  rw [← heq]
  exact h t i

/-- An iterator keeps its place where its next entry does. -/
theorem Still.place (h : Still changed d d') (hat : At d iter)
    (hnext : ∀ n, iter.nextEntry = some n → n ∉ changed) : At d' iter :=
  ⟨hat.safe, hat.table_le, hat.index_ge, hat.fresh,
    fun n hn ↦ ((h _ _ n (hnext n hn)).1).mpr (hat.next_mem n hn), hat.next_none⟩

theorem Still.pending (h : Still changed d d') (hnext : ∀ n, iter.nextEntry = some n → n ∉ changed)
    (hk : k ∉ changed) : Pending d' iter k ↔ Pending d iter k := by
  have hmem : ∀ t i, k ∈ bucketKeys d' t i ↔ k ∈ bucketKeys d t i := fun t i ↦ (h t i k hk).1
  rw [Pending, Pending, After, After]
  simp only [hmem]
  apply or_congr_left
  constructor
  · intro hchain
    obtain ⟨n, hn, hdrop⟩ := hchain
    exact ⟨n, hn, ((h _ _ k hk).2 n (hnext n hn)).mp hdrop⟩
  · intro hchain
    obtain ⟨n, hn, hdrop⟩ := hchain
    exact ⟨n, hn, ((h _ _ k hk).2 n (hnext n hn)).mpr hdrop⟩

/-! ## The calls -/

omit [DecidableEq κ] in
theorem dictRehashStep_paused (hpaused : d.iterators ≠ 0) : dictRehashStep hash d = some d := by
  rw [dictRehashStep, if_neg hpaused]
  split <;> rfl

theorem dictFind_paused (hpaused : d.iterators ≠ 0) {he : Option (κ × ν)}
    (hfind : dictFind hash d key = some (he, d')) : d' = d := by
  rw [dictFind] at hfind
  split at hfind
  · cases hfind
    rfl
  · rw [dictRehashStep_paused hpaused, Option.bind_eq_bind, Option.bind_some] at hfind
    obtain ⟨found, -, hfind⟩ := Option.bind_eq_some_iff.mp hfind
    cases found with
    | some e =>
        cases hfind
        rfl
    | none =>
        dsimp only at hfind
        split at hfind
        · obtain ⟨found', -, hfind⟩ := Option.bind_eq_some_iff.mp hfind
          cases hfind
          rfl
        · cases hfind
          rfl

omit [DecidableEq κ] in
/-- A table that is new has no keys. -/
theorem dictExpand_still (h : Wf hash d) {size : ℕ} {ret : ℤ} (hexpand : dictExpand d size = some (ret, d'))
    (t i : ℕ) : bucketKeys d' t i = bucketKeys d t i := by
  obtain ⟨n, -, hexpand⟩ := Option.bind_eq_some_iff.mp hexpand
  split at hexpand
  · cases hexpand
    rfl
  · next hidle =>
      split at hexpand
      · cases hexpand
        rfl
      · split at hexpand
        · cases hexpand
        · dsimp only at hexpand
          split at hexpand
          · next hnull =>
              cases hexpand
              rw [bucketKeys, bucketKeys]
              split
              · rw [keysAt_replicate, List.isEmpty_iff.mp hnull]
                rfl
              · rfl
          · cases hexpand
            rw [bucketKeys, bucketKeys]
            split
            · rfl
            · rw [keysAt_replicate, h.alone fun hr ↦ hidle (.inl hr)]
              rfl

omit [DecidableEq κ] in
theorem dictResize_still (h : Wf hash d) {canResize : Bool} {ret : ℤ}
    (hresize : dictResize canResize d = some (ret, d')) (t i : ℕ) :
    bucketKeys d' t i = bucketKeys d t i := by
  rw [dictResize] at hresize
  split at hresize
  · cases hresize
    rfl
  · exact dictExpand_still h hresize t i

theorem dictKeyIndex_still (h : Wf hash d) {canResize : Bool} {index : ℤ}
    (hindex : dictKeyIndex hash canResize d key = some (index, d')) (t i : ℕ) :
    bucketKeys d' t i = bucketKeys d t i := by
  obtain ⟨⟨ret, d₁⟩, hexpand, hindex⟩ := Option.bind_eq_some_iff.mp hindex
  have hsame : bucketKeys d₁ t i = bucketKeys d t i := by
    rw [dictExpandIfNeeded] at hexpand
    split at hexpand
    · cases hexpand
      rfl
    · split at hexpand
      · exact dictExpand_still h hexpand t i
      · split at hexpand
        · exact dictExpand_still h hexpand t i
        · cases hexpand
          rfl
  have heq : d₁ = d' := by
    dsimp only at hindex
    split at hindex
    · exact (Prod.mk.inj (Option.some.inj hindex)).2
    · obtain ⟨found, -, hindex⟩ := Option.bind_eq_some_iff.mp hindex
      cases found with
      | some e => exact (Prod.mk.inj (Option.some.inj hindex)).2
      | none =>
          dsimp only at hindex
          split at hindex
          · obtain ⟨found', -, hindex⟩ := Option.bind_eq_some_iff.mp hindex
            cases found' with
            | some e => exact (Prod.mk.inj (Option.some.inj hindex)).2
            | none => exact (Prod.mk.inj (Option.some.inj hindex)).2
          · exact (Prod.mk.inj (Option.some.inj hindex)).2
  rw [← heq, hsame]

/-- A change of a bucket of the first table. -/
theorem still_change0 {ht0 : Dictht κ ν} {j : ℕ} {b b' : List (κ × ν)} (hb : d.ht0.table[j]? = some b)
    (htable : ht0.table = d.ht0.table.set j b') (happ : Apart changed (b.map Prod.fst) (b'.map Prod.fst)) :
    Still changed d { d with ht0 := ht0 } := by
  intro t i
  rw [bucketKeys, bucketKeys]
  split
  · rw [htable, keysAt_set hb]
    split
    · next heq =>
        rw [← heq, keysAt_of_getElem? hb]
        exact happ
    · exact .refl changed _
  · exact .refl changed _

/-- A change of a bucket of the second table. -/
theorem still_change1 {ht1 : Dictht κ ν} {j : ℕ} {b b' : List (κ × ν)} (hb : d.ht1.table[j]? = some b)
    (htable : ht1.table = d.ht1.table.set j b') (happ : Apart changed (b.map Prod.fst) (b'.map Prod.fst)) :
    Still changed d { d with ht1 := ht1 } := by
  intro t i
  rw [bucketKeys, bucketKeys]
  split
  · exact .refl changed _
  · rw [htable, keysAt_set hb]
    split
    · next heq =>
        rw [← heq, keysAt_of_getElem? hb]
        exact happ
    · exact .refl changed _

/-- `dictAdd` changes the buckets in the key that it adds. -/
theorem dictAdd_still (h : Wf hash d) (hpaused : d.iterators ≠ 0) {canResize : Bool} {val : ν} {ret : ℤ}
    (hadd : dictAdd hash canResize d key val = some (ret, d')) :
    Still {k | k = key ∧ ret = dictOk} d d' := by
  have hin : key ∈ {k | k = key ∧ dictOk = dictOk} := ⟨rfl, rfl⟩
  rw [dictAdd, dictRehashStep_paused hpaused, Option.bind_eq_bind, Option.bind_some] at hadd
  obtain ⟨⟨index, d₁⟩, hindex, hadd⟩ := Option.bind_eq_some_iff.mp hadd
  have hsame := dictKeyIndex_still h hindex
  dsimp only at hadd
  split at hadd
  · cases hadd
    exact still_of_eq _ hsame
  · split at hadd
    · cases hadd
    · split at hadd
      · obtain ⟨ht1, hpush, hadd⟩ := Option.bind_eq_some_iff.mp hadd
        obtain ⟨b, hb, hpush⟩ := Option.bind_eq_some_iff.mp hpush
        cases hadd
        cases hpush
        exact (still_change1 hb rfl (apart_cons hin _)).of_eq_left hsame
      · obtain ⟨ht0, hpush, hadd⟩ := Option.bind_eq_some_iff.mp hadd
        obtain ⟨b, hb, hpush⟩ := Option.bind_eq_some_iff.mp hpush
        cases hadd
        cases hpush
        exact (still_change0 hb rfl (apart_cons hin _)).of_eq_left hsame

/-- `dictDelete` changes the buckets in the key that it deletes. -/
theorem dictDelete_still (hpaused : d.iterators ≠ 0) {ret : ℤ}
    (hdelete : dictDelete hash d key = some (ret, d')) : Still {k | k = key ∧ ret = dictOk} d d' := by
  have herase : ∀ b : List (κ × ν), Apart {k | k = key ∧ dictOk = dictOk} (b.map Prod.fst)
      ((b.eraseP fun he ↦ key = he.1).map Prod.fst) := by
    intro b
    have hin : key ∈ {k | k = key ∧ dictOk = dictOk} := ⟨rfl, rfl⟩
    have happ := apart_eraseP hin (b.map Prod.fst)
    rwa [List.eraseP_map] at happ
  rw [dictDelete] at hdelete
  split at hdelete
  · cases hdelete
    exact still_of_eq _ fun _ _ ↦ rfl
  · rw [dictRehashStep_paused hpaused, Option.bind_eq_bind, Option.bind_some] at hdelete
    obtain ⟨⟨found, ht0⟩, hdel, hdelete⟩ := Option.bind_eq_some_iff.mp hdelete
    obtain ⟨b, hb, hdel⟩ := Option.bind_eq_some_iff.mp hdel
    split at hdel
    · cases hdel
      cases hdelete
      exact still_change0 hb rfl (herase b)
    · cases hdel
      dsimp only at hdelete
      rw [if_neg Bool.false_ne_true] at hdelete
      split at hdelete
      · obtain ⟨⟨found, ht1⟩, hdel, hdelete⟩ := Option.bind_eq_some_iff.mp hdelete
        obtain ⟨b, hb, hdel⟩ := Option.bind_eq_some_iff.mp hdel
        split at hdel
        · cases hdel
          cases hdelete
          exact still_change1 hb rfl (herase b)
        · cases hdel
          cases hdelete
          exact still_of_eq _ fun _ _ ↦ rfl
      · cases hdelete
        exact still_of_eq _ fun _ _ ↦ rfl

omit [DecidableEq κ] in
theorem setVal_keys [DecidableEq κ] (key : κ) (val : ν) (b : List (κ × ν)) :
    (setVal key val b).map Prod.fst = b.map Prod.fst := by
  induction b with
  | nil => rfl
  | cons he next ih =>
      rw [setVal]
      split
      · rfl
      · rw [List.map_cons, List.map_cons, ih]

theorem setEntry_still {val : ν} (hset : setEntry hash d key val = some d') (changed : Set κ) :
    Still changed d d' := by
  have hkeys : ∀ b : List (κ × ν), Apart changed (b.map Prod.fst) ((setVal key val b).map Prod.fst) := by
    intro b
    rw [setVal_keys]
    exact .refl changed _
  obtain ⟨found, -, hset⟩ := Option.bind_eq_some_iff.mp hset
  cases found with
  | some e =>
      obtain ⟨ht0, hin, hset⟩ := Option.bind_eq_some_iff.mp hset
      obtain ⟨b, hb, hin⟩ := Option.bind_eq_some_iff.mp hin
      cases hin
      cases hset
      exact still_change0 hb rfl (hkeys b)
  | none =>
      obtain ⟨ht1, hin, hset⟩ := Option.bind_eq_some_iff.mp hset
      obtain ⟨b, hb, hin⟩ := Option.bind_eq_some_iff.mp hin
      cases hin
      cases hset
      exact still_change1 hb rfl (hkeys b)

/-- `dictReplace` changes the buckets in a key that it adds. -/
theorem dictReplace_still (h : Wf hash d) (hfew : dictSize d < 1073741824) (hpaused : d.iterators ≠ 0)
    {canResize : Bool} {val : ν} {ret : ℤ}
    (hreplace : dictReplace hash canResize d key val = some (ret, d')) :
    Still {k | k = key ∧ ret = 1} d d' := by
  obtain ⟨ret₁, d₁, hadd, hcases⟩ := dictAdd_spec h hfew canResize key val
  have hstill := dictAdd_still h hpaused hadd
  rw [dictReplace, hadd, Option.bind_eq_bind, Option.bind_some] at hreplace
  dsimp only at hreplace
  rcases hcases with ⟨rfl, hkept, -⟩ | ⟨rfl, -⟩
  · rw [if_neg (by decide)] at hreplace
    obtain ⟨⟨found, d₂⟩, hfind, hreplace⟩ := Option.bind_eq_some_iff.mp hreplace
    have hsame : d₂ = d₁ := dictFind_paused (by rwa [hkept.iterators_eq]) hfind
    cases found with
    | none => cases hreplace
    | some e =>
        obtain ⟨d₃, hset, hreplace⟩ := Option.bind_eq_some_iff.mp hreplace
        cases hreplace
        intro t i
        have hnone : {k | k = key ∧ dictErr = dictOk} ⊆ {k | k = key ∧ (0 : ℤ) = 1} :=
          fun k hk ↦ absurd hk.2 (by decide)
        exact ((hstill t i).mono hnone).trans (hsame ▸ setEntry_still hset _ t i)
  · rw [if_pos rfl] at hreplace
    cases hreplace
    exact fun t i ↦ (hstill t i).mono fun k hk ↦ ⟨hk.1, rfl⟩

end CPractice.Dict
