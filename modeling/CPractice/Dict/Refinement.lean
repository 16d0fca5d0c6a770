import CPractice.Dict.Map

/-!
# The dictionary refines a finite map

What holds between a dictionary with its iterators and the map with its passes, and that each call keeps
it.
-/

namespace CPractice.Dict

open Lib

variable {ι κ ν : Type} [DecidableEq κ] {hash : κ → ℕ} {d d' : DictT κ ν}

/-! ## One iterator and its pass -/

/-- An iterator has returned each key that stays, once, or has it still to come. -/
def Seen (d : DictT κ ν) (iter : DictIterator κ) (emitted : List κ) (gone : Set κ) : Prop :=
  ∀ k ∉ gone, (Pending d iter k ∧ k ∉ emitted) ∨ (¬ Pending d iter k ∧ emitted.count k = 1)

inductive PassHolds (d : DictT κ ν) : Option (DictIterator κ) → Option (Pass κ) → Prop where
  | idle : PassHolds d none none
  | fresh : PassHolds d (some (dictGetIterator κ true)) (some .fresh)
  | running {iter : DictIterator κ} {emitted : List κ} {gone : Set κ} (hat : At d iter)
      (hindex : 0 ≤ iter.index) (hseen : Seen d iter emitted gone) :
      PassHolds d (some iter) (some (.running emitted gone))
  | ended {iter : DictIterator κ} {emitted : List κ} {gone : Set κ} (hat : At d iter)
      (hindex : 0 ≤ iter.index) (hseen : ∀ k ∉ gone, emitted.count k = 1) :
      PassHolds d (some iter) (some (.ended emitted gone))

namespace PassHolds

variable {iter : DictIterator κ} {iter? : Option (DictIterator κ)} {pass : Option (Pass κ)}

theorem place (h : PassHolds d (some iter) pass) : At d iter := by
  cases h with
  | fresh => exact at_fresh d
  | running hat => exact hat
  | ended hat => exact hat

theorem underWay_of_running {emitted : List κ} {gone : Set κ}
    (h : PassHolds d iter? (some (.running emitted gone))) : UnderWay iter? := by
  cases h with
  | running _ hindex => exact fun hf ↦ absurd hindex (by omega)

/-- Nothing is said of a dictionary while no iterator is under way. -/
theorem of_not_underWay (h : PassHolds d iter? pass) (hidle : ¬ UnderWay iter?) : PassHolds d' iter? pass := by
  cases h with
  | idle => exact .idle
  | fresh => exact .fresh
  | running _ hindex => exact absurd (fun hf ↦ absurd hindex (by omega)) hidle
  | ended _ hindex => exact absurd (fun hf ↦ absurd hindex (by omega)) hidle

/-- A call that changes no bucket in a key that stays. -/
theorem still {changed : Set κ} (h : PassHolds d iter? pass) (hstill : Still changed d d')
    (hnext : ∀ iter ∈ iter?, ∀ n, iter.nextEntry = some n → n ∉ changed)
    (hgone : ∀ emitted gone, pass = some (.running emitted gone) → changed ⊆ gone) :
    PassHolds d' iter? pass := by
  cases h with
  | idle => exact .idle
  | fresh => exact .fresh
  | @running iter emitted gone hat hindex hseen =>
      have hnext' := hnext iter rfl
      refine .running (hstill.place hat hnext') hindex fun k hk ↦ ?_
      rw [hstill.pending hnext' fun hin ↦ hk (hgone emitted gone rfl hin)]
      exact hseen k hk
  | ended hat hindex hseen => exact .ended (hstill.place hat (hnext _ rfl)) hindex hseen

theorem with_iterators (h : PassHolds d iter? pass) (iterators : ℤ) :
    PassHolds { d with iterators := iterators } iter? pass := by
  cases h with
  | idle => exact .idle
  | fresh => exact .fresh
  | running hat hindex hseen => exact .running (hat.with_iterators iterators) hindex hseen
  | ended hat hindex hseen => exact .ended (hat.with_iterators iterators) hindex hseen

theorem delete (h : PassHolds d iter? pass) (key : κ) : PassHolds d iter? (pass.map (Pass.delete key)) := by
  cases h with
  | idle => exact .idle
  | fresh => exact .fresh
  | running hat hindex hseen =>
      exact .running hat hindex fun k hk ↦ hseen k fun hin ↦ hk (Set.mem_insert_of_mem key hin)
  | ended hat hindex hseen => exact .ended hat hindex hseen

/-- A call of `dictNext`. -/
theorem go {iter' : DictIterator κ} {emitted : List κ} {gone : Set κ} {key : Option κ}
    (hseen : Seen d iter emitted gone) (hat : At d iter') (hindex : 0 ≤ iter'.index)
    (hreturns : Returns d iter iter' key) : PassHolds d (some iter') (some (Pass.go emitted gone key)) := by
  cases key with
  | none =>
      refine .ended hat hindex fun k hk ↦ ?_
      rcases hseen k hk with ⟨hpending, -⟩ | ⟨-, hcount⟩
      · exact absurd hpending (hreturns.1 k)
      · exact hcount
  | some key =>
      obtain ⟨hkey, hrest⟩ := hreturns
      refine .running hat hindex fun k hk ↦ ?_
      rw [hrest k, List.count_append, List.mem_append, List.mem_singleton]
      rcases hseen k hk with ⟨hpending, hnot⟩ | ⟨hpending, hcount⟩
      · by_cases heq : k = key
        · refine .inr ⟨fun hf ↦ hf.2 heq, ?_⟩
          rw [List.count_eq_zero.mpr hnot, heq, List.count_singleton_self]
        · exact .inl ⟨⟨hpending, heq⟩, fun hf ↦ hf.elim hnot heq⟩
      · refine .inr ⟨fun hf ↦ hpending hf.1, ?_⟩
        have hne : k ≠ key := fun heq ↦ hpending (heq ▸ hkey)
        rw [hcount, List.count_singleton, if_neg (by simpa using hne.symm)]

theorem next {iter' : DictIterator κ} {unbound : Set κ} {key : Option κ}
    (h : PassHolds d (some iter) pass) (hbound : ∀ k, k ∉ unbound → k ∈ (entries d).map Prod.fst)
    (hwf : Wf hash d) (hat : At d iter') (hindex : 0 ≤ iter'.index) (hreturns : Returns d iter iter' key) :
    PassHolds d (some iter') (pass.map (Pass.next unbound key)) := by
  cases h with
  | fresh =>
      refine go (fun k hk ↦ .inl ⟨?_, List.not_mem_nil⟩) hat hindex hreturns
      -- before the first call everything is to come
      right
      rcases (mem_keys_iff hwf).mp (hbound k hk) with ⟨i, hi⟩ | hi
      · exact .inl ⟨i, by dsimp only [dictGetIterator]; omega, hi⟩
      · exact .inr ⟨rfl, hi⟩
  | running _ _ hseen => exact go hseen hat hindex hreturns
  | ended _ _ hseen => exact .ended hat hindex hseen

end PassHolds

/-! ## All of it -/

variable [Fintype ι] {s : Process ι κ ν} {spec : Spec ι κ ν} {key : κ} {val : ν}

structure Related (hash : κ → ℕ) (s : Process ι κ ν) (spec : Spec ι κ ν) : Prop where
  wf : Wf hash s.d
  binds : Binds Prod.fst Prod.snd (entries s.d) spec.1
  counted : s.d.iterators = (Finset.univ.filter fun i ↦ UnderWay (s.iters i)).card
  passes : ∀ i, PassHolds s.d (s.iters i) (spec.2 i)
  steady : ∀ i emitted gone, spec.2 i = some (.running emitted gone) → ∀ k ∉ gone, spec.1 k ≠ none

namespace Related

theorem mem_keys_iff (h : Related hash s spec) : key ∈ (entries s.d).map Prod.fst ↔ spec.1 key ≠ none := by
  rw [List.mem_map, Option.ne_none_iff_exists']
  constructor
  · intro hk
    obtain ⟨e, he, rfl⟩ := hk
    exact ⟨e.2, h.binds.eq_some he⟩
  · intro hk
    obtain ⟨v, hv⟩ := hk
    obtain ⟨e, he, hkey, -⟩ := (h.binds key v).mp hv
    exact ⟨e, he, hkey⟩

theorem bound (h : Related hash s spec) (hkey : ∃ e ∈ entries s.d, key = e.1) : spec.1 key ≠ none := by
  obtain ⟨e, he, rfl⟩ := hkey
  exact h.mem_keys_iff.mp (List.mem_map_of_mem he)

theorem unbound (h : Related hash s spec) (hkey : ∀ e ∈ entries s.d, key ≠ e.1) : spec.1 key = none :=
  h.binds.eq_none fun e he ↦ (hkey e he).symm

theorem not_underWay (h : Related hash s spec) (hzero : s.d.iterators = 0) (i : ι) :
    ¬ UnderWay (s.iters i) := by
  intro hunder
  have hcounted := h.counted
  rw [hzero] at hcounted
  have hempty := Finset.card_eq_zero.mp (Int.ofNat_eq_zero.mp hcounted.symm)
  have hmem : i ∈ Finset.univ.filter fun i ↦ UnderWay (s.iters i) :=
    Finset.mem_filter.mpr ⟨Finset.mem_univ i, hunder⟩
  rw [hempty] at hmem
  exact absurd hmem (Finset.notMem_empty i)

/-- Where no iterator is under way, none is counted. -/
theorem iterators_zero (h : Related hash s spec) (hidle : ∀ i, ¬ UnderWay (s.iters i)) :
    s.d.iterators = 0 := by
  rw [h.counted, Finset.filter_eq_empty_iff.mpr fun i _ ↦ hidle i]
  rfl

/-- The next entry of an iterator is in the dictionary. -/
theorem next_bound (h : Related hash s spec) {i : ι} {iter : DictIterator κ} (hiter : iter ∈ s.iters i)
    {n : κ} (hn : iter.nextEntry = some n) : spec.1 n ≠ none := by
  have hpass := h.passes i
  rw [hiter] at hpass
  have hmem := hpass.place.next_mem n hn
  have hle := hpass.place.table_le
  apply h.mem_keys_iff.mp
  rw [Dict.mem_keys_iff h.wf]
  have hcases : iter.table = 0 ∨ iter.table = 1 := by omega
  rcases hcases with ht | ht
  · exact .inl ⟨_, ht ▸ hmem⟩
  · exact .inr ⟨_, ht ▸ hmem⟩

/-- A call on the dictionary that changes the buckets in some keys. -/
theorem change (h : Related hash s spec) (changed : Set κ) {m : κ → Option ν} {passes : ι → Option (Pass κ)}
    (hwf : Wf hash d') (hbinds : Binds Prod.fst Prod.snd (entries d') m)
    (hiterators : d'.iterators = s.d.iterators) (hstill : s.d.iterators ≠ 0 → Still changed s.d d')
    (hnext : ∀ i, ∀ iter ∈ s.iters i, ∀ n, iter.nextEntry = some n → n ∉ changed)
    (hpasses : ∀ i, PassHolds s.d (s.iters i) (passes i))
    (hsteady : ∀ i emitted gone, passes i = some (.running emitted gone) →
      changed ⊆ gone ∧ ∀ k ∉ gone, m k ≠ none) : Related hash { s with d := d' } (m, passes) := by
  refine ⟨hwf, hbinds, hiterators.trans h.counted, fun i ↦ ?_, fun i emitted gone hp ↦
    (hsteady i emitted gone hp).2⟩
  by_cases hzero : s.d.iterators = 0
  · exact (hpasses i).of_not_underWay (h.not_underWay hzero i)
  · exact (hpasses i).still (hstill hzero) (hnext i) fun emitted gone hp ↦ (hsteady i emitted gone hp).1

/-- A call that keeps the entries. -/
theorem kept (h : Related hash s spec) (hkept : Kept hash s.d d')
    (hstill : s.d.iterators ≠ 0 → ∀ t i, bucketKeys d' t i = bucketKeys s.d t i) :
    Related hash { s with d := d' } spec :=
  h.change ∅ hkept.wf (h.binds.of_perm hkept.perm) hkept.iterators_eq
    (fun hpaused ↦ still_of_eq ∅ (hstill hpaused)) (fun _ _ _ _ _ ↦ Set.notMem_empty _) h.passes
    fun i emitted gone hp ↦ ⟨Set.empty_subset gone, h.steady i emitted gone hp⟩

/-- A key that was not there is added. -/
theorem added (h : Related hash s spec) (hadded : Added hash s.d d' (key, val))
    (hstill : s.d.iterators ≠ 0 → Still {k | k = key} s.d d') :
    spec.1 key = none ∧
      Related hash { s with d := d' } (Function.update spec.1 key (some val), spec.2) := by
  have hnone : spec.1 key = none := h.unbound hadded.fresh
  refine ⟨hnone, h.change _ hadded.wf ?_ hadded.iterators_eq hstill (fun i iter hiter n hn ↦ ?_) h.passes
    fun i emitted gone hp ↦ ⟨?_, fun k hk ↦ ?_⟩⟩
  · have hbinds : Binds Prod.fst Prod.snd ([] ++ entries s.d) spec.1 := h.binds
    have hinsert := hbinds.insert fun e he ↦ (hadded.fresh e he).symm
    exact hinsert.of_perm hadded.perm
  · rintro rfl
    exact h.next_bound hiter hn hnone
  · rintro k rfl
    by_contra hk
    exact h.steady i emitted gone hp k hk hnone
  · have hold := h.steady i emitted gone hp k hk
    rw [Function.update_of_ne]
    · exact hold
    · rintro rfl
      exact hold hnone

end Related

omit [DecidableEq κ] in
/-- The keys of the rest differ from a key that is taken out. -/
theorem rest_ne (hwf : Wf hash d) {e : κ × ν} {l : List (κ × ν)} (hperm : (entries d).Perm (e :: l)) :
    ∀ other ∈ l, other.1 ≠ e.1 := by
  have hnodup := hwf.nodup
  rw [(hperm.map Prod.fst).nodup_iff, List.map_cons] at hnodup
  intro other hother heq
  exact (List.nodup_cons.mp hnodup).1 (heq ▸ List.mem_map_of_mem hother)

namespace Related

/-- A key is deleted to which no iterator goes next. -/
theorem deleted (h : Related hash s spec) (hdeleted : Deleted hash s.d d' key)
    (hstill : s.d.iterators ≠ 0 → Still {k | k = key} s.d d')
    (hnext : ∀ i, ∀ iter ∈ s.iters i, iter.nextEntry ≠ some key) :
    spec.1 key ≠ none ∧ Related hash { s with d := d' }
      (Function.update spec.1 key none, fun i ↦ (spec.2 i).map (Pass.delete key)) := by
  obtain ⟨val, hperm⟩ := hdeleted.perm
  have hbound : spec.1 key ≠ none := h.bound ⟨(key, val), hperm.mem_iff.mpr List.mem_cons_self, rfl⟩
  refine ⟨hbound, h.change _ hdeleted.wf ?_ hdeleted.iterators_eq hstill (fun i iter hiter n hn ↦ ?_)
    (fun i ↦ (h.passes i).delete key) fun i emitted gone hp ↦ ?_⟩
  · have hbinds : Binds Prod.fst Prod.snd ([] ++ (key, val) :: entries d') spec.1 :=
      h.binds.of_perm hperm.symm
    exact hbinds.erase (rest_ne h.wf hperm)
  · rintro rfl
    exact hnext i iter hiter hn
  · obtain ⟨pass, hpass, hdel⟩ := Option.map_eq_some_iff.mp hp
    cases pass with
    | fresh => cases hdel
    | ended emitted' gone' => cases hdel
    | running emitted' gone' =>
        cases hdel
        refine ⟨fun k hk ↦ Set.mem_insert_iff.mpr (.inl hk), fun k hk ↦ ?_⟩
        have hne : k ≠ key := fun heq ↦ hk (Set.mem_insert_iff.mpr (.inl heq))
        rw [Function.update_of_ne hne]
        exact h.steady i emitted gone' hpass k fun hin ↦ hk (Set.mem_insert_of_mem key hin)

/-- A key gets another value. -/
theorem replaced (h : Related hash s spec) (hreplaced : Replaced hash s.d d' key val)
    (hstill : s.d.iterators ≠ 0 → Still ∅ s.d d') :
    spec.1 key ≠ none ∧
      Related hash { s with d := d' } (Function.update spec.1 key (some val), spec.2) := by
  obtain ⟨old, l, hold, hnew⟩ := hreplaced.perm
  have hbound : spec.1 key ≠ none := h.bound ⟨(key, old), hold.mem_iff.mpr List.mem_cons_self, rfl⟩
  refine ⟨hbound, h.change _ hreplaced.wf ?_ hreplaced.iterators_eq hstill
    (fun _ _ _ _ _ ↦ Set.notMem_empty _) h.passes fun i emitted gone hp ↦
      ⟨Set.empty_subset gone, fun k hk ↦ ?_⟩⟩
  · have hbinds : Binds Prod.fst Prod.snd ([] ++ (key, old) :: l) spec.1 := h.binds.of_perm hold.symm
    have hexchange : Binds Prod.fst Prod.snd ([] ++ (key, val) :: l) _ :=
      hbinds.exchange (rest_ne h.wf hold) rfl
    exact hexchange.of_perm hnew
  · by_cases heq : k = key
    · rw [heq, Function.update_self]
      exact Option.some_ne_none val
    · rw [Function.update_of_ne heq]
      exact h.steady i emitted gone hp k hk

end Related

variable [DecidableEq ι]

/-- What a call owes. -/
def Simulated (hash : κ → ℕ) (s : Process ι κ ν) (spec : Spec ι κ ν) (call : Call ι κ ν) : Prop :=
  ∃ ret s', s.exec hash call = some (ret, s') ∧ mapPost spec.1 call ret ∧
    Related hash s' (specStep spec call ret)

namespace Related

theorem add (h : Related hash s spec) (hok : s.Ok (.add key val)) : Simulated hash s spec (.add key val) := by
  obtain ⟨ret, d', hadd, hcases⟩ := dictAdd_spec h.wf hok s.canResize key val
  have hexec : s.exec hash (.add key val) = some (.code ret, { s with d := d' }) := by
    rw [Process.exec, hadd]
    rfl
  refine ⟨_, _, hexec, ?_⟩
  rcases hcases with ⟨rfl, hkept, hkey⟩ | ⟨rfl, hadded⟩
  · have hbound : spec.1 key ≠ none := by
      obtain ⟨e, he, heq⟩ := hkey
      exact h.bound ⟨e, he, heq⟩
    refine ⟨by rw [mapPost, if_neg hbound], ?_⟩
    rw [specStep, mapStep, if_neg (by decide)]
    refine h.change _ hkept.wf (h.binds.of_perm hkept.perm) hkept.iterators_eq
      (fun hpaused ↦ dictAdd_still h.wf hpaused hadd) (fun _ _ _ _ _ hf ↦ absurd hf.2 (by decide)) h.passes
      fun i emitted gone hp ↦ ⟨fun k hk ↦ absurd hk.2 (by decide), h.steady i emitted gone hp⟩
  · have hstill : s.d.iterators ≠ 0 → Still {k | k = key} s.d d' := fun hpaused t i ↦
      (dictAdd_still h.wf hpaused hadd t i).mono fun k hk ↦ hk.1
    obtain ⟨hnone, hrelated⟩ := h.added hadded hstill
    refine ⟨by rw [mapPost, if_pos hnone], ?_⟩
    rw [specStep, mapStep, if_pos rfl]
    exact hrelated

theorem replace (h : Related hash s spec) (hok : s.Ok (.replace key val)) :
    Simulated hash s spec (.replace key val) := by
  obtain ⟨ret, d', hreplace, hcases⟩ := dictReplace_spec h.wf hok s.canResize key val
  have hexec : s.exec hash (.replace key val) = some (.code ret, { s with d := d' }) := by
    rw [Process.exec, hreplace]
    rfl
  have hchanged : s.d.iterators ≠ 0 → Still {k | k = key ∧ ret = 1} s.d d' := fun hpaused ↦
    dictReplace_still h.wf hok hpaused hreplace
  refine ⟨_, _, hexec, ?_⟩
  rcases hcases with ⟨rfl, hadded⟩ | ⟨rfl, hreplaced⟩
  · obtain ⟨hnone, hrelated⟩ := h.added hadded fun hpaused t i ↦
      (hchanged hpaused t i).mono fun k hk ↦ hk.1
    exact ⟨by rw [mapPost, if_pos hnone], hrelated⟩
  · obtain ⟨hbound, hrelated⟩ := h.replaced hreplaced fun hpaused t i ↦
      (hchanged hpaused t i).mono fun k hk ↦ absurd hk.2 (by decide)
    exact ⟨by rw [mapPost, if_neg hbound], hrelated⟩

theorem delete (h : Related hash s spec) (hok : s.Ok (.delete key : Call ι κ ν)) :
    Simulated hash s spec (.delete key) := by
  obtain ⟨ret, d', hdelete, hcases⟩ := dictDelete_spec h.wf key
  have hexec : s.exec hash (.delete key) = some (.code ret, { s with d := d' }) := by
    rw [Process.exec, hdelete]
    rfl
  refine ⟨_, _, hexec, ?_⟩
  rcases hcases with ⟨rfl, hkept, hkey⟩ | ⟨rfl, hdeleted⟩
  · refine ⟨by rw [mapPost, if_pos (h.unbound hkey)], ?_⟩
    have hsame : (specStep spec (.delete key : Call ι κ ν) (.code dictErr)) = spec := by
      rw [specStep, mapStep, if_neg (by decide)]
      simp only [passStep, if_neg (show ¬ dictErr = dictOk by decide)]
    rw [hsame]
    exact h.change _ hkept.wf (h.binds.of_perm hkept.perm) hkept.iterators_eq
      (fun hpaused ↦ dictDelete_still hpaused hdelete) (fun _ _ _ _ _ hf ↦ absurd hf.2 (by decide)) h.passes
      fun i emitted gone hp ↦ ⟨fun k hk ↦ absurd hk.2 (by decide), h.steady i emitted gone hp⟩
  · have hstill : s.d.iterators ≠ 0 → Still {k | k = key} s.d d' := fun hpaused t i ↦
      (dictDelete_still hpaused hdelete t i).mono fun k hk ↦ hk.1
    obtain ⟨hbound, hrelated⟩ := h.deleted hdeleted hstill hok
    refine ⟨by rw [mapPost, if_neg hbound], ?_⟩
    rw [specStep, mapStep, if_pos rfl]
    exact hrelated

theorem fetchValue (h : Related hash s spec) (key : κ) : Simulated hash s spec (.fetchValue key) := by
  obtain ⟨he, d', hfind, hkept, -, hsome, hnone⟩ := dictFind_spec h.wf key
  have hexec : s.exec hash (.fetchValue key) =
      some (.value (he.map Prod.snd), { s with d := d' }) := by
    rw [Process.exec, dictFetchValue, hfind]
    rfl
  refine ⟨_, _, hexec, ?_, h.kept hkept fun hpaused t i ↦ by rw [dictFind_paused hpaused hfind]⟩
  rw [mapPost]
  cases he with
  | none =>
      have hunbound : spec.1 key = none :=
        h.unbound fun e hmem ↦ hnone rfl e (hkept.perm.mem_iff.mpr hmem)
      rw [hunbound]
      rfl
  | some e =>
      obtain ⟨hmem, rfl⟩ := hsome e rfl
      rw [h.binds.eq_some (hkept.perm.mem_iff.mp hmem)]
      rfl

theorem size (h : Related hash s spec) : Simulated hash s spec .size := by
  refine ⟨.num (dictSize s.d), s, rfl, ?_, h⟩
  rw [mapPost, h.binds.ncard h.wf.nodup, h.wf.size_eq]

theorem expand (h : Related hash s spec) {size : ℕ} (hok : s.Ok (.expand size : Call ι κ ν)) :
    Simulated hash s spec (.expand size) := by
  obtain ⟨ret, d', hexpand, hkept, -⟩ := dictExpand_spec h.wf hok
  refine ⟨.code ret, { s with d := d' }, ?_, ⟨ret, rfl⟩,
    h.kept hkept fun _ ↦ dictExpand_still h.wf hexpand⟩
  rw [Process.exec, hexpand]
  rfl

theorem resize (h : Related hash s spec) : Simulated hash s spec .resize := by
  obtain ⟨ret, d', hresize, hkept⟩ := dictResize_spec h.wf s.canResize
  refine ⟨.code ret, { s with d := d' }, ?_, ⟨ret, rfl⟩,
    h.kept hkept fun _ ↦ dictResize_still h.wf hresize⟩
  rw [Process.exec, hresize]
  rfl

theorem rehash (h : Related hash s spec) {n : ℕ} (hok : s.Ok (.rehash n : Call ι κ ν)) :
    Simulated hash s spec (.rehash n) := by
  obtain ⟨ret, d', hrehash, hkept, -⟩ := dictRehash_spec h.wf n
  refine ⟨.code ret, { s with d := d' }, ?_, ⟨ret, rfl⟩,
    h.kept hkept fun hpaused ↦ absurd (h.iterators_zero hok.2) hpaused⟩
  rw [Process.exec, hrehash]
  rfl

theorem empty (h : Related hash s spec) (hok : s.Ok (.empty : Call ι κ ν)) :
    Simulated hash s spec .empty := by
  have hzero := h.iterators_zero hok
  refine ⟨.done, { s with d := dictEmpty }, rfl, rfl, h.change ∅ wf_create Binds.nil hzero.symm
    (fun hpaused ↦ absurd hzero hpaused) (fun _ _ _ _ _ ↦ Set.notMem_empty _) h.passes
    fun i emitted gone hp ↦ ?_⟩
  have hpass := h.passes i
  change spec.2 i = _ at hp
  rw [hp] at hpass
  exact absurd hpass.underWay_of_running (hok i)

/-- The iterators of a process change in one place. -/
theorem at_place (h : Related hash s spec) (i : ι) (iter? : Option (DictIterator κ)) (iterators : ℤ)
    {pass : Option (Pass κ)} (hpass : PassHolds s.d iter? pass)
    (hcount : iterators + (if UnderWay (s.iters i) then 1 else 0) =
      s.d.iterators + if UnderWay iter? then 1 else 0)
    (hsteady : ∀ emitted gone, pass = some (.running emitted gone) → ∀ k ∉ gone, spec.1 k ≠ none) :
    Related hash ⟨{ s.d with iterators := iterators }, s.canResize, Function.update s.iters i iter?⟩
      (spec.1, fun j ↦ if i = j then pass else spec.2 j) := by
  have hcounted := count_update (fun iter? ↦ UnderWay iter?) s.iters i iter?
  have hold := h.counted
  refine ⟨h.wf.with_iterators iterators, h.binds, ?_, fun j ↦ ?_, fun j emitted gone hp ↦ ?_⟩
  · change iterators = _
    split at hcount <;> split at hcount <;> simp_all only [if_true, if_false] <;> omega
  · dsimp only
    by_cases hij : i = j
    · subst hij
      rw [Function.update_self, if_pos rfl]
      exact hpass.with_iterators iterators
    · rw [Function.update_of_ne (Ne.symm hij), if_neg hij]
      exact (h.passes j).with_iterators iterators
  · dsimp only at hp
    split at hp
    · exact hsteady emitted gone hp
    · exact h.steady j emitted gone hp

theorem getSafeIterator (h : Related hash s spec) {i : ι} (hok : s.Ok (.getSafeIterator i : Call ι κ ν)) :
    Simulated hash s spec (.getSafeIterator i) := by
  have hold : s.iters i = none := hok
  refine ⟨.done, _, rfl, rfl, h.at_place i (some (dictGetIterator κ true)) s.d.iterators
    (show PassHolds s.d _ (some .fresh) from .fresh) ?_ fun _ _ hp ↦ absurd hp (by simp)⟩
  rw [hold]
  rfl

theorem releaseIterator (h : Related hash s spec) {i : ι} (hok : s.Ok (.releaseIterator i : Call ι κ ν)) :
    Simulated hash s spec (.releaseIterator i) := by
  obtain ⟨iter, hiter⟩ := Option.ne_none_iff_exists'.mp hok
  have hpass := h.passes i
  rw [hiter] at hpass
  have hplace := hpass.place
  have hrelease : dictReleaseIterator s.d iter =
      { s.d with iterators := s.d.iterators - if iter.index = -1 then 0 else 1 } := by
    rw [dictReleaseIterator]
    by_cases hfirst : iter.index = -1
    · rw [if_neg fun hf ↦ hf.1 ⟨hfirst, (hplace.fresh hfirst).1⟩, if_pos hfirst, Int.sub_zero]
    · rw [if_pos ⟨fun hf ↦ hfirst hf.1, hplace.safe⟩, if_neg hfirst]
  have hexec : s.exec hash (.releaseIterator i) = some (.done,
      ⟨{ s.d with iterators := s.d.iterators - if iter.index = -1 then 0 else 1 }, s.canResize,
        Function.update s.iters i none⟩) := by
    rw [Process.exec, hiter, Option.bind_eq_bind, Option.bind_some, hrelease]
  refine ⟨_, _, hexec, rfl, h.at_place i none _ (show PassHolds s.d none none from .idle) ?_
    fun _ _ hp ↦ absurd hp (by simp)⟩
  rw [hiter]
  by_cases hfirst : iter.index = -1
  · rw [if_pos hfirst, if_neg (show ¬ UnderWay (some iter) from not_not_intro hfirst),
      if_neg (show ¬ UnderWay none from id)]
    omega
  · rw [if_neg hfirst, if_pos (show UnderWay (some iter) from hfirst), if_neg (show ¬ UnderWay none from id)]
    omega

omit [DecidableEq κ] [Fintype ι] [DecidableEq ι] in
/-- The keys that stay are in the map. -/
theorem steady_next {m : κ → Option ν} {pass : Option (Pass κ)} {key : Option κ} {emitted : List κ}
    {gone : Set κ} (hp : pass.map (Pass.next {k | m k = none} key) = some (.running emitted gone))
    (hsteady : ∀ emitted gone, pass = some (.running emitted gone) → ∀ k ∉ gone, m k ≠ none) :
    ∀ k ∉ gone, m k ≠ none := by
  obtain ⟨old, rfl, hnext⟩ := Option.map_eq_some_iff.mp hp
  cases key with
  | none => cases old <;> cases hnext
  | some key =>
      cases old with
      | fresh =>
          cases hnext
          exact fun k hk ↦ hk
      | running emitted' gone' =>
          cases hnext
          exact hsteady emitted' gone rfl
      | ended emitted' gone' => cases hnext

theorem next (h : Related hash s spec) {i : ι} (hok : s.Ok (.next i : Call ι κ ν)) :
    Simulated hash s spec (.next i) := by
  obtain ⟨iter, hiter⟩ := Option.ne_none_iff_exists'.mp hok.1
  have hpass := h.passes i
  rw [hiter] at hpass
  obtain ⟨key, iter', hnext, hplace, hindex, hreturns⟩ := dictNext_spec h.wf hpass.place
  have hexec : s.exec hash (.next i) = some (.entry key,
      ⟨{ s.d with iterators := s.d.iterators + started iter }, s.canResize,
        Function.update s.iters i (some iter')⟩) := by
    rw [Process.exec, hiter, Option.bind_eq_bind, Option.bind_some, hnext]
    rfl
  have hunder : UnderWay (some iter') := fun hf ↦ absurd hindex (by omega)
  have hpass' : PassHolds s.d (some iter') ((spec.2 i).map (Pass.next {k | spec.1 k = none} key)) :=
    hpass.next (fun k hk ↦ h.mem_keys_iff.mpr hk) h.wf hplace hindex hreturns
  have hstep : specStep spec (.next i : Call ι κ ν) (.entry key) = (spec.1, fun j ↦ if i = j then
      (spec.2 i).map (Pass.next {k | spec.1 k = none} key) else spec.2 j) := by
    apply Prod.ext
    · rfl
    · funext j
      change (if i = j then (spec.2 j).map _ else spec.2 j) = if i = j then (spec.2 i).map _ else spec.2 j
      by_cases hij : i = j
      · rw [hij]
      · rw [if_neg hij, if_neg hij]
  refine ⟨_, _, hexec, ⟨key, rfl, fun k hk ↦ ?_⟩, ?_⟩
  · subst hk
    -- what is to come is in the dictionary
    apply h.mem_keys_iff.mp
    rw [Dict.mem_keys_iff h.wf]
    exact hreturns.1.mem_buckets hpass.place.table_le
  · rw [hstep]
    refine h.at_place i (some iter') _ hpass' ?_ fun emitted gone hp ↦
      steady_next hp fun emitted gone ↦ h.steady i emitted gone
    rw [hiter, started, if_pos hunder]
    by_cases hfirst : iter.index = -1
    · rw [if_pos hfirst, if_neg (show ¬ UnderWay (some iter) from not_not_intro hfirst)]
      omega
    · rw [if_neg hfirst, if_pos (show UnderWay (some iter) from hfirst)]
      omega

end Related

/-! ## Runs -/

omit [DecidableEq ι] in
theorem related_init (hash : κ → ℕ) :
    Related hash (⟨dictCreate, true, fun _ ↦ none⟩ : Process ι κ ν) (fun _ ↦ none, fun _ ↦ none) := by
  refine ⟨wf_create, Binds.nil, ?_, fun _ ↦ .idle, fun _ _ _ hp ↦ absurd hp (by simp)⟩
  have hnone : (Finset.univ.filter fun i : ι ↦ UnderWay (none : Option (DictIterator κ))) = ∅ :=
    Finset.filter_eq_empty_iff.mpr fun _ _ ↦ id
  exact (congrArg (fun l : Finset ι ↦ (l.card : ℤ)) hnone).symm

theorem call_simulates (hash : κ → ℕ) :
    Machine.Simulates (machine ι ν hash) specStep (fun spec ↦ mapPost spec.1) (Related hash) := by
  intro s spec call h hok
  cases call with
  | add key val => exact h.add hok
  | replace key val => exact h.replace hok
  | delete key => exact h.delete hok
  | fetchValue key => exact h.fetchValue key
  | size => exact h.size
  | expand size => exact h.expand hok
  | resize => exact h.resize
  | rehash n => exact h.rehash hok
  | empty => exact h.empty hok
  | enableResize => exact ⟨.done, _, rfl, rfl, h.wf, h.binds, h.counted, h.passes, h.steady⟩
  | disableResize => exact ⟨.done, _, rfl, rfl, h.wf, h.binds, h.counted, h.passes, h.steady⟩
  | getSafeIterator i => exact h.getSafeIterator hok
  | next i => exact h.next hok
  | releaseIterator i => exact h.releaseIterator hok

/-- A pass over a dictionary that begins to rehash under it, with a deletion of the key returned. -/
def smallCalls : List (Call Bool ℕ ℕ) :=
  [.add 1 10, .add 5 50, .add 9 90, .add 2 20, .add 5 51, .getSafeIterator true, .next true, .add 3 30,
    .next true, .delete 5, .replace 1 11, .next true, .getSafeIterator false, .next false, .next true,
    .next true, .next true]

theorem smallCalls_run : ((machine Bool ℕ (id : ℕ → ℕ)).execAll ⟨dictCreate, true, fun _ ↦ none⟩
    smallCalls).isSome := by with_unfolding_all decide

/-- The run of `smallCalls`. -/
theorem smallCalls_trace : (machine Bool ℕ (id : ℕ → ℕ)).Trace
    (((machine Bool ℕ id).execAll ⟨dictCreate, true, fun _ ↦ none⟩ smallCalls).get smallCalls_run).2
    (((machine Bool ℕ id).execAll ⟨dictCreate, true, fun _ ↦ none⟩ smallCalls).get smallCalls_run).1 :=
  Machine.trace_execAll rfl (by with_unfolding_all decide) (Option.some_get smallCalls_run).symm

/-- For every run: when an iterator has come to its end, it has returned each key exactly once that was
there at its first call and stayed; before, at most once. -/
theorem iterator_complete {s : Process ι κ ν} {log : List (Call ι κ ν × Ret κ ν)}
    (htrace : (machine ι ν hash).Trace s log) (i : ι) :
    (∀ emitted gone, passOf log i = some (.ended emitted gone) → ∀ k ∉ gone, emitted.count k = 1) ∧
      ∀ emitted gone, passOf log i = some (.running emitted gone) → ∀ k ∉ gone, emitted.count k ≤ 1 := by
  have hrelated := htrace.related (fun _ ↦ none, fun _ ↦ none) (fun _ hinit ↦ hinit ▸ related_init hash)
    (call_simulates hash)
  have hpass : PassHolds s.d (s.iters i) (passOf log i) := hrelated.passes i
  constructor
  · intro emitted gone hp k hk
    rw [hp] at hpass
    generalize s.iters i = iter? at hpass
    cases hpass with
    | ended _ _ hseen => exact hseen k hk
  · intro emitted gone hp k hk
    rw [hp] at hpass
    generalize s.iters i = iter? at hpass
    cases hpass with
    | running _ _ hseen =>
        rcases hseen k hk with ⟨-, hnot⟩ | ⟨-, hcount⟩
        · rw [List.count_eq_zero.mpr hnot]
          exact Nat.zero_le 1
        · exact hcount.le

theorem iterator_complete_small : ∃ (s : Process Bool ℕ ℕ) (log : List (Call Bool ℕ ℕ × Ret ℕ ℕ)),
    (machine Bool ℕ id).Trace s log ∧ ∃ emitted gone, passOf log true = some (.ended emitted gone) ∧
      emitted.count 2 = 1 := by
  refine ⟨_, _, smallCalls_trace, [9, 5, 1, 2, 3], _, by with_unfolding_all rfl, ?_⟩
  exact (iterator_complete smallCalls_trace true).1 _ _ (by with_unfolding_all rfl) 2 (by
    with_unfolding_all decide)

/-- The calls of `dictRehash` move on until the dictionary is not rehashing. -/
theorem rehash_run (h : Related hash s spec) (hidle : ∀ i, ¬ UnderWay (s.iters i)) {n : ℕ} (hn : n ≠ 0)
    (hfits : n * 10 < 2147483648) (turns : ℕ)
    (hturns : isRehashing s.d → s.d.ht0.size < s.d.rehashidx + turns) :
    (machine ι ν hash).AllOk s (List.replicate turns (.rehash n)) ∧
      ∃ log s', (machine ι ν hash).execAll s (List.replicate turns (.rehash n)) = some (log, s') ∧
        Related hash s' spec ∧ ¬ isRehashing s'.d := by
  induction turns generalizing s with
  | zero =>
      refine ⟨trivial, [], s, rfl, h, fun hr ↦ ?_⟩
      have hle := (h.wf.moving hr).idx_le
      have hlt := hturns hr
      omega
  | succ turns ih =>
      obtain ⟨ret, d', hrehash, hkept, -, hmoved⟩ := dictRehash_spec h.wf n
      have hrelated : Related hash { s with d := d' } spec :=
        h.kept hkept fun hpaused ↦ absurd (h.iterators_zero hidle) hpaused
      have hturns' : isRehashing d' → d'.ht0.size < d'.rehashidx + turns := by
        intro hr'
        obtain ⟨hsize, hidx⟩ := hmoved hn hr'
        have hr : isRehashing s.d := by
          by_contra hidle
          have hstay : dictRehash hash s.d n = some (0, s.d) := by rw [dictRehash, if_neg hidle]
          rw [hstay] at hrehash
          cases hrehash
          exact hidle hr'
        have hlt := hturns hr
        omega
      obtain ⟨hok, log, s', hexec, hrelated', hdone⟩ := ih hrelated hidle hturns'
      have hstep : (machine ι ν hash).exec s (.rehash n) = some (.code ret, { s with d := d' }) := by
        change s.exec hash (.rehash n) = _
        rw [Process.exec, hrehash]
        rfl
      refine ⟨⟨⟨hfits, hidle⟩, fun out hout ↦ ?_⟩, (.rehash n, .code ret) :: log, s', ?_, hrelated', hdone⟩
      · rw [hstep] at hout
        cases hout
        exact hok
      · rw [List.replicate_succ, Machine.execAll, hstep, Option.bind_some, hexec]
        rfl

/-- For every run: where no iterator is under way, as many calls of `dictRehash` as the first table has
buckets, and one more, end the rehashing, and the map is what it was. -/
theorem rehash_finishes {s : Process ι κ ν} {log : List (Call ι κ ν × Ret κ ν)}
    (htrace : (machine ι ν hash).Trace s log) (hidle : ∀ i, ¬ UnderWay (s.iters i)) {n : ℕ} (hn : n ≠ 0)
    (hfits : n * 10 < 2147483648) :
    (machine ι ν hash).AllOk s (List.replicate (s.d.ht0.size + 1) (.rehash n)) ∧
      ∃ log' s', (machine ι ν hash).execAll s (List.replicate (s.d.ht0.size + 1) (.rehash n)) =
          some (log', s') ∧ ¬ isRehashing s'.d ∧ Binds Prod.fst Prod.snd (entries s'.d) (contents log) := by
  have hrelated := htrace.related (fun _ ↦ none, fun _ ↦ none) (fun _ hinit ↦ hinit ▸ related_init hash)
    (call_simulates hash)
  obtain ⟨hok, log', s', hexec, hrelated', hdone⟩ := rehash_run hrelated hidle hn hfits (s.d.ht0.size + 1)
    fun hr ↦ by
      have hge := (hrelated.wf.moving hr).idx_nonneg
      omega
  exact ⟨hok, log', s', hexec, hdone, hrelated'.binds⟩

/-- A dictionary that begins to rehash. -/
def growingCalls : List (Call Unit ℕ ℕ) := [.add 1 10, .add 5 50, .add 9 90, .add 2 20, .add 3 30]

theorem growingCalls_run : ((machine Unit ℕ (id : ℕ → ℕ)).execAll ⟨dictCreate, true, fun _ ↦ none⟩
    growingCalls).isSome := by with_unfolding_all decide

theorem growingCalls_trace : (machine Unit ℕ (id : ℕ → ℕ)).Trace
    (((machine Unit ℕ id).execAll ⟨dictCreate, true, fun _ ↦ none⟩ growingCalls).get growingCalls_run).2
    (((machine Unit ℕ id).execAll ⟨dictCreate, true, fun _ ↦ none⟩ growingCalls).get growingCalls_run).1 :=
  Machine.trace_execAll rfl (by with_unfolding_all decide) (Option.some_get growingCalls_run).symm

theorem rehash_finishes_growing :
    ∃ (s : Process Unit ℕ ℕ) (log : List (Call Unit ℕ ℕ × Ret ℕ ℕ)), (machine Unit ℕ id).Trace s log ∧
      isRehashing s.d ∧ ∃ log' s', (machine Unit ℕ id).execAll s (List.replicate (s.d.ht0.size + 1)
        (.rehash 1)) = some (log', s') ∧ ¬ isRehashing s'.d := by
  obtain ⟨-, log', s', hexec, hdone, -⟩ := rehash_finishes growingCalls_trace
    (by with_unfolding_all decide) (n := 1) (by decide) (by decide)
  exact ⟨_, _, growingCalls_trace, by with_unfolding_all decide, log', s', hexec, hdone⟩

end CPractice.Dict
