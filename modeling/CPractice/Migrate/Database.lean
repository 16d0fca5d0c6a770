import CPractice.Migrate.Copy

/-!
# Migrating a whole database

`migrate_db` visits the keys in the order of the pages of `scan`, `migrate_db2` in the order of
`keys`.  Both leave the source in the destination exactly when every key is movable and `scan`
returns no list key twice: the visits of `migrate_db2` are distinct, those of `migrate_db` need not
be, and only lists count them.
-/

namespace CPractice.Migrate

open Lib

variable {Score : Type}

/-! ## Runs of visits -/

/-- Visits of movable keys settle, and leave `copied`. -/
theorem visits_settle {src : Server Score}
    {migrate : ℕ → Session Score → Bytes → Option (Session Score)} (visits : List Bytes)
    (hmigrate : ∀ key ∈ visits, ∀ taken (st : Session Score), st.dst = copied src taken →
      ∃ enough st', Settles (fun turns ↦ migrate turns st key) enough st' ∧
        st'.dst = copied src (taken ++ [key])) :
    ∃ enough st', Settles
        (fun turns ↦ visits.foldlM (migrate turns) { calls := fun _ ↦ 0, dst := fun _ ↦ none })
        enough st' ∧ st'.dst = copied src visits :=
  Settles.foldlM (fun taken (st : Session Score) ↦ st.dst = copied src taken) visits hmigrate [] _
    (copied_nil src).symm

/-- The destination is the source when every key was visited and no list twice. -/
theorem copied_eq_db {src : Server Score} {visits : List Bytes}
    (hall : ∀ key, key ∈ visits ↔ (src.db key).isSome)
    (honce : ∀ key elements, src.db key = some (.list elements) → visits.count key ≤ 1) :
    copied src visits = src.db := by
  funext key
  by_cases hmem : key ∈ visits
  · rcases Option.isSome_iff_exists.mp ((hall key).mp hmem) with ⟨value, hvalue⟩
    rw [copied, if_pos hmem, hvalue, Option.map_some]
    cases value with
    | list elements =>
        have hcount : visits.count key = 1 := by
          have hpos := List.count_pos_iff.mpr hmem
          have hle := honce key elements hvalue
          omega
        rw [hcount, repeated]
        simp
    | string text => rfl
    | set members => rfl
    | hash fields => rfl
    | zset scores => rfl
  · rw [copied, if_neg hmem]
    exact (Option.not_isSome_iff_eq_none.mp fun h ↦ hmem ((hall key).mpr h)).symm

/-- Where the destination is the source, no list was visited twice. -/
theorem count_le_of_copied {src : Server Score} {visits : List Bytes}
    (hcopied : copied src visits = src.db) {key : Bytes} {elements : List Bytes}
    (hkey : src.db key = some (.list elements)) : visits.count key ≤ 1 := by
  by_cases hmem : key ∈ visits
  · have hvalue : copied src visits key = some (.list elements) := by rw [hcopied, hkey]
    rw [copied, if_pos hmem, hkey, Option.map_some, Option.some_inj, repeated,
      Value.list.injEq] at hvalue
    have hlength := congrArg List.length hvalue
    rw [List.length_flatten, List.map_replicate, List.sum_replicate_nat] at hlength
    have hpos : 0 < elements.length := List.length_pos_iff.mpr (src.list_ne_nil key elements hkey)
    exact Nat.le_of_mul_le_mul_right (by omega) hpos
  · rw [List.count_eq_zero_of_not_mem hmem]
    exact Nat.zero_le 1

/-! ## The two loops -/

/-- The loop of `migrate_db` visits the keys of all pages one after another. -/
theorem migrateDbLoop_eq {src : Server Score} {inner call : ℕ} {cursor : ℤ}
    {pages : List (List Bytes)} (h : Iterates src.scan call cursor pages) (turns : ℕ)
    (st : Session Score) :
    migrateDbLoop src inner turns call cursor st =
      if pages.length ≤ turns then pages.flatten.foldlM (migrateKey src inner) st else none := by
  induction h generalizing turns st with
  | @last call cursor page hscan =>
      cases turns with
      | zero => rfl
      | succ turns =>
          simp only [migrateDbLoop, hscan]
          rw [if_pos (by simp), List.flatten_singleton]
          cases page.foldlM (migrateKey src inner) st with
          | none => rfl
          | some after => rfl
  | @more call cursor next page pages hscan hnext _ ih =>
      cases turns with
      | zero => rfl
      | succ turns =>
          simp only [migrateDbLoop, hscan, List.flatten_cons, List.foldlM_append]
          cases page.foldlM (migrateKey src inner) st with
          | none => simp
          | some mid => simp [hnext, ih]

theorem getKeyNum_nonpos_iff (src : Server Score) :
    getKeyNum src ≤ 0 ↔ src.db = fun _ ↦ none := by
  have hkeys : getKeyNum src ≤ 0 ↔ src.keys = [] := by
    rw [getKeyNum, ← List.length_eq_zero_iff]
    omega
  rw [hkeys]
  constructor
  · intro hnil
    funext key
    apply Option.not_isSome_iff_eq_none.mp
    rw [← src.mem_keys key, hnil]
    exact List.not_mem_nil
  · intro hdb
    apply List.eq_nil_iff_forall_not_mem.mpr
    intro key hkey
    have hsome := (src.mem_keys key).mp hkey
    rw [hdb] at hsome
    cases hsome

theorem migrateDb2_eq {src : Server Score} (hnum : ¬ getKeyNum src ≤ 0) (turns : ℕ) :
    migrateDb2 src turns = (src.keys.foldlM (migrateKey2 src turns)
      { calls := fun _ ↦ 0, dst := fun _ ↦ none }).map Session.dst := by
  rw [migrateDb2, migrateDb2From, if_neg hnum]

/-- `migrate_db2` returns only when every key is movable. -/
theorem movable_of_migrateDb2 {src : Server Score} {turns : ℕ} {dst : Db Score}
    (h : migrateDb2 src turns = some dst) {key : Bytes} {value : Value Score}
    (hvalue : src.db key = some value) : Movable key value := by
  have hmem : key ∈ src.keys := (src.mem_keys key).mpr (by rw [hvalue]; rfl)
  have hnum : ¬ getKeyNum src ≤ 0 := by
    rw [getKeyNum_nonpos_iff]
    intro hdb
    rw [hdb] at hvalue
    cases hvalue
  rw [migrateDb2_eq hnum, Option.map_eq_some_iff] at h
  rcases h with ⟨st, hst, _⟩
  rcases step_of_foldlM_eq_some _ hst hmem with ⟨before, after, hstep⟩
  exact movable_of_migrateKey2 hvalue hstep

/-- With movable keys `migrate_db2` returns the source, whatever the bound from some bound on. -/
theorem migrateDb2_returns {src : Server Score}
    (hmov : ∀ key value, src.db key = some value → Movable key value) :
    ∃ enough, ∀ turns, enough ≤ turns → migrateDb2 src turns = some src.db := by
  by_cases hnum : getKeyNum src ≤ 0
  · refine ⟨0, fun turns _ ↦ ?_⟩
    rw [migrateDb2, migrateDb2From, if_pos hnum, (getKeyNum_nonpos_iff src).mp hnum]
    rfl
  · have hcopies : ∀ key ∈ src.keys, ∀ taken (st : Session Score), st.dst = copied src taken →
        ∃ enough st', Settles (fun turns ↦ migrateKey2 src turns st key) enough st' ∧
          st'.dst = copied src (taken ++ [key]) := by
      intro key hkey taken st hst
      rcases Option.isSome_iff_exists.mp ((src.mem_keys key).mp hkey) with ⟨value, hvalue⟩
      exact migrateKey2_copies hvalue (hmov key value hvalue) hst
    rcases visits_settle src.keys hcopies with ⟨enough, st, hsettles, hdst⟩
    refine ⟨enough, fun turns hturns ↦ ?_⟩
    have hfold := hsettles turns
    simp only [if_pos hturns] at hfold
    rw [migrateDb2_eq hnum, hfold, Option.map_some, hdst, copied_eq_db src.mem_keys]
    intro key elements _
    exact List.nodup_iff_count_le_one.mp src.keys_nodup key

/-- `migrate_db` over the pages of `scan`, which may repeat keys. -/
theorem migrateDb_eq_some_iff {src : Server Score} {pages : List (List Bytes)}
    (hpages : Iterates src.scan 0 0 pages)
    (hall : ∀ key, key ∈ pages.flatten ↔ (src.db key).isSome) :
    (∃ turns, migrateDb src turns = some src.db) ↔
      (∀ key value, src.db key = some value → Movable key value) ∧
        ∀ key elements, src.db key = some (.list elements) → pages.flatten.count key ≤ 1 := by
  by_cases hnum : getKeyNum src ≤ 0
  · have hdb := (getKeyNum_nonpos_iff src).mp hnum
    constructor
    · intro _
      constructor
      · intro key value hvalue
        rw [hdb] at hvalue
        cases hvalue
      · intro key elements hvalue
        rw [hdb] at hvalue
        cases hvalue
    · intro _
      refine ⟨0, ?_⟩
      simp only [migrateDb, if_pos hnum, hdb]
  · have hrun : ∀ turns, migrateDb src turns = if pages.length ≤ turns then
        (pages.flatten.foldlM (migrateKey src turns)
          { calls := fun _ ↦ 0, dst := fun _ ↦ none }).map Session.dst else none := by
      intro turns
      simp only [migrateDb, if_neg hnum, migrateDbLoop_eq hpages]
      split <;> rfl
    have hcopies : (∀ key value, src.db key = some value → Movable key value) →
        ∀ key ∈ pages.flatten, ∀ taken (st : Session Score), st.dst = copied src taken →
          ∃ enough st', Settles (fun turns ↦ migrateKey src turns st key) enough st' ∧
            st'.dst = copied src (taken ++ [key]) := by
      intro hmov key hkey taken st hst
      rcases Option.isSome_iff_exists.mp ((hall key).mp hkey) with ⟨value, hvalue⟩
      exact migrateKey_copies hvalue (hmov key value hvalue) hst
    constructor
    · rintro ⟨turns, hturns⟩
      rw [hrun] at hturns
      split at hturns
      · rw [Option.map_eq_some_iff] at hturns
        rcases hturns with ⟨st, hst, hdst⟩
        have hmov : ∀ key value, src.db key = some value → Movable key value := by
          intro key value hvalue
          have hmem : key ∈ pages.flatten := (hall key).mpr (by rw [hvalue]; rfl)
          rcases step_of_foldlM_eq_some _ hst hmem with ⟨before, after, hstep⟩
          exact movable_of_migrateKey hvalue hstep
        rcases visits_settle pages.flatten (hcopies hmov) with ⟨enough, st', hsettles, hdst'⟩
        have hsame : st = st' := hsettles.eq_of_some hst
        have hcopied : copied src pages.flatten = src.db := by rw [← hdst', ← hsame, hdst]
        exact ⟨hmov, fun key elements hkey ↦ count_le_of_copied hcopied hkey⟩
      · cases hturns
    · rintro ⟨hmov, honce⟩
      rcases visits_settle pages.flatten (hcopies hmov) with ⟨enough, st, hsettles, hdst⟩
      refine ⟨max pages.length enough, ?_⟩
      have hfold := hsettles (max pages.length enough)
      simp only [if_pos (Nat.le_max_right pages.length enough)] at hfold
      rw [hrun, if_pos (Nat.le_max_left _ _), hfold, Option.map_some, hdst,
        copied_eq_db hall honce]

/-- A server without `scan` sends `migrate_db` the way of `migrate_db2`. -/
theorem migrateDb_of_unknown {src : Server Score} (hscan : src.scan 0 0 = .error unknownScan)
    (turns : ℕ) : migrateDb src (turns + 1) = migrateDb2 src (turns + 1) := by
  by_cases hnum : getKeyNum src ≤ 0
  · simp only [migrateDb, migrateDb2, migrateDb2From, if_pos hnum, Option.map_some]
  · have htext : strncmpWhole unknownScan unknownScan = true := by decide
    simp only [migrateDb, migrateDb2, if_neg hnum, migrateDbLoop, hscan, htext, if_true]

/-! ## Both ways of migrating -/

/-- Both `migrate_db` and `migrate_db2` return, with the source in the destination, exactly when no
key and no string is empty, every list has fewer than ten elements and none that is empty, and the
replies of `scan` name no list key twice. -/
theorem migrations_copy_database (src : Server Score) :
    ((∃ turns, migrateDb src turns = some src.db) ∧
        ∃ turns, migrateDb2 src turns = some src.db) ↔
      (∀ key value, src.db key = some value → Movable key value) ∧
        ∀ pages, Iterates src.scan 0 0 pages →
          ∀ key elements, src.db key = some (.list elements) → pages.flatten.count key ≤ 1 := by
  constructor
  · rintro ⟨hdb, turns, hturns⟩
    have hmov : ∀ key value, src.db key = some value → Movable key value :=
      fun key value hvalue ↦ movable_of_migrateDb2 hturns hvalue
    refine ⟨hmov, fun pages hpages ↦ ?_⟩
    rcases src.scan_keys with ⟨others, hothers, hall⟩ | hunknown
    · rw [hpages.unique hothers]
      exact ((migrateDb_eq_some_iff hothers hall).mp hdb).2
    · cases hpages with
      | last hscan => rw [hunknown] at hscan; cases hscan
      | more hscan _ _ => rw [hunknown] at hscan; cases hscan
  · rintro ⟨hmov, honce⟩
    rcases migrateDb2_returns hmov with ⟨enough, hreturns⟩
    refine ⟨?_, enough, hreturns enough le_rfl⟩
    rcases src.scan_keys with ⟨pages, hpages, hall⟩ | hunknown
    · exact (migrateDb_eq_some_iff hpages hall).mpr ⟨hmov, honce pages hpages⟩
    · refine ⟨enough + 1, ?_⟩
      rw [migrateDb_of_unknown hunknown, hreturns (enough + 1) (Nat.le_succ enough)]

theorem value_single {key : Bytes} {value other : Value UInt8}
    (h : Function.update (fun _ ↦ none) [108] (some other) key = some value) : value = other := by
  by_cases heq : key = [108]
  · rw [heq, Function.update_self] at h
    exact (Option.some.inj h).symm
  · rw [Function.update_of_ne heq] at h
    cases h

theorem mem_single {value : Value UInt8} (key : Bytes) :
    key ∈ [[108]] ↔ (Function.update (fun _ ↦ none) [108] (some value) key).isSome := by
  rw [List.mem_singleton]
  by_cases heq : key = [108]
  · rw [heq, Function.update_self]
    simp
  · rw [Function.update_of_ne heq]
    simp [heq]

/-- A database with one key, a list of ten elements. -/
def tenElements : Server UInt8 where
  print score := [score]
  read
    | [byte] => some byte
    | _ => none
  read_print := fun _ ↦ rfl
  db := Function.update (fun _ ↦ none) [108] (some (.list (List.replicate 10 [97])))
  keys := [[108]]
  scan _ _ := .ok (0, [[108]])
  smembers _ := []
  sscan _ _ _ := .error "WRONGTYPE"
  hgetall _ := []
  hscan _ _ _ := .error "WRONGTYPE"
  zrange _ := []
  zscan _ _ _ := .error "WRONGTYPE"
  keys_nodup := List.nodup_singleton _
  mem_keys := mem_single
  scan_keys := Or.inl ⟨[[[108]]], .last rfl, mem_single⟩
  list_ne_nil := fun key elements h ↦ by
    have hvalue := value_single h
    cases hvalue
    exact List.cons_ne_nil _ _
  set_ne_empty := fun key members h ↦ by cases value_single h
  mem_smembers := fun key members h ↦ by cases value_single h
  sscan_set := fun key members h ↦ by cases value_single h
  hash_ne_empty := fun key fields h ↦ by cases value_single h
  mem_hgetall := fun key fields h ↦ by cases value_single h
  hscan_hash := fun key fields h ↦ by cases value_single h
  zset_ne_empty := fun key members h ↦ by cases value_single h
  mem_zrange := fun key members h ↦ by cases value_single h
  zscan_zset := fun key members h ↦ by cases value_single h

/-- The ten elements are pushed for ever: neither way of migrating returns. -/
theorem ten_elements_not_migrated :
    ¬ ((∃ turns, migrateDb tenElements turns = some tenElements.db) ∧
      ∃ turns, migrateDb2 tenElements turns = some tenElements.db) := by
  rintro ⟨_, turns, hturns⟩
  have hlist : tenElements.db [108] = some (.list (List.replicate 10 [97])) := rfl
  have hshort := (movable_of_migrateDb2 hturns hlist).2.1
  exact absurd hshort (by decide)

end CPractice.Migrate
