import CPractice.Migrate.Commands

/-!
# What the migration leaves in the destination

`Movable` says when a key can be copied at all: the key and a string value are not empty, and a list
has fewer elements than a page and none that is empty.  `copied` is the destination after a list of
visits: every visited key with its value, and lists once per visit.  One visit of a movable key takes
`copied` to `copied` (`migrateKey_copies`, `migrateKey2_copies`), a visit of any other key does not
return, and whole runs follow by induction over the visits.
-/

namespace CPractice.Migrate

open Lib

variable {Score : Type}

/-- The values that the copying functions take over without failing or turning for ever. -/
def Movable (key : Bytes) : Value Score → Prop
  | .string text => key ≠ [] ∧ text ≠ []
  | .list elements => key ≠ [] ∧ elements.length < SCAN_INC ∧ [] ∉ elements
  | _ => key ≠ []

theorem Movable.key_ne_nil {key : Bytes} {value : Value Score} (h : Movable key value) :
    key ≠ [] := by
  cases value with
  | string text => exact h.1
  | list elements => exact h.1
  | set members => exact h
  | hash fields => exact h
  | zset scores => exact h

/-- A value after its key was visited so many times. -/
def repeated (times : ℕ) : Value Score → Value Score
  | .list elements => .list (List.replicate times elements).flatten
  | value => value

/-- The destination after the visits. -/
def copied (src : Server Score) (visits : List Bytes) : Db Score := fun key ↦
  if key ∈ visits then (src.db key).map (repeated (visits.count key)) else none

theorem copied_nil (src : Server Score) : copied src [] = fun _ ↦ none := by
  funext key
  rw [copied, if_neg List.not_mem_nil]

/-- One more visit changes the destination at the visited key alone. -/
theorem copied_visit (src : Server Score) (visits : List Bytes) {key : Bytes}
    {value : Value Score} (hkey : src.db key = some value) :
    copied src (visits ++ [key]) =
      Function.update (copied src visits) key
        (some (repeated (visits.count key + 1) value)) := by
  funext other
  by_cases heq : other = key
  · subst heq
    rw [Function.update_self, copied, if_pos (by simp), hkey, List.count_append]
    simp
  · rw [Function.update_of_ne heq]
    have hcount : (visits ++ [key]).count other = visits.count other := by
      rw [List.count_append, List.count_eq_zero_of_not_mem fun h ↦ heq (List.mem_singleton.mp h),
        Nat.add_zero]
    simp only [copied, hcount, List.mem_append, List.mem_singleton, heq, or_false]

/-- What a visited key holds before the visit, for the values that absorb repetition. -/
theorem copied_of_fixed (src : Server Score) (visits : List Bytes) {key : Bytes}
    {value : Value Score} (hkey : src.db key = some value)
    (hfixed : ∀ times, repeated times value = value) :
    copied src visits key = none ∨ copied src visits key = some value := by
  rw [copied, hkey]
  by_cases hmem : key ∈ visits
  · rw [if_pos hmem, Option.map_some, hfixed]
    exact Or.inr rfl
  · rw [if_neg hmem]
    exact Or.inl rfl

/-! ## The type of a key -/

theorem getKeyType_of_nil (src : Server Score) : getKeyType src [] = none := by
  rw [getKeyType, List.length_nil, if_pos rfl]

theorem getKeyType_string {src : Server Score} {key text : Bytes} (hne : key ≠ [])
    (h : src.db key = some (.string text)) : getKeyType src key = some .string := by
  simp [getKeyType, hne, typeName, Db.type, h]

theorem getKeyType_list {src : Server Score} {key : Bytes} {elements : List Bytes}
    (hne : key ≠ []) (h : src.db key = some (.list elements)) :
    getKeyType src key = some .list := by
  simp [getKeyType, hne, typeName, Db.type, h]

theorem getKeyType_set {src : Server Score} {key : Bytes} {members : Finset Bytes}
    (hne : key ≠ []) (h : src.db key = some (.set members)) :
    getKeyType src key = some .set := by
  simp [getKeyType, hne, typeName, Db.type, h]

theorem getKeyType_hash {src : Server Score} {key : Bytes} {fields : Bytes → Option Bytes}
    (hne : key ≠ []) (h : src.db key = some (.hash fields)) :
    getKeyType src key = some .hash := by
  simp [getKeyType, hne, typeName, Db.type, h]

theorem getKeyType_zset {src : Server Score} {key : Bytes} {scores : Bytes → Option Score}
    (hne : key ≠ []) (h : src.db key = some (.zset scores)) :
    getKeyType src key = some .sset := by
  simp [getKeyType, hne, typeName, Db.type, h]

/-! ## Lists -/

theorem lrange_first_page {db : Db Score} {key : Bytes} {elements : List Bytes}
    (h : db key = some (.list elements)) :
    db.lrange key 0 (0 + SCAN_INC - 1) = some (elements.take SCAN_INC) := by
  simp [Db.lrange, h, SCAN_INC]

theorem pushElements_eq_some {key : Bytes} {elements : List Bytes} (hne : [] ∉ elements)
    (dst : Db Score) :
    pushElements key elements dst =
      some (elements.foldl (fun (db : Db Score) element ↦ db.rpush key element) dst) := by
  induction elements generalizing dst with
  | nil => rfl
  | cons element elements ih =>
      rw [List.mem_cons, not_or] at hne
      have hlength : element.length ≠ 0 := fun h ↦ hne.1 (List.length_eq_zero_iff.mp h).symm
      rw [pushElements, if_neg hlength, ih hne.2, List.foldl_cons]

theorem not_mem_of_pushElements {key : Bytes} {elements : List Bytes} {dst dst' : Db Score}
    (h : pushElements key elements dst = some dst') : [] ∉ elements := by
  induction elements generalizing dst with
  | nil => exact List.not_mem_nil
  | cons element elements ih =>
      rw [pushElements] at h
      split at h
      · cases h
      · rename_i hlength
        rw [List.mem_cons, not_or]
        exact ⟨fun heq ↦ hlength (by rw [← heq, List.length_nil]), ih h⟩

/-- A list as long as a page is pushed again and again. -/
theorem migrateListLoop_long {src : Server Score} {key : Bytes} {elements : List Bytes}
    (hkey : src.db key = some (.list elements)) (hlong : SCAN_INC ≤ elements.length)
    (turns : ℕ) (dst : Db Score) : migrateListLoop src key 0 turns dst = none := by
  have hpage : (elements.take SCAN_INC).length = SCAN_INC := by
    rw [List.length_take, Nat.min_eq_left hlong]
  induction turns generalizing dst with
  | zero => rfl
  | succ turns ih =>
      rw [migrateListLoop, lrange_first_page hkey, Option.bind_eq_bind, Option.bind_some, hpage,
        if_neg (by decide)]
      cases hpush : pushElements key (elements.take SCAN_INC) dst with
      | none => rfl
      | some dst' =>
          rw [Option.bind_eq_bind, Option.bind_some, if_neg (lt_irrefl SCAN_INC)]
          exact ih dst'

theorem short_of_migrateList {src : Server Score} {key : Bytes} {elements : List Bytes}
    (hkey : src.db key = some (.list elements)) {turns : ℕ} {st st' : Session Score}
    (h : migrateList src turns st key = some st') :
    elements.length < SCAN_INC ∧ [] ∉ elements := by
  rw [migrateList, Option.bind_eq_bind, Option.bind_eq_some_iff] at h
  rcases h with ⟨dst, hloop, _⟩
  have hshort : elements.length < SCAN_INC := by
    by_contra hlong
    rw [migrateListLoop_long hkey (Nat.le_of_not_lt hlong)] at hloop
    cases hloop
  refine ⟨hshort, ?_⟩
  have htake : elements.take SCAN_INC = elements := List.take_of_length_le hshort.le
  cases turns with
  | zero => cases hloop
  | succ turns =>
      rw [migrateListLoop, lrange_first_page hkey, Option.bind_eq_bind, Option.bind_some, htake]
        at hloop
      split at hloop
      · rename_i hempty
        rw [List.length_eq_zero_iff.mp hempty]
        exact List.not_mem_nil
      · rw [Option.bind_eq_bind, Option.bind_eq_some_iff] at hloop
        rcases hloop with ⟨pushed, hpush, _⟩
        exact not_mem_of_pushElements hpush

/-- A visit of a short list appends it once more. -/
theorem migrateList_copies {src : Server Score} {key : Bytes} {elements : List Bytes}
    (hkey : src.db key = some (.list elements)) (hshort : elements.length < SCAN_INC)
    (hne : [] ∉ elements) {visits : List Bytes} {st : Session Score}
    (hst : st.dst = copied src visits) :
    ∃ enough st', Settles (fun turns ↦ migrateList src turns st key) enough st' ∧
      st'.dst = copied src (visits ++ [key]) := by
  have hnil := src.list_ne_nil key elements hkey
  have htake : elements.take SCAN_INC = elements := List.take_of_length_le hshort.le
  have hlength : elements.length ≠ 0 := fun h ↦ hnil (List.length_eq_zero_iff.mp h)
  have hloop : Settles (fun turns ↦ migrateListLoop src key 0 turns st.dst) 1
      (elements.foldl (fun (db : Db Score) element ↦ db.rpush key element) st.dst) := by
    intro turns
    cases turns with
    | zero => rfl
    | succ turns =>
        simp only
        rw [migrateListLoop, lrange_first_page hkey, Option.bind_eq_bind, Option.bind_some, htake,
          if_neg hlength, pushElements_eq_some hne, Option.bind_eq_bind, Option.bind_some,
          if_pos hshort, if_pos (Nat.le_add_left 1 turns)]
  refine ⟨max 1 0, _, hloop.bind (Settles.const _), ?_⟩
  simp only
  rw [hst, copied_visit src visits hkey]
  by_cases hmem : key ∈ visits
  · -- the key was there: its list grows by one more copy
    have hheld : copied src visits key =
        some (.list (List.replicate (visits.count key) elements).flatten) := by
      rw [copied, if_pos hmem, hkey]
      rfl
    have hself : copied src visits = Function.update (copied src visits) key
        (some (.list (List.replicate (visits.count key) elements).flatten)) := by
      rw [← hheld, Function.update_eq_self]
    rw [hself, foldl_rpush, Function.update_idem, repeated, List.replicate_succ',
      List.flatten_append, List.flatten_singleton]
  · have hnone : copied src visits key = none := by rw [copied, if_neg hmem]
    rw [foldl_rpush_none hnone hnil, List.count_eq_zero_of_not_mem hmem, repeated]
    simp

/-! ## Sets, hashes and sorted sets -/

/-- A copy that leaves the key with the source's value, where repetition changes nothing, takes
`copied` to `copied`. -/
theorem copied_of_update {src : Server Score} {visits : List Bytes} {key : Bytes}
    {value : Value Score} (hkey : src.db key = some value)
    (hfixed : ∀ times, repeated times value = value) {dst : Db Score}
    (hdst : dst = Function.update (copied src visits) key (some value)) :
    dst = copied src (visits ++ [key]) := by
  rw [hdst, copied_visit src visits hkey, hfixed]

section Visits

variable {src : Server Score} {key : Bytes} {visits : List Bytes} {st : Session Score}
  (hst : st.dst = copied src visits)
include hst

theorem migrateSet_copies {members : Finset Bytes} (hkey : src.db key = some (.set members)) :
    ∃ enough st', Settles (fun turns ↦ migrateSet src turns st key) enough st' ∧
      st'.dst = copied src (visits ++ [key]) := by
  rcases src.sscan_set key members hkey (st.calls key) with ⟨pages, hpages, hmem⟩
  rcases scanKey_settles hpages (foldlM_addMembers key pages st.dst) with
    ⟨enough, st', hsettles, hdst⟩
  refine ⟨enough, st', hsettles, copied_of_update hkey (fun _ ↦ rfl) ?_⟩
  rw [hdst, hst]
  exact foldl_sadd_listing (src.set_ne_empty key members hkey) hmem
    (copied_of_fixed src visits hkey fun _ ↦ rfl)

theorem migrateSet2_copies {members : Finset Bytes} (hkey : src.db key = some (.set members)) :
    ∃ st', migrateSet2 src st key = some st' ∧ st'.dst = copied src (visits ++ [key]) := by
  refine ⟨_, rfl, copied_of_update hkey (fun _ ↦ rfl) ?_⟩
  simp only
  rw [hst]
  exact foldl_sadd_listing (src.set_ne_empty key members hkey) (src.mem_smembers key members hkey)
    (copied_of_fixed src visits hkey fun _ ↦ rfl)

/-- The pairs of a hash, once listed, rebuild it. -/
theorem foldl_addField {fields : Bytes → Option Bytes} (hkey : src.db key = some (.hash fields))
    {pairs : List (Bytes × Bytes)}
    (hmem : ∀ field text, (field, text) ∈ pairs ↔ fields field = some text) :
    pairs.foldl (fun db pair ↦ addField key db pair.1 pair.2) st.dst =
      copied src (visits ++ [key]) := by
  apply copied_of_update hkey fun _ ↦ rfl
  rw [hst]
  apply foldl_listing (addField_binds key) (src.hash_ne_empty key fields hkey)
  · intro pair hpair
    exact ⟨rfl, ((hmem pair.1 pair.2).mp hpair).symm⟩
  · intro field hfield
    rcases Option.isSome_iff_exists.mp hfield with ⟨text, htext⟩
    exact List.mem_map.mpr ⟨(field, text), (hmem field text).mpr htext, rfl⟩
  · exact copied_of_fixed src visits hkey fun _ ↦ rfl

/-- The pairs of a sorted set, once listed, rebuild it. -/
theorem foldl_addScored {scores : Bytes → Option Score} (hkey : src.db key = some (.zset scores))
    {pairs : List (Bytes × Bytes)}
    (hmem : ∀ member text, (member, text) ∈ pairs ↔ (scores member).map src.print = some text) :
    pairs.foldl (fun db pair ↦ addScored src key db pair.1 pair.2) st.dst =
      copied src (visits ++ [key]) := by
  apply copied_of_update hkey fun _ ↦ rfl
  rw [hst]
  apply foldl_listing (addScored_binds src key) (src.zset_ne_empty key scores hkey)
  · intro pair hpair
    rcases Option.map_eq_some_iff.mp ((hmem pair.1 pair.2).mp hpair) with ⟨score, hscore, htext⟩
    rw [← htext, src.read_print, hscore]
    exact ⟨rfl, rfl⟩
  · intro member hmember
    rcases Option.isSome_iff_exists.mp hmember with ⟨score, hscore⟩
    refine List.mem_map.mpr ⟨(member, src.print score), (hmem member _).mpr ?_, rfl⟩
    rw [hscore, Option.map_some]
  · exact copied_of_fixed src visits hkey fun _ ↦ rfl

theorem migrateHashtable_copies {fields : Bytes → Option Bytes}
    (hkey : src.db key = some (.hash fields)) :
    ∃ enough st', Settles (fun turns ↦ migrateHashtable src turns st key) enough st' ∧
      st'.dst = copied src (visits ++ [key]) := by
  rcases src.hscan_hash key fields hkey (st.calls key) with ⟨pages, hpages, hmem⟩
  rcases scanKey_settles hpages (foldlM_addPairs (addField key) pages st.dst) with
    ⟨enough, st', hsettles, hdst⟩
  exact ⟨enough, st', hsettles, hdst.trans (foldl_addField hst hkey hmem)⟩

theorem migrateSset_copies {scores : Bytes → Option Score}
    (hkey : src.db key = some (.zset scores)) :
    ∃ enough st', Settles (fun turns ↦ migrateSset src turns st key) enough st' ∧
      st'.dst = copied src (visits ++ [key]) := by
  rcases src.zscan_zset key scores hkey (st.calls key) with ⟨pages, hpages, hmem⟩
  rcases scanKey_settles hpages (foldlM_addPairs (addScored src key) pages st.dst) with
    ⟨enough, st', hsettles, hdst⟩
  exact ⟨enough, st', hsettles, hdst.trans (foldl_addScored hst hkey hmem)⟩

end Visits

/-- A whole reply with at least one pair is copied pair by pair. -/
theorem wholeReply_eq_some {command : Db Score → Bytes → Bytes → Db Score}
    {pairs : List (Bytes × Bytes)} (hne : pairs ≠ []) (st : Session Score) :
    wholeReply command (interleave pairs) st =
      some { st with dst := pairs.foldl (fun db pair ↦ command db pair.1 pair.2) st.dst } := by
  have hlength : (interleave pairs).length ≠ 0 := by
    cases pairs with
    | nil => exact absurd rfl hne
    | cons pair pairs => simp
  rw [wholeReply, if_neg hlength, addPairs_interleave]
  rfl

section Visits2

variable {src : Server Score} {key : Bytes} {visits : List Bytes} {st : Session Score}
  (hst : st.dst = copied src visits)
include hst

theorem migrateHashtable2_copies {fields : Bytes → Option Bytes}
    (hkey : src.db key = some (.hash fields)) :
    ∃ st', migrateHashtable2 src st key = some st' ∧ st'.dst = copied src (visits ++ [key]) := by
  have hmem := src.mem_hgetall key fields hkey
  have hne : src.hgetall key ≠ [] := by
    rcases src.hash_ne_empty key fields hkey with ⟨field, hfield⟩
    rcases Option.isSome_iff_exists.mp hfield with ⟨text, htext⟩
    exact List.ne_nil_of_mem ((hmem field text).mpr htext)
  exact ⟨_, wholeReply_eq_some hne st, foldl_addField hst hkey hmem⟩

theorem migrateSset2_copies {scores : Bytes → Option Score}
    (hkey : src.db key = some (.zset scores)) :
    ∃ st', migrateSset2 src st key = some st' ∧ st'.dst = copied src (visits ++ [key]) := by
  have hmem := src.mem_zrange key scores hkey
  have hne : src.zrange key ≠ [] := by
    rcases src.zset_ne_empty key scores hkey with ⟨member, hmember⟩
    rcases Option.isSome_iff_exists.mp hmember with ⟨score, hscore⟩
    exact List.ne_nil_of_mem ((hmem member (src.print score)).mpr (by rw [hscore]; rfl))
  exact ⟨_, wholeReply_eq_some hne st, foldl_addScored hst hkey hmem⟩

/-! ## One key -/

theorem migrateString_copies {text : Bytes} (hkey : src.db key = some (.string text))
    (hne : text ≠ []) :
    ∃ st', migrateString src st key = some st' ∧ st'.dst = copied src (visits ++ [key]) := by
  have hlength : text.length ≠ 0 := fun h ↦ hne (List.length_eq_zero_iff.mp h)
  have hrun : migrateString src st key = some { st with dst := st.dst.set key text } := by
    simp [migrateString, Db.get, hkey, hne]
  refine ⟨_, hrun, copied_of_update hkey (fun _ ↦ rfl) ?_⟩
  simp only
  rw [hst, Db.set]

end Visits2

theorem ne_nil_of_migrateString {src : Server Score} {key text : Bytes}
    (hkey : src.db key = some (.string text)) {st st' : Session Score}
    (h : migrateString src st key = some st') : text ≠ [] := by
  rintro rfl
  simp [migrateString, Db.get, hkey] at h

/-- A step that succeeds whatever the bound is settles. -/
theorem settles_of_eq_some {run : Option (Session Score)} {P : Session Score → Prop}
    (h : ∃ st', run = some st' ∧ P st') :
    ∃ enough st', Settles (fun _ ↦ run) enough st' ∧ P st' := by
  rcases h with ⟨st', hrun, hP⟩
  exact ⟨0, st', by rw [hrun]; exact Settles.const st', hP⟩

section Keys

variable {src : Server Score} {key : Bytes} {value : Value Score}
  (hkey : src.db key = some value)
include hkey

theorem migrateKey_copies (hmov : Movable key value) {visits : List Bytes} {st : Session Score}
    (hst : st.dst = copied src visits) :
    ∃ enough st', Settles (fun turns ↦ migrateKey src turns st key) enough st' ∧
      st'.dst = copied src (visits ++ [key]) := by
  have hne := hmov.key_ne_nil
  cases value with
  | string text =>
      simp only [migrateKey, getKeyType_string hne hkey, Option.bind_eq_bind, Option.bind_some]
      exact settles_of_eq_some (migrateString_copies hst hkey hmov.2)
  | list elements =>
      simp only [migrateKey, getKeyType_list hne hkey, Option.bind_eq_bind, Option.bind_some]
      exact migrateList_copies hkey hmov.2.1 hmov.2.2 hst
  | set members =>
      simp only [migrateKey, getKeyType_set hne hkey, Option.bind_eq_bind, Option.bind_some]
      exact migrateSet_copies hst hkey
  | hash fields =>
      simp only [migrateKey, getKeyType_hash hne hkey, Option.bind_eq_bind, Option.bind_some]
      exact migrateHashtable_copies hst hkey
  | zset scores =>
      simp only [migrateKey, getKeyType_zset hne hkey, Option.bind_eq_bind, Option.bind_some]
      exact migrateSset_copies hst hkey

theorem migrateKey2_copies (hmov : Movable key value) {visits : List Bytes} {st : Session Score}
    (hst : st.dst = copied src visits) :
    ∃ enough st', Settles (fun turns ↦ migrateKey2 src turns st key) enough st' ∧
      st'.dst = copied src (visits ++ [key]) := by
  have hne := hmov.key_ne_nil
  cases value with
  | string text =>
      simp only [migrateKey2, getKeyType_string hne hkey, Option.bind_eq_bind, Option.bind_some]
      exact settles_of_eq_some (migrateString_copies hst hkey hmov.2)
  | list elements =>
      simp only [migrateKey2, getKeyType_list hne hkey, Option.bind_eq_bind, Option.bind_some]
      exact migrateList_copies hkey hmov.2.1 hmov.2.2 hst
  | set members =>
      simp only [migrateKey2, getKeyType_set hne hkey, Option.bind_eq_bind, Option.bind_some]
      exact settles_of_eq_some (migrateSet2_copies hst hkey)
  | hash fields =>
      simp only [migrateKey2, getKeyType_hash hne hkey, Option.bind_eq_bind, Option.bind_some]
      exact settles_of_eq_some (migrateHashtable2_copies hst hkey)
  | zset scores =>
      simp only [migrateKey2, getKeyType_zset hne hkey, Option.bind_eq_bind, Option.bind_some]
      exact settles_of_eq_some (migrateSset2_copies hst hkey)

/-- A key whose visit returns is movable. -/
theorem movable_of_migrateKey {turns : ℕ} {st st' : Session Score}
    (h : migrateKey src turns st key = some st') : Movable key value := by
  have hne : key ≠ [] := by
    rintro rfl
    simp [migrateKey, getKeyType_of_nil] at h
  cases value with
  | string text =>
      simp only [migrateKey, getKeyType_string hne hkey, Option.bind_eq_bind, Option.bind_some] at h
      exact ⟨hne, ne_nil_of_migrateString hkey h⟩
  | list elements =>
      simp only [migrateKey, getKeyType_list hne hkey, Option.bind_eq_bind, Option.bind_some] at h
      exact ⟨hne, short_of_migrateList hkey h⟩
  | set members => exact hne
  | hash fields => exact hne
  | zset scores => exact hne

theorem movable_of_migrateKey2 {turns : ℕ} {st st' : Session Score}
    (h : migrateKey2 src turns st key = some st') : Movable key value := by
  have hne : key ≠ [] := by
    rintro rfl
    simp [migrateKey2, getKeyType_of_nil] at h
  cases value with
  | string text =>
      simp only [migrateKey2, getKeyType_string hne hkey, Option.bind_eq_bind,
        Option.bind_some] at h
      exact ⟨hne, ne_nil_of_migrateString hkey h⟩
  | list elements =>
      simp only [migrateKey2, getKeyType_list hne hkey, Option.bind_eq_bind, Option.bind_some] at h
      exact ⟨hne, short_of_migrateList hkey h⟩
  | set members => exact hne
  | hash fields => exact hne
  | zset scores => exact hne

end Keys

end CPractice.Migrate
