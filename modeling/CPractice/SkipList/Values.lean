import CPractice.SkipList.Refinement

/-!
# `skip_list_update`, the levels and the buffers

`Model` takes the level of a new node and its value as they are.  Here the level comes from the
results of `rand`, the local array `update[]` has `SKIP_LIST_MAX_LEVEL` entries, and a value is a
recorded size with the buffer it was allocated with.  A store past the end of `update[]`, a read of an
entry that was not set in the call, and a copy past the end of a buffer all fault.

Keys are of any type with a total order; `keySize` is `key->size`.
-/

namespace CPractice.SkipList

open Lib

variable {κ ν : Type}

/-! ## `get_node_level` -/

/-- `(u4)(SKIP_LIST_PROB * 0xFFFF)`. -/
def levelTop : ℕ := 16383

/-- How often `rand` falls below `levelTop` before it does not; `none` if that never happens. -/
def countDraws : List ℕ → Option ℕ
  | [] => none
  | draw :: draws => if draw &&& 65535 < levelTop then (countDraws draws).map (· + 1) else some 0

/-- `get_node_level` on the results of `rand`; the counter is an `n4` and must not overflow. -/
def getNodeLevel (draws : List ℕ) : Option ℕ := do
  let count ← countDraws draws
  if count < 2147483648 then some (min count skipListMaxLevel) else none

/-! ## `update[]` -/

/-- A read of `update[level]`. -/
def readUpdate (update : ℕ → Option ℕ) (level : ℕ) : Option ℕ :=
  if level < skipListMaxLevel then update level else none

/-- A store to `update[level]`. -/
def setUpdate (update : ℕ → Option ℕ) (level node : ℕ) : Option (ℕ → Option ℕ) :=
  if level < skipListMaxLevel then some (Function.update update level (some node)) else none

/-- The search of the calls with an `update[]`: its first store is to `update[list->level]`. -/
def searchArr (cmp : κ → κ → ℤ) (s : SkipListT κ ν) (key : κ) : Option ((ℕ → Option ℕ) × ℕ) :=
  if s.level < skipListMaxLevel then search cmp s key else none

/-- `update[level] = list->header` when the list is raised. -/
def raiseUpdate (s : SkipListT κ ν) (level : ℕ) (update : ℕ → Option ℕ) : Option (ℕ → Option ℕ) :=
  if s.level < level then setUpdate update (s.level + 1) s.header else some update

/-- The end of `skip_list_insert` and `skip_list_update`, from `get_node_level` on. -/
def addKey (s : SkipListT κ ν) (update : ℕ → Option ℕ) (key : κ) (value : ν) (draws : List ℕ)
    (alloc : Alloc) (ret : ℤ) : Option (ℤ × SkipListT κ ν) := do
  let level ← getNodeLevel draws
  let update ← raiseUpdate s level update
  if alloc.granted then do
    let s' := addNode (raised s level) alloc.node (insertLevel s level) key value
    let s' ← splice (readUpdate update) alloc.node (insertLevel s level) s'
    some (ret, s')
  else some (-2, raised s level)

/-- `skip_list_insert`. -/
def insertArr (cmp : κ → κ → ℤ) (s : SkipListT κ ν) (key : κ) (value : ν) (draws : List ℕ)
    (alloc : Alloc) : Option (ℤ × SkipListT κ ν) := do
  let (update, cur) ← searchArr cmp s key
  let found ← matchesKey cmp s cur key
  if found then some (-3, s) else addKey s update key value draws alloc 0

/-- The unlinking loop of `skip_list_erase`, which reads `update[level]` before it tests `level`;
`remaining` is `top + 1 - level`. -/
def unlinkArr (update : ℕ → Option ℕ) (cur : ℕ) :
    ℕ → ℕ → SkipListT κ ν → Option (SkipListT κ ν)
  | 0, level, s => do
      let _ ← readUpdate update level
      some s
  | remaining + 1, level, s => do
      let pre ← readUpdate update level
      let target ← nextAt s level pre
      if target = cur then do
        let succ ← nextAt s level cur
        let s ← setNext s level pre succ
        unlinkArr update cur remaining (level + 1) s
      else some s

/-- `skip_list_erase`. -/
def eraseArr (cmp : κ → κ → ℤ) (s : SkipListT κ ν) (key : κ) : Option (SkipListT κ ν) := do
  let (update, cur) ← searchArr cmp s key
  let found ← matchesNode cmp s cur key
  if found then do
    let s' ← unlinkArr update cur (s.level + 1) 0 s
    let s' ← freeNode s' cur
    let top ← lowerTop s' s.level
    some { s' with level := top }
  else some s

/-- The stores to `cur->value`. -/
def setValue (s : SkipListT κ ν) (node : ℕ) (value : ν) : Option (SkipListT κ ν) := do
  let n ← s.nodes node
  let entry ← n.entry
  some { s with
    nodes := Function.update s.nodes node (some { n with entry := some (entry.1, value) }) }

/-- `skip_list_update`; `overwrite` is what it makes of the entry of a present key, `some none` if the
allocation of a larger buffer was refused. -/
def updateArr (cmp : κ → κ → ℤ) (overwrite : κ × ν → Option (Option ν)) (s : SkipListT κ ν) (key : κ)
    (value : ν) (draws : List ℕ) (alloc : Alloc) : Option (ℤ × SkipListT κ ν) := do
  let (update, cur) ← searchArr cmp s key
  let found ← matchesKey cmp s cur key
  if found then do
    let entry ← entryAt s cur
    let written ← overwrite entry
    match written with
    | none => some (-2, s)
    | some value => do
        let s ← setValue s cur value
        some (0, s)
  else addKey s update key value draws alloc 1

/-! ## Values -/

/-- `value_t` of a node: the recorded size and the buffer, its bytes `none` until they are stored. -/
structure ValueT where
  size : ℕ
  data : List (Option UInt8)
  deriving DecidableEq

/-- A buffer of the right length with the bytes copied into it. -/
def ValueT.ofBytes (value : Bytes) : ValueT := ⟨value.length, value.map some⟩

/-- `CPY(data, value->data, len)`. -/
def copyBytes (data : List (Option UInt8)) (value : Bytes) (len : ℕ) : Option (List (Option UInt8)) :=
  if len ≤ value.length ∧ len ≤ data.length then some ((value.take len).map some ++ data.drop len)
  else none

/-- The buffer that the bytes are copied to: a larger value gets a new one, of the old size. -/
def updateRoom (old : ValueT) (value : Bytes) : List (Option UInt8) :=
  if old.size < value.length then List.replicate old.size none else old.data

/-- The branch of `skip_list_update` for a present key.  The copy has the length of the key. -/
def overwriteBytes (keySize : κ → ℕ) (value : Bytes) (alloc : Alloc) (entry : κ × ValueT) :
    Option (Option ValueT) :=
  if entry.2.size < value.length ∧ alloc.value = false then some none
  else do
    let data ← copyBytes (updateRoom entry.2 value) value (keySize entry.1)
    some (some ⟨value.length, data⟩)

/-- `skip_list_update`. -/
def skipListUpdate (cmp : κ → κ → ℤ) (keySize : κ → ℕ) (s : SkipListT κ ValueT) (key : κ)
    (value : Bytes) (draws : List ℕ) (alloc : Alloc) : Option (ℤ × SkipListT κ ValueT) :=
  updateArr cmp (overwriteBytes keySize value alloc) s key (.ofBytes value) draws alloc

/-! ## Levels -/

/-- A node of this level finds its place in `update[]`. -/
def LevelFits (s : SkipListT κ ν) (level : ℕ) : Prop :=
  s.level < level → s.level + 1 < skipListMaxLevel

instance (s : SkipListT κ ν) (level : ℕ) : Decidable (LevelFits s level) :=
  inferInstanceAs (Decidable (_ → _))

/-- The draws end the loop of `get_node_level`, and with a level that finds its place. -/
def DrawsFit (s : SkipListT κ ν) (draws : List ℕ) : Prop :=
  ∃ level, getNodeLevel draws = some level ∧ LevelFits s level

theorem splice_readUpdate (update : ℕ → Option ℕ) (cur : ℕ) {top : ℕ} (htop : top < skipListMaxLevel) (s : SkipListT κ ν) :
    splice (readUpdate update) cur top s = splice update cur top s := by
  induction top generalizing s with
  | zero => rw [splice, splice, readUpdate, if_pos htop]
  | succ top ih =>
      rw [splice, splice, readUpdate, if_pos htop]
      simp only [ih ((Nat.lt_succ_self top).trans htop)]

theorem getNodeLevel_le {draws : List ℕ} {level : ℕ} (hdraws : getNodeLevel draws = some level) : level ≤ 32 := by
  rcases Option.bind_eq_some_iff.mp hdraws with ⟨count, -, hcount⟩
  split at hcount
  · cases hcount
    exact Nat.min_le_right _ _
  · cases hcount

/-- Draws that do not fit never end, or make a store past the end of `update[]`. -/
theorem addKey_eq_none {s : SkipListT κ ν} {draws : List ℕ} (hmisfit : ¬ DrawsFit s draws)
    (update : ℕ → Option ℕ) (key : κ) (value : ν) (alloc : Alloc) (ret : ℤ) :
    addKey s update key value draws alloc ret = none := by
  cases hdraws : getNodeLevel draws with
  | none =>
      rw [addKey, hdraws]
      rfl
  | some level =>
      have hlevel : ¬ LevelFits s level := fun hfits ↦ hmisfit ⟨level, hdraws, hfits⟩
      rw [LevelFits, Classical.not_imp] at hlevel
      rw [addKey, hdraws, Option.bind_eq_bind, Option.bind_some, raiseUpdate, if_pos hlevel.1,
        setUpdate, if_neg hlevel.2]
      rfl

/-- An allocator hands out fresh addresses. -/
def Alloc.Fresh (alloc : Alloc) (s : SkipListT κ ν) : Prop :=
  alloc.node ≠ 0 → s.nodes alloc.node = none

instance (alloc : Alloc) (s : SkipListT κ ν) : Decidable (alloc.Fresh s) :=
  have : Decidable (s.nodes alloc.node = none) :=
    decidable_of_iff ((s.nodes alloc.node).isNone = true) Option.isNone_iff_eq_none
  inferInstanceAs (Decidable (_ → _))

/-! ## The search -/

section Ordered

variable [LinearOrder κ] {cmp : κ → κ → ℤ} {s : SkipListT κ ν} {items : List (Item κ ν)} {key : κ}
  {bindings : κ → Option ν} {update : ℕ → Option ℕ} {draws : List ℕ} {alloc : Alloc} {value : ν}

/-- The search ends at the item of the key, or the key is not bound. -/
theorem search_cases (hcmp : TotalOrderCmp cmp) (h : Repr s items) (hholds : Holds items bindings)
    (key : κ) :
    ∃ above rest update cur, Cut items above rest key ∧ searchArr cmp s key = some (update, cur) ∧
      search cmp s key = some (update, cur) ∧
      (∀ i, update i = if i ≤ s.level then some (lastAbove s above i) else none) ∧
      ((∃ it rest', rest = it :: rest' ∧ it.key = key ∧ cur = it.addr ∧
        bindings key = some it.value ∧ matchesKey cmp s cur key = some true ∧
        matchesNode cmp s cur key = some true) ∨
      (bindings key = none ∧ matchesKey cmp s cur key = some false ∧
        matchesNode cmp s cur key = some false)) := by
  rcases h.exists_cut key with ⟨above, rest, hcut⟩
  rcases descend_spec hcmp h hcut h.level_lt (.inl rfl) fun _ ↦ none with
    ⟨update, hsearch, hupdate⟩
  refine ⟨above, rest, update, firstRest s rest 0, hcut, ?_, hsearch, hupdate, ?_⟩
  · rw [searchArr, if_pos h.level_lt]
    exact hsearch
  · rcases matchesKey_spec hcmp h hcut with ⟨it, rest', hrest, hkey, hfirst, hmatch, hnode⟩ |
      ⟨hlt, hmatch, hnode⟩
    · have hmem : it ∈ items := by
        rw [hcut.eq, hrest]
        exact List.mem_append_right _ List.mem_cons_self
      refine .inl ⟨it, rest', hrest, hkey, hfirst, ?_, ?_, ?_⟩
      · exact (hholds key it.value).mpr ⟨it, hmem, hkey, rfl⟩
      · rw [hfirst]
        exact hmatch
      · rw [hfirst]
        exact hnode
    · exact .inr ⟨hholds.none_of_cut hcut hlt, hmatch, hnode⟩

/-! ## New keys -/

/-- A level that fits counts like one below the maximum. -/
theorem levelFits_capped (h : Repr s items) (update : ℕ → Option ℕ) {level : ℕ} (hle : level ≤ 32)
    (hfits : LevelFits s level) :
    raised s level = raised s (min level 31) ∧ insertLevel s level = insertLevel s (min level 31) ∧
      raiseUpdate s level update = some (raisedUpdate s (min level 31) update) := by
  have hlevel := h.level_lt
  simp only [skipListMaxLevel] at hlevel
  by_cases hraise : s.level < level
  · have hroom : s.level + 1 < skipListMaxLevel := hfits hraise
    have hraise' : s.level < min level 31 := by
      simp only [skipListMaxLevel] at hroom
      omega
    simp only [raised, insertLevel, raiseUpdate, raisedUpdate, if_pos hraise, if_pos hraise',
      setUpdate, if_pos hroom, and_self]
  · have hcap : min level 31 = level := by omega
    simp only [hcap, raiseUpdate, raisedUpdate, if_neg hraise, and_self]

/-- The end of an insert of an unbound key. -/
theorem addKey_spec (hcmp : TotalOrderCmp cmp) (h : Repr s items) (hholds : Holds items bindings)
    {cur : ℕ} (hsearch : search cmp s key = some (update, cur))
    (hmatch : matchesKey cmp s cur key = some false) (hnone : bindings key = none)
    (hfits : DrawsFit s draws) (hfresh : alloc.Fresh s) (ret : ℤ) :
    ∃ s' items', addKey s update key value draws alloc ret =
        some (if alloc.granted then ret else -2, s') ∧ Repr s' items' ∧
      Holds items' (if alloc.granted then Function.update bindings key (some value)
        else bindings) := by
  rcases hfits with ⟨n, hdraws, hfits⟩
  rcases levelFits_capped h update (getNodeLevel_le hdraws) hfits with ⟨hraised, hinsert, hupdate⟩
  have hcap : min n 31 < skipListMaxLevel := by
    simp only [skipListMaxLevel]
    omega
  have hsimulated : Simulated cmp s bindings (.insert key value (min n 31) alloc) :=
    insert_simulated hcmp h hholds ⟨hcap, hfresh⟩
  rcases hsimulated with ⟨s', items', hexec, hrepr, hholds'⟩
  have htop : insertLevel s (min n 31) < skipListMaxLevel :=
    (insertLevel_le s (min n 31)).trans_lt (h.raised hcap).level_lt
  refine ⟨s', items', ?_, hrepr, ?_⟩
  · rcases Option.bind_eq_some_iff.mp hexec with ⟨out, hinserted, hout⟩
    rw [skipListInsert, hsearch, Option.bind_eq_bind, Option.bind_some] at hinserted
    simp only [hmatch, Option.bind_eq_bind, Option.bind_some, Bool.false_eq_true, if_false]
      at hinserted
    rw [addKey, hdraws, Option.bind_eq_bind, Option.bind_some, hupdate, Option.bind_eq_bind,
      Option.bind_some, hraised, hinsert]
    by_cases hgranted : alloc.granted
    · rw [if_pos hgranted] at hinserted ⊢
      rcases Option.bind_eq_some_iff.mp hinserted with ⟨s₁, hsplice, heq⟩
      cases heq
      obtain rfl : s₁ = s' := (Prod.mk.inj (Option.some.inj hout)).2
      simp only [splice_readUpdate _ _ htop, hsplice, Option.bind_eq_bind, Option.bind_some,
        if_pos hgranted]
    · rw [if_neg hgranted] at hinserted ⊢
      cases hinserted
      obtain rfl : raised s (min n 31) = s' := (Prod.mk.inj (Option.some.inj hout)).2
      rw [if_neg hgranted]
  · simpa [mapStep, hnone] using hholds'

/-! ## Values of present keys -/

/-- Another value in a node of the list. -/
theorem Repr.setValue (h : Repr s items) {above rest : List (Item κ ν)} {it : Item κ ν}
    (hcut : Cut items above (it :: rest) key) (value : ν) :
    ∃ s', setValue s it.addr value = some s' ∧
      Repr s' (above ++ { it with value := value } :: rest) := by
  have hmem : it ∈ items := by
    rw [hcut.eq]
    exact List.mem_append_right _ List.mem_cons_self
  rcases h.item_node it hmem with ⟨n, hn, hentry, hlevel⟩
  set s' : SkipListT κ ν := { s with
    nodes := Function.update s.nodes it.addr (some { n with entry := some (it.key, value) }) } with hs'
  have hset : SkipList.setValue s it.addr value = some s' := by
    simp [SkipList.setValue, hn, hentry, hs']
  have hnodes : ∀ a, a ≠ it.addr → s'.nodes a = s.nodes a := fun a ha ↦ Function.update_of_ne ha _ _
  have hnext : ∀ level node, nextAt s' level node = nextAt s level node := by
    intro level node
    by_cases hnode : node = it.addr
    · subst hnode
      simp [nextAt, hs', hn]
    · simp [nextAt, hs', hnode]
  have hother := h.cut_others hcut
  -- Every item has the address, key and level of an item of the list before.
  have hold : ∀ x ∈ above ++ { it with value := value } :: rest,
      x = { it with value := value } ∨ x ∈ above ++ rest := by
    intro x hx
    rcases List.mem_append.mp hx with hmem | hmem
    · exact .inr (List.mem_append_left _ hmem)
    · rcases List.mem_cons.mp hmem with rfl | hmem
      · exact .inl rfl
      · exact .inr (List.mem_append_right _ hmem)
  have haddrs : ∀ level, addrs (above ++ { it with value := value } :: rest) level =
      addrs items level := by
    intro level
    rw [hcut.eq, addrs_append, addrs_append]
    rcases Nat.lt_or_ge it.level level with hlt | hge
    · rw [addrs_cons_of_lt hlt,
        addrs_cons_of_lt (show ({ it with value := value } : Item κ ν).level < level from hlt)]
    · rw [addrs_cons_of_le hge,
        addrs_cons_of_le (show level ≤ ({ it with value := value } : Item κ ν).level from hge)]
  refine ⟨s', hset, { h with
    item_node := ?_
    item_level := ?_
    item_header := ?_
    item_tail := ?_
    header_node := ?_
    tail_node := ?_
    sorted := ?_
    paths := ?_
    count := ?_ }⟩
  · intro x hx
    rcases hold x hx with rfl | hx
    · exact ⟨_, Function.update_self _ _ _, rfl, hlevel⟩
    · rcases h.item_node x (hother x hx).1 with ⟨m, hm, hmentry, hmlevel⟩
      exact ⟨m, (hnodes _ (hother x hx).2).trans hm, hmentry, hmlevel⟩
  · intro x hx
    rcases hold x hx with rfl | hx
    · exact h.item_level it hmem
    · exact h.item_level x (hother x hx).1
  · intro x hx
    rcases hold x hx with rfl | hx
    · exact h.item_header it hmem
    · exact h.item_header x (hother x hx).1
  · intro x hx
    rcases hold x hx with rfl | hx
    · exact h.item_tail it hmem
    · exact h.item_tail x (hother x hx).1
  · rcases h.header_node with ⟨m, hm, hmlevel⟩
    exact ⟨m, (hnodes _ (h.item_header it hmem).symm).trans hm, hmlevel⟩
  · have htail : s'.nodes s.tail = s.nodes s.tail := hnodes _ (h.item_tail it hmem).symm
    change (s'.nodes s.tail).isSome
    rw [htail]
    exact h.tail_node
  · have hsorted := h.sorted
    rw [hcut.eq, List.pairwise_append, List.pairwise_cons] at hsorted
    rw [List.pairwise_append, List.pairwise_cons]
    refine ⟨hsorted.1, hsorted.2.1, ?_⟩
    intro a ha b hb
    rcases List.mem_cons.mp hb with rfl | hb
    · exact hsorted.2.2 a ha it List.mem_cons_self
    · exact hsorted.2.2 a ha b (List.mem_cons_of_mem _ hb)
  · intro level hlt
    have hpath := h.paths level hlt
    rw [pathAt, haddrs, show nextAt s' level = nextAt s level from funext (hnext level)]
    exact hpath
  · have hcount := h.count
    rw [hcut.eq] at hcount
    simpa using hcount

/-! ## Inserts and updates -/

theorem insertArr_bound (hcmp : TotalOrderCmp cmp) (h : Repr s items) (hholds : Holds items bindings)
    {old : ν} (hbound : bindings key = some old) (value : ν) (draws : List ℕ) (alloc : Alloc) :
    insertArr cmp s key value draws alloc = some (-3, s) := by
  rcases search_cases hcmp h hholds key with ⟨above, rest, update, cur, hcut, hsearch, -, -,
    ⟨it, rest', -, -, -, -, hmatch, -⟩ | ⟨hnone, -⟩⟩
  · rw [insertArr, hsearch]
    simp [hmatch]
  · rw [hnone] at hbound
    cases hbound

/-- An unbound key goes to the end that both calls share. -/
theorem unbound_spec (hcmp : TotalOrderCmp cmp) (h : Repr s items) (hholds : Holds items bindings)
    (hnone : bindings key = none) :
    ∃ update cur, search cmp s key = some (update, cur) ∧ matchesKey cmp s cur key = some false ∧
      (∀ value draws alloc, insertArr cmp s key value draws alloc =
        addKey s update key value draws alloc 0) ∧
      ∀ overwrite value draws alloc, updateArr cmp overwrite s key value draws alloc =
        addKey s update key value draws alloc 1 := by
  rcases search_cases hcmp h hholds key with ⟨above, rest, update, cur, hcut, hsearch, hplain, -,
    ⟨it, rest', -, -, -, hbound, -⟩ | ⟨-, hmatch, -⟩⟩
  · rw [hnone] at hbound
    cases hbound
  · refine ⟨update, cur, hplain, hmatch, ?_, ?_⟩
    · intro value draws alloc
      rw [insertArr, hsearch]
      simp [hmatch]
    · intro overwrite value draws alloc
      rw [updateArr, hsearch]
      simp [hmatch]

/-- The entry of a bound key is overwritten in its node. -/
theorem updateArr_bound (hcmp : TotalOrderCmp cmp) (h : Repr s items) (hholds : Holds items bindings)
    {old : ν} (hbound : bindings key = some old) (overwrite : κ × ν → Option (Option ν)) (value : ν)
    (draws : List ℕ) (alloc : Alloc) :
    (overwrite (key, old) = none → updateArr cmp overwrite s key value draws alloc = none) ∧
    (overwrite (key, old) = some none →
      updateArr cmp overwrite s key value draws alloc = some (-2, s)) ∧
    ∀ new, overwrite (key, old) = some (some new) →
      ∃ s' items', updateArr cmp overwrite s key value draws alloc = some (0, s') ∧
        Repr s' items' ∧ Holds items' (Function.update bindings key (some new)) := by
  rcases search_cases hcmp h hholds key with ⟨above, rest, update, cur, hcut, hsearch, -, -,
    ⟨it, rest', rfl, rfl, rfl, hvalue, hmatch, -⟩ | ⟨hnone, -⟩⟩
  · obtain rfl : old = it.value := Option.some.inj (hbound.symm.trans hvalue)
    have hmem : it ∈ items := by
      rw [hcut.eq]
      exact List.mem_append_right _ List.mem_cons_self
    have hentry := h.entryAt_eq hmem
    refine ⟨?_, ?_, ?_⟩
    · intro hover
      rw [updateArr, hsearch]
      simp [hmatch, hentry, hover]
    · intro hover
      rw [updateArr, hsearch]
      simp [hmatch, hentry, hover]
    · intro new hover
      rcases h.setValue hcut new with ⟨s', hset, hrepr⟩
      refine ⟨s', _, ?_, hrepr, ?_⟩
      · rw [updateArr, hsearch]
        simp [hmatch, hentry, hover, hset]
      · have hbinds : Binds Item.key Item.value (above ++ it :: rest') bindings := hcut.eq ▸ hholds
        have hexchanged : Binds Item.key Item.value (above ++ { it with value := new } :: rest')
            (Function.update bindings it.key (some new)) :=
          hbinds.exchange (h.only_key hcut rfl) rfl
        exact hexchanged
  · rw [hnone] at hbound
    cases hbound

/-! ## Calls on a map -/

/-- What `skip_list_find` answers. -/
def answer (binding : Option ν) : ℤ × Option ν :=
  match binding with
  | some old => (0, some old)
  | none => (-2, none)

theorem find_eq (hcmp : TotalOrderCmp cmp) (h : Refines s bindings) (key : κ) :
    skipListFind cmp s key = some (answer (bindings key)) := by
  rcases h with ⟨items, hrepr, hholds⟩
  rcases Option.bind_eq_some_iff.mp (skipListFind_spec hcmp hrepr hholds key) with
    ⟨⟨ret, found⟩, hout, heq⟩
  have hret : Ret.found ret found = mapResult bindings (.find key) :=
    (Prod.mk.inj (Option.some.inj heq)).1
  rw [hout]
  cases hbinding : bindings key with
  | some old =>
      simp only [mapResult, hbinding, Ret.found.injEq] at hret
      rw [hret.1, hret.2, answer]
  | none =>
      simp only [mapResult, hbinding, Ret.found.injEq] at hret
      rw [hret.1, hret.2, answer]

/-- A bound key: its value is what `overwrite` makes of the old one. -/
theorem updateArr_refines (hcmp : TotalOrderCmp cmp) (h : Refines s bindings) {old : ν}
    (hbound : bindings key = some old) (overwrite : κ × ν → Option (Option ν)) (value : ν)
    (draws : List ℕ) (alloc : Alloc) :
    (overwrite (key, old) = none → updateArr cmp overwrite s key value draws alloc = none) ∧
    (overwrite (key, old) = some none →
      updateArr cmp overwrite s key value draws alloc = some (-2, s)) ∧
    ∀ new, overwrite (key, old) = some (some new) →
      ∃ s', updateArr cmp overwrite s key value draws alloc = some (0, s') ∧
        Refines s' (Function.update bindings key (some new)) := by
  rcases h with ⟨items, hrepr, hholds⟩
  rcases updateArr_bound hcmp hrepr hholds hbound overwrite value draws alloc with
    ⟨hfault, hrefused, hstored⟩
  refine ⟨hfault, hrefused, ?_⟩
  intro new hnew
  rcases hstored new hnew with ⟨s', items', hexec, hrepr', hholds'⟩
  exact ⟨s', hexec, items', hrepr', hholds'⟩

/-- An unbound key goes to `addKey`, which inserts it, is refused its memory or faults. -/
theorem unbound_refines (hcmp : TotalOrderCmp cmp) (h : Refines s bindings)
    (hnone : bindings key = none) (hfresh : alloc.Fresh s) (draws : List ℕ) (value : ν) :
    ∃ add : ℤ → Option (ℤ × SkipListT κ ν),
      insertArr cmp s key value draws alloc = add 0 ∧
      (∀ overwrite, updateArr cmp overwrite s key value draws alloc = add 1) ∧
      (DrawsFit s draws → ∀ ret, ∃ s', add ret = some (if alloc.granted then ret else -2, s') ∧
        Refines s' (if alloc.granted then Function.update bindings key (some value)
          else bindings)) ∧
      (¬ DrawsFit s draws → ∀ ret, add ret = none) := by
  rcases h with ⟨items, hrepr, hholds⟩
  rcases unbound_spec hcmp hrepr hholds hnone with ⟨update, cur, hsearch, hmatch, hinsert, hupdate⟩
  refine ⟨addKey s update key value draws alloc, hinsert _ _ _, fun _ ↦ hupdate _ _ _ _, ?_, ?_⟩
  · intro hfits ret
    rcases addKey_spec hcmp hrepr hholds hsearch hmatch hnone hfits hfresh ret with
      ⟨s', items', hadd, hrepr', hholds'⟩
    exact ⟨s', hadd, items', hrepr', hholds'⟩
  · intro hmisfit ret
    exact addKey_eq_none hmisfit update key _ alloc ret

theorem insertArr_keeps (hcmp : TotalOrderCmp cmp) (h : Refines s bindings) (hfresh : alloc.Fresh s)
    {out : ℤ × SkipListT κ ν} (hexec : insertArr cmp s key value draws alloc = some out) :
    ∃ bindings', Refines out.2 bindings' := by
  cases hbinding : bindings key with
  | some old =>
      rcases h with ⟨items, hrepr, hholds⟩
      rw [insertArr_bound hcmp hrepr hholds hbinding] at hexec
      cases hexec
      exact ⟨bindings, items, hrepr, hholds⟩
  | none =>
      rcases unbound_refines hcmp h hbinding hfresh draws value with
        ⟨add, hinsert, -, hfits, hmisfit⟩
      rw [hinsert] at hexec
      by_cases hdraws : DrawsFit s draws
      · rcases hfits hdraws 0 with ⟨s', hadd, hrefines⟩
        rw [hadd] at hexec
        cases hexec
        exact ⟨_, hrefines⟩
      · rw [hmisfit hdraws 0] at hexec
        cases hexec

theorem updateArr_keeps (hcmp : TotalOrderCmp cmp) (h : Refines s bindings) (hfresh : alloc.Fresh s)
    {overwrite : κ × ν → Option (Option ν)} {out : ℤ × SkipListT κ ν}
    (hexec : updateArr cmp overwrite s key value draws alloc = some out) :
    ∃ bindings', Refines out.2 bindings' := by
  cases hbinding : bindings key with
  | some old =>
      rcases updateArr_refines hcmp h hbinding overwrite value draws alloc with
        ⟨hfault, hrefused, hstored⟩
      cases hover : overwrite (key, old) with
      | none =>
          rw [hfault hover] at hexec
          cases hexec
      | some written =>
          cases written with
          | none =>
              rw [hrefused hover] at hexec
              cases hexec
              exact ⟨bindings, h⟩
          | some new =>
              rcases hstored new hover with ⟨s', hupdate, hrefines⟩
              rw [hupdate] at hexec
              cases hexec
              exact ⟨_, hrefines⟩
  | none =>
      rcases unbound_refines hcmp h hbinding hfresh draws value with
        ⟨add, -, hupdate, hfits, hmisfit⟩
      rw [hupdate] at hexec
      by_cases hdraws : DrawsFit s draws
      · rcases hfits hdraws 1 with ⟨s', hadd, hrefines⟩
        rw [hadd] at hexec
        cases hexec
        exact ⟨_, hrefines⟩
      · rw [hmisfit hdraws 1] at hexec
        cases hexec

theorem skipListErase_keeps (hcmp : TotalOrderCmp cmp) (h : Refines s bindings) (key : κ) :
    ∃ s' bindings', skipListErase cmp s key = some s' ∧ Refines s' bindings' := by
  rcases h with ⟨items, hrepr, hholds⟩
  rcases erase_simulated hcmp hrepr hholds key with ⟨s', items', herase, hrepr', hholds'⟩
  rcases Option.bind_eq_some_iff.mp herase with ⟨s₁, hs₁, heq⟩
  cases heq
  exact ⟨s', _, hs₁, items', hrepr', hholds'⟩

end Ordered

end CPractice.SkipList
