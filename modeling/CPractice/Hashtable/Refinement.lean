import CPractice.Hash.Bkdr
import CPractice.Hashtable.Search
import CPractice.Lib.Bindings
import Mathlib.Data.Set.Card

/-!
# The hash table refines a finite map

The abstract object is a partial function from keys to values.  The source breaks the refinement
in three places where a byte or element count is held in a type that is too narrow: the new size of
an element in `hashtable_update` and the sum of `hashtable_size` are `u4`, and the length of a table
wraps on `u8`.  The runs of `fittingMachine` are those on which none of these counts wraps.
-/

namespace CPractice.Hashtable

open Hash Lib Math

variable {cmp : Bytes → Bytes → ℤ} {hash : Bytes → ℕ} {t : TableT} {s : HashtableT}
  {elems rest : List HtElem} {e e' : HtElem} {key value : Bytes} {bindings : Bytes → Option Bytes}

/-! ## The abstract object -/

/-- The bindings after a call. -/
def mapStep (bindings : Bytes → Option Bytes) (call : Call) (_ : Ret) : Bytes → Option Bytes :=
  match call with
  | .insert key value _ _ =>
      if key ≠ [] ∧ value ≠ [] ∧ bindings key = none then
        Function.update bindings key (some value)
      else bindings
  | .find _ => bindings
  | .erase key => Function.update bindings key none
  | .update key value _ _ =>
      if value ≠ [] ∧ bindings key ≠ none then Function.update bindings key (some value)
      else bindings
  | .size => bindings

/-- The result of a call on the bindings before it; an empty key or value is an illegal argument. -/
noncomputable def mapResult (bindings : Bytes → Option Bytes) : Call → Ret
  | .insert key value _ _ =>
      if key = [] ∨ value = [] then .code (-1)
      else if bindings key = none then .code 0 else .code (-3)
  | .find key => .found (if bindings key = none then -2 else 0) (bindings key)
  | .erase key =>
      if key = [] then .code (-1) else if bindings key = none then .code (-2) else .code 0
  | .update key value _ _ =>
      if key = [] ∨ value = [] then .code (-1)
      else if bindings key = none then .code (-2) else .code 0
  | .size => .size {key | bindings key ≠ none}.ncard

/-- The bindings after a run. -/
def contents (log : List (Call × Ret)) : Bytes → Option Bytes :=
  Machine.replay mapStep (fun _ ↦ none) log

/-- The elements hold exactly the bindings. -/
def Holds (elems : List HtElem) (bindings : Bytes → Option Bytes) : Prop :=
  ∀ key value, bindings key = some value ↔ ∃ e ∈ elems, e.key = key ∧ e.value = value

namespace Holds

theorem of_perm (h : Holds elems bindings) (hperm : rest.Perm elems) : Holds rest bindings := by
  intro key value
  rw [h key value]
  simp only [hperm.mem_iff]

theorem none_iff (h : Holds elems bindings) : bindings key = none ↔ ∀ e ∈ elems, e.key ≠ key := by
  constructor
  · intro hnone e he hkey
    have hsome := (h key e.value).mpr ⟨e, he, hkey, rfl⟩
    rw [hnone] at hsome
    cases hsome
  · exact Lib.Binds.eq_none h

theorem of_mem (h : Holds elems bindings) (he : e ∈ elems) : bindings e.key = some e.value :=
  Lib.Binds.eq_some h he

/-- A new element binds its key. -/
theorem cons (h : Holds rest bindings) (e : HtElem) (hfresh : ∀ x ∈ rest, x.key ≠ e.key) :
    Holds (e :: rest) (Function.update bindings e.key (some e.value)) := by
  have hbinds : Lib.Binds HtElem.key HtElem.value ([] ++ rest) bindings := h
  exact hbinds.insert hfresh

/-- A removed element unbinds its key. -/
theorem tail (h : Holds (e :: rest) bindings) (hfresh : ∀ x ∈ rest, x.key ≠ e.key) :
    Holds rest (Function.update bindings e.key none) := by
  have hbinds : Lib.Binds HtElem.key HtElem.value ([] ++ e :: rest) bindings := h
  exact hbinds.erase hfresh

/-- As many keys are bound as there are elements. -/
theorem ncard (h : Holds elems bindings) (hkeys : (elems.map HtElem.key).Nodup) :
    {key | bindings key ≠ none}.ncard = elems.length := by
  have hset : {key | bindings key ≠ none} = ((elems.map HtElem.key).toFinset : Set Bytes) := by
    ext key
    rw [Set.mem_ofPred_eq, ne_eq, h.none_iff]
    simp
  rw [hset, Set.ncard_coe_finset, List.toFinset_card_of_nodup hkeys, List.length_map]

end Holds

/-! ## Stores to the front table -/

/-- The elements of the chain outside a bucket of the front table. -/
def HashtableT.others (s : HashtableT) (b : ℕ) : List HtElem :=
  s.table.others b ++ s.older.flatMap TableT.elems

theorem HashtableT.elems_perm {b : ℕ} (hb : b < s.table.size) :
    s.elems.Perm (s.table.bucket b ++ s.others b) := by
  rw [s.elems_eq, others, ← List.append_assoc]
  exact (TableT.elems_perm hb).append_right _

/-- Storing a bucket of the front table, with the elements the chain then has. -/
theorem Inv.store_front (h : Inv hash s) {b : ℕ} (hb : b < s.table.size) (number : ℕ)
    (bucket : List HtElem) (hplaced : ∀ e ∈ bucket, hash e.key % s.table.size = b)
    (hnumber : number = bucket.length + (s.table.others b).length)
    (hperm : (bucket ++ s.others b).Perm elems) (hvalid : ∀ e ∈ elems, e.Valid)
    (hkeys : (elems.map HtElem.key).Nodup) (haddrs : (elems.map HtElem.addr).Nodup) :
    Inv hash ⟨s.table.store b bucket number, s.older⟩ ∧
      List.Perm (HashtableT.elems ⟨s.table.store b bucket number, s.older⟩) elems := by
  have htables := List.forall_mem_cons.mp h.tables
  have hall : List.Perm (HashtableT.elems ⟨s.table.store b bucket number, s.older⟩) elems := by
    refine .trans ?_ hperm
    rw [HashtableT.elems_eq, HashtableT.others, ← List.append_assoc]
    exact (TableT.store_elems_perm hb bucket number).append_right _
  refine ⟨⟨?_, ?_, ?_, ?_⟩, hall⟩
  · exact List.forall_mem_cons.mpr ⟨htables.1.store hb hplaced hnumber, htables.2⟩
  · intro e he
    exact hvalid e (hall.mem_iff.mp he)
  · exact (hall.map HtElem.key).nodup_iff.mpr hkeys
  · exact (hall.map HtElem.addr).nodup_iff.mpr haddrs

/-- An element that was found, and the elements around it. -/
structure Split (s : HashtableT) (b : ℕ) (e : HtElem) (before after : List HtElem) : Prop where
  bucket_lt : b < s.table.size
  bucket_eq : s.table.bucket b = before ++ e :: after
  before_ne : ∀ x ∈ before, x.addr ≠ e.addr
  perm : s.elems.Perm (e :: (before ++ after ++ s.others b))
  keys : ∀ x ∈ before ++ after ++ s.others b, x.key ≠ e.key

theorem Inv.split (h : Inv hash s) {b : ℕ} (hb : b < s.table.size) (he : e ∈ s.table.bucket b) :
    ∃ before after, Split s b e before after := by
  rcases List.append_of_mem he with ⟨before, after, hbucket⟩
  have hperm : s.elems.Perm (e :: (before ++ after ++ s.others b)) := by
    calc
      List.Perm s.elems (s.table.bucket b ++ s.others b) := HashtableT.elems_perm hb
      List.Perm _ (e :: (before ++ after) ++ s.others b) := by
        rw [hbucket]
        exact List.perm_middle.append_right _
  have hkeys := (hperm.map HtElem.key).nodup_iff.mp h.keys
  have haddrs := (hperm.map HtElem.addr).nodup_iff.mp h.addrs
  rw [List.map_cons, List.nodup_cons] at hkeys haddrs
  refine ⟨before, after, hb, hbucket, ?_, hperm, ?_⟩
  · intro x hx heq
    exact haddrs.1 (List.mem_map.mpr ⟨x, by simp [hx], heq⟩)
  · intro x hx heq
    exact hkeys.1 (List.mem_map.mpr ⟨x, hx, heq⟩)

/-! ## Tables that fit -/

/-- The byte length of a table for `size` does not wrap. -/
def TableFits (size : ℕ) : Prop :=
  ∃ prime ∈ nextPrime (toN8 size),
    tableSize + prime.toNat * bucketSize < 18446744073709551616

/-- Every size below `2 ^ 60 - 8` fits. -/
theorem tableFits_of_lt {size : ℕ} (h : size < 1152921504606846968) : TableFits size := by
  have hcast : toN8 size = size := if_pos (by omega)
  rcases nextPrime_ends size (by omega) with ⟨prime, hprime, hle⟩
  refine ⟨prime, ?_, ?_⟩
  · rw [hcast]
    exact hprime
  · unfold tableSize bucketSize
    omega

theorem emptyTable_elems (size number slots : ℕ) :
    TableT.elems ⟨size, number, slots, fun _ ↦ []⟩ = [] := by
  simp [TableT.elems]

theorem newTable_spec (hash : Bytes → ℕ) {size : ℕ} (hpos : 0 < size)
    (hfits : tableSize + size * bucketSize < 18446744073709551616) :
    ∃ t, newTable size = some t ∧ t.Valid hash ∧ t.elems = [] := by
  have hslots : (tableSize + size * bucketSize - tableSize) / bucketSize = size := by
    rw [Nat.add_sub_cancel_left]
    exact Nat.mul_div_cancel size (by decide)
  refine ⟨⟨size, 0, size, fun _ ↦ []⟩, ?_, ⟨hpos, le_refl _, by simp, ?_⟩, emptyTable_elems ..⟩
  · rw [newTable, u8_of_lt hfits, if_neg (by omega), hslots]
  · rw [emptyTable_elems]
    rfl

/-! ## One call -/

/-- What relates the chain of tables to the bindings. -/
def Refines (hash : Bytes → ℕ) (s : HashtableT) (bindings : Bytes → Option Bytes) : Prop :=
  Inv hash s ∧ Holds s.elems bindings

theorem refines_init {size : ℕ} (hfits : TableFits size) (hinit : hashtableInit size = some s) :
    Refines hash s fun _ ↦ none := by
  rcases hfits with ⟨prime, hprime, hlength⟩
  have hpos := (nextPrime_range hprime).1
  rcases newTable_spec hash (Int.pos_iff_toNat_pos.mp hpos) hlength with
    ⟨t, hnew, hvalid, helems⟩
  rw [hashtableInit, Option.mem_def.mp hprime, Option.bind_eq_bind, Option.bind_some, hnew,
    Option.bind_eq_bind, Option.bind_some, Option.some_inj] at hinit
  subst hinit
  have hnone : HashtableT.elems ⟨t, []⟩ = [] := by
    rw [HashtableT.elems_eq, helems]
    rfl
  refine ⟨⟨by simpa using hvalid, ?_, ?_, ?_⟩, ?_⟩
  · simp [hnone]
  · simp [hnone]
  · simp [hnone]
  · simp [Holds, hnone]

/-- The condition on a state and a call under which no count wraps. -/
def callFits (s : HashtableT) : Call → Prop
  | .insert _ _ _ _ =>
      maxBucketSize < s.table.number / s.table.size →
        ∀ size ∈ grownSize s.table.size, TableFits size
  | .find _ => True
  | .erase _ => True
  | .update key value _ _ =>
      ∀ e ∈ s.elems, e.key = key → e.value.length ≤ value.length →
        elemSize + key.length + value.length < 4294967296
  | .size => s.elems.length < 4294967296

/-- The call as `Simulates` asks for it. -/
def Simulated (cmp : Bytes → Bytes → ℤ) (hash : Bytes → ℕ) (s : HashtableT)
    (bindings : Bytes → Option Bytes) (call : Call) : Prop :=
  ∃ s', callExec cmp hash s call = some (mapResult bindings call, s') ∧
    Refines hash s' (mapStep bindings call (mapResult bindings call))

theorem Refines.of_perm {s' : HashtableT} (h : Refines hash s bindings) (hinv : Inv hash s')
    (hperm : s'.elems.Perm s.elems) : Refines hash s' bindings := ⟨hinv, h.2.of_perm hperm⟩

/-- No element has an empty key. -/
theorem Refines.empty_unbound (h : Refines hash s bindings) : bindings [] = none := by
  rw [h.2.none_iff]
  intro e he
  exact (h.1.valid e he).key_ne

theorem Inv.mod_lt (h : Inv hash s) (pos : ℕ) : pos % s.table.size < s.table.size :=
  (h.tables s.table List.mem_cons_self).mod_lt pos

theorem Inv.slot_eq (h : Inv hash s) (pos : ℕ) :
    s.table.slot pos = some (pos % s.table.size) :=
  (h.tables s.table List.mem_cons_self).slot_eq pos

theorem Found.binding {s' : HashtableT} (hfound : Found hash s s' key e)
    (h : Refines hash s bindings) : bindings key = some e.value := by
  have htable : e ∈ s'.table.elems :=
    TableT.mem_elems.mpr ⟨_, hfound.inv.mod_lt (hash key), hfound.mem⟩
  have hmem : e ∈ s'.elems := by
    rw [s'.elems_eq]
    exact List.mem_append_left _ htable
  have hsome := h.2.of_mem (hfound.perm.mem_iff.mp hmem)
  rwa [hfound.key_eq] at hsome

theorem find_simulated (hcmp : ∀ a b, cmp a b = 0 ↔ a = b) (h : Refines hash s bindings)
    (key : Bytes) : Simulated cmp hash s bindings (.find key) := by
  by_cases hkey : key = []
  · subst hkey
    refine ⟨s, ?_, h⟩
    simp [callExec, hashtableFind, hashtableSearch, mapResult, h.empty_unbound]
  · rcases hashtableSearch_spec hcmp h.1 hkey with ⟨hmiss, hsearch⟩ | ⟨e, s', hsearch, hfound⟩
    · refine ⟨s, ?_, h⟩
      simp [callExec, hashtableFind, hsearch, mapResult, h.2.none_iff.mpr hmiss]
    · refine ⟨s', ?_, h.of_perm hfound.inv hfound.perm⟩
      simp [callExec, hashtableFind, hsearch, mapResult, hfound.binding h]

/-! ### `hashtable_insert` -/

theorem expandIfCrowded_spec (h : Inv hash s)
    (hfits : maxBucketSize < s.table.number / s.table.size →
      ∀ size ∈ grownSize s.table.size, TableFits size) :
    ∃ s', expandIfCrowded s true = some s' ∧ Inv hash s' ∧ s'.elems.Perm s.elems := by
  unfold expandIfCrowded
  by_cases hcrowded : maxBucketSize < s.table.number / s.table.size
  · rw [if_pos hcrowded, hashtableExpand, if_pos rfl]
    cases hgrown : grownSize s.table.size with
    | none => exact ⟨s, rfl, h, .refl _⟩
    | some size =>
        rcases hfits hcrowded size hgrown with ⟨prime, hprime, hlength⟩
        have hpos := (nextPrime_range hprime).1
        simp only [Option.mem_def.mp hprime, Option.bind_eq_bind, Option.bind_some]
        by_cases hsmall : prime.toNat < s.table.size
        · exact ⟨s, by rw [if_pos hsmall]; rfl, h, .refl _⟩
        · rcases newTable_spec hash (Int.pos_iff_toNat_pos.mp hpos) hlength with
            ⟨t, hnew, hvalid, helems⟩
          have hperm : List.Perm (HashtableT.elems ⟨t, s.table :: s.older⟩) s.elems := by
            rw [HashtableT.elems_eq, helems]
            exact .refl _
          refine ⟨⟨t, s.table :: s.older⟩, ?_, h.of_perm hperm ?_, hperm⟩
          · rw [if_neg hsmall, hnew]
            rfl
          · exact List.forall_mem_cons.mpr ⟨hvalid, h.tables⟩
  · exact ⟨s, if_neg hcrowded, h, .refl _⟩

/-- A new element at the head of its bucket in the front table. -/
theorem Refines.push (h : Refines hash s bindings) (he : e.Valid)
    (hkey : ∀ x ∈ s.elems, x.key ≠ e.key) (haddr : ∀ x ∈ s.elems, x.addr ≠ e.addr) :
    Refines hash ⟨s.table.store (hash e.key % s.table.size)
        (e :: s.table.bucket (hash e.key % s.table.size)) (u8 (s.table.number + 1)), s.older⟩
      (Function.update bindings e.key (some e.value)) := by
  rcases h with ⟨hinv, hholds⟩
  have hfront := hinv.tables s.table List.mem_cons_self
  have hb := hinv.mod_lt (hash e.key)
  have hvalid : ∀ x ∈ e :: s.elems, x.Valid := List.forall_mem_cons.mpr ⟨he, hinv.valid⟩
  have haddrs : ((e :: s.elems).map HtElem.addr).Nodup := by
    rw [List.map_cons, List.nodup_cons]
    exact ⟨fun hmem ↦ by
      rcases List.mem_map.mp hmem with ⟨x, hx, heq⟩
      exact haddr x hx heq, hinv.addrs⟩
  have hkeys : ((e :: s.elems).map HtElem.key).Nodup := by
    rw [List.map_cons, List.nodup_cons]
    exact ⟨fun hmem ↦ by
      rcases List.mem_map.mp hmem with ⟨x, hx, heq⟩
      exact hkey x hx heq, hinv.keys⟩
  have hroom := length_lt_of_addrs hvalid haddrs
  have hlength := (HashtableT.elems_perm hb).length_eq
  have hnumber := hfront.number_eq hb
  rw [List.length_append, HashtableT.others, List.length_append] at hlength
  rw [List.length_cons] at hroom
  have hstore := hinv.store_front hb (u8 (s.table.number + 1))
    (e :: s.table.bucket (hash e.key % s.table.size)) ?_ ?_
    ((HashtableT.elems_perm hb).symm.cons e) hvalid hkeys haddrs
  · exact ⟨hstore.1, (hholds.cons e hkey).of_perm hstore.2⟩
  · intro x hx
    rcases List.mem_cons.mp hx with rfl | hx
    · rfl
    · exact hfront.placed _ hb x hx
  · rw [u8_of_lt (by omega), List.length_cons]
    omega

theorem insert_simulated (hcmp : ∀ a b, cmp a b = 0 ↔ a = b) (h : Refines hash s bindings)
    {granted : Bool} {alloc : Option ℕ} (hok : callOk s (.insert key value granted alloc))
    (hfits : callFits s (.insert key value granted alloc)) :
    Simulated cmp hash s bindings (.insert key value granted alloc) := by
  rcases hok with ⟨-, -, rfl, addr, haddr, haddr_pos, haddr_lt, hfresh⟩
  have hsize : s.table.size ≠ 0 := (h.1.tables s.table List.mem_cons_self).size_pos.ne'
  by_cases hillegal : key = [] ∨ value = []
  · refine ⟨s, ?_, ?_⟩
    · have hguard : key = [] ∨ s.table.size = 0 ∨ value = [] := hillegal.imp_right .inr
      simp [callExec, hashtableInsert, if_pos hguard, mapResult, if_pos hillegal]
    · rw [mapStep, if_neg fun h ↦ hillegal.elim h.1 h.2.1]
      exact h
  · rcases not_or.mp hillegal with ⟨hkey, hvalue⟩
    have hguard : ¬ (key = [] ∨ s.table.size = 0 ∨ value = []) := by
      rw [not_or, not_or]
      exact ⟨hkey, hsize, hvalue⟩
    rcases expandIfCrowded_spec h.1 hfits with ⟨s₁, hexpand, hinv₁, hperm₁⟩
    have h₁ := h.of_perm hinv₁ hperm₁
    rcases hashtableSearch_spec hcmp hinv₁ hkey with ⟨hmiss, hsearch⟩ | ⟨e, s', hsearch, hfound⟩
    · have hnone := h₁.2.none_iff.mpr hmiss
      have hset : HtElem.setValue ⟨addr, elemSize + key.length + value.length, key, []⟩ value =
          some ⟨addr, elemSize + key.length + value.length, key, value⟩ := if_pos le_rfl
      have hpush := h₁.push (e := ⟨addr, elemSize + key.length + value.length, key, value⟩)
        ⟨hkey, le_rfl, haddr_pos, haddr_lt⟩ hmiss
        fun x hx ↦ hfresh x (hperm₁.mem_iff.mp hx) id
      rw [Simulated, mapStep, if_pos ⟨hkey, hvalue, hnone⟩]
      refine ⟨_, ?_, hpush⟩
      simp only [callExec, hashtableInsert, if_neg hguard, hexpand, hsearch,
        Option.mem_def.mp haddr, hset, hinv₁.slot_eq, mapResult, if_neg hillegal, if_pos hnone,
        Option.bind_eq_bind, Option.bind_some]
      rfl
    · have hsome := hfound.binding h₁
      have hbound : ¬ bindings key = none := by simp [hsome]
      refine ⟨s', ?_, ?_⟩
      · simp [callExec, hashtableInsert, if_neg hguard, hexpand, hsearch, mapResult, if_neg hillegal,
          if_neg hbound]
      · rw [mapStep, if_neg fun h ↦ hbound h.2.2]
        exact h₁.of_perm hfound.inv hfound.perm

/-! ### `hashtable_erase` and `hashtable_update` -/

section
variable {b : ℕ} {before after : List HtElem}

theorem Split.rest_valid (hsplit : Split s b e before after) (h : Inv hash s) :
    ∀ x ∈ before ++ after ++ s.others b, x.Valid := by
  intro x hx
  exact h.valid x (hsplit.perm.mem_iff.mpr (List.mem_cons_of_mem e hx))

theorem Split.rest_keys (hsplit : Split s b e before after) (h : Inv hash s) :
    ((before ++ after ++ s.others b).map HtElem.key).Nodup := by
  have hkeys := (hsplit.perm.map HtElem.key).nodup_iff.mp h.keys
  rw [List.map_cons] at hkeys
  exact hkeys.of_cons

theorem Split.rest_addrs (hsplit : Split s b e before after) (h : Inv hash s) :
    ((before ++ after ++ s.others b).map HtElem.addr).Nodup := by
  have haddrs := (hsplit.perm.map HtElem.addr).nodup_iff.mp h.addrs
  rw [List.map_cons] at haddrs
  exact haddrs.of_cons

theorem Split.number_eq (hsplit : Split s b e before after) (h : Inv hash s) :
    s.table.number = before.length + after.length + 1 + (s.table.others b).length ∧
      s.table.number < 18446744073709551616 := by
  have hnumber := (h.tables s.table List.mem_cons_self).number_eq hsplit.bucket_lt
  have hlength := (HashtableT.elems_perm hsplit.bucket_lt).length_eq
  have hlt := h.length_lt
  rw [List.length_append, HashtableT.others, List.length_append] at hlength
  have hbucket := congrArg List.length hsplit.bucket_eq
  rw [List.length_append, List.length_cons] at hbucket
  omega

theorem Split.placed (hsplit : Split s b e before after) (h : Inv hash s) :
    ∀ x ∈ before ++ e :: after, hash x.key % s.table.size = b := by
  rw [← hsplit.bucket_eq]
  exact (h.tables s.table List.mem_cons_self).placed b hsplit.bucket_lt

theorem Split.eraseP_eq (hsplit : Split s b e before after) :
    (s.table.bucket b).eraseP (fun x ↦ x.addr = e.addr) = before ++ after := by
  rw [hsplit.bucket_eq, List.eraseP_append_right, List.eraseP_cons_of_pos (by simp)]
  intro x hx
  simpa using hsplit.before_ne x hx

/-- Removing the element from its bucket. -/
theorem Split.erase_refines (hsplit : Split s b e before after) (h : Refines hash s bindings) :
    Refines hash ⟨s.table.store b (before ++ after) (u8Sub s.table.number 1), s.older⟩
      (Function.update bindings e.key none) := by
  rcases h with ⟨hinv, hholds⟩
  have hnumber := hsplit.number_eq hinv
  have hstore := hinv.store_front hsplit.bucket_lt (u8Sub s.table.number 1) (before ++ after)
    ?_ ?_ (.refl _) (hsplit.rest_valid hinv) (hsplit.rest_keys hinv) (hsplit.rest_addrs hinv)
  · exact ⟨hstore.1, ((hholds.of_perm hsplit.perm.symm).tail hsplit.keys).of_perm hstore.2⟩
  · intro x hx
    apply hsplit.placed hinv x
    rcases List.mem_append.mp hx with hx | hx
    · exact List.mem_append_left _ hx
    · exact List.mem_append_right _ (List.mem_cons_of_mem e hx)
  · rw [u8Sub_of_le (by omega) hnumber.2, List.length_append]
    omega

theorem Split.replaceElem_eq (hsplit : Split s b e before after) :
    replaceElem e.addr e' (s.table.bucket b) = before ++ e' :: after := by
  rw [hsplit.bucket_eq]
  have hne := hsplit.before_ne
  clear hsplit
  induction before with
  | nil => exact if_pos rfl
  | cons x before ih =>
      have hx := hne x List.mem_cons_self
      rw [List.cons_append, replaceElem, if_neg hx, ih fun y hy ↦ hne y (List.mem_cons_of_mem x hy)]
      rfl

/-- The walk of `hashtable_update` finds the element at the head or behind another one. -/
theorem reaches_elem (before after : List HtElem) :
    (before ++ e :: after).head?.map HtElem.addr = some e.addr ∨
      hasPredecessor e.addr (before ++ e :: after) := by
  induction before with
  | nil => exact .inl rfl
  | cons x before ih =>
      right
      cases before with
      | nil => simp [hasPredecessor]
      | cons y before =>
          rcases ih with hhead | hwalk
          · have haddr : y.addr = e.addr := by simpa using hhead
            simp [hasPredecessor, haddr]
          · simp only [List.cons_append] at hwalk ⊢
            simp [hasPredecessor, hwalk]

/-- Replacing the element in its bucket. -/
theorem Split.update_refines (hsplit : Split s b e before after) (h : Refines hash s bindings)
    (hvalid : e'.Valid) (hkey : e'.key = e.key)
    (haddr : ∀ x ∈ before ++ after ++ s.others b, x.addr ≠ e'.addr) :
    Refines hash ⟨s.table.store b (before ++ e' :: after) s.table.number, s.older⟩
      (Function.update bindings e.key (some e'.value)) := by
  rcases h with ⟨hinv, hholds⟩
  have hnumber := (hsplit.number_eq hinv).1
  have hkeys : ((e' :: (before ++ after ++ s.others b)).map HtElem.key).Nodup := by
    rw [List.map_cons, hkey, ← List.map_cons]
    exact (hsplit.perm.map HtElem.key).nodup_iff.mp hinv.keys
  have haddrs : ((e' :: (before ++ after ++ s.others b)).map HtElem.addr).Nodup := by
    rw [List.map_cons, List.nodup_cons]
    refine ⟨?_, hsplit.rest_addrs hinv⟩
    intro hmem
    rcases List.mem_map.mp hmem with ⟨x, hx, heq⟩
    exact haddr x hx heq
  have hstore := hinv.store_front hsplit.bucket_lt s.table.number (before ++ e' :: after) ?_ ?_
    (List.perm_middle.append_right _) (List.forall_mem_cons.mpr ⟨hvalid, hsplit.rest_valid hinv⟩)
    hkeys haddrs
  · have hholds' := ((hholds.of_perm hsplit.perm.symm).tail hsplit.keys).cons e'
      (hkey.symm ▸ hsplit.keys)
    rw [hkey, Function.update_idem] at hholds'
    exact ⟨hstore.1, hholds'.of_perm hstore.2⟩
  · intro x hx
    rcases List.mem_append.mp hx with hx | hx
    · exact hsplit.placed hinv x (List.mem_append_left _ hx)
    · rcases List.mem_cons.mp hx with rfl | hx
      · rw [hkey]
        exact hsplit.placed hinv e (by simp)
      · exact hsplit.placed hinv x (List.mem_append_right _ (List.mem_cons_of_mem e hx))
  · rw [List.length_append, List.length_cons]
    omega

end

theorem erase_simulated (hcmp : ∀ a b, cmp a b = 0 ↔ a = b) (h : Refines hash s bindings)
    (key : Bytes) : Simulated cmp hash s bindings (.erase key) := by
  by_cases hkey : key = []
  · subst hkey
    refine ⟨s, ?_, ?_⟩
    · simp [callExec, hashtableErase, mapResult]
    · rw [mapStep, Function.update_eq_self_iff.mpr h.empty_unbound.symm]
      exact h
  · rcases hashtableSearch_spec hcmp h.1 hkey with ⟨hmiss, hsearch⟩ | ⟨e, s', hsearch, hfound⟩
    · have hnone := h.2.none_iff.mpr hmiss
      refine ⟨s, ?_, ?_⟩
      · simp [callExec, hashtableErase, hkey, hsearch, mapResult, hnone]
      · rw [mapStep, Function.update_eq_self_iff.mpr hnone.symm]
        exact h
    · have hbound : ¬ bindings key = none := by simp [hfound.binding h]
      have h' := h.of_perm hfound.inv hfound.perm
      rcases hfound.inv.split (hfound.inv.mod_lt (hash key)) hfound.mem with ⟨before, after, hsplit⟩
      have hany : (s'.table.bucket (hash key % s'.table.size)).any (fun x ↦ x.addr = e.addr) :=
        List.any_eq_true.mpr ⟨e, hfound.mem, by simp⟩
      have herase := hsplit.erase_refines h'
      rw [hfound.key_eq] at herase
      refine ⟨_, ?_, herase⟩
      simp only [callExec, hashtableErase, if_neg hkey, hsearch, hfound.inv.slot_eq, mapResult,
        if_neg hbound, Option.bind_eq_bind, Option.bind_some, if_pos hany, hsplit.eraseP_eq]
      rfl

/-- The new element, when its byte count does not wrap. -/
theorem updateElem_spec (he : e.Valid) (hkey : e.key = key) {addr : ℕ} (haddr_pos : 0 < addr)
    (haddr_lt : addr < 18446744073709551616) (alloc : Option ℕ)
    (hfits : e.value.length ≤ value.length →
      elemSize + key.length + value.length < 4294967296) :
    ∃ e', updateElem e key value (some addr) alloc = some (some e') ∧ e'.Valid ∧ e'.key = key ∧
      e'.value = value ∧ (e'.addr = e.addr ∨ e'.addr = addr) := by
  unfold updateElem
  by_cases hshort : value.length < e.value.length
  · have hroom := he.fits
    have hcap : elemSize + e.key.length + value.length ≤ e.cap := by omega
    refine ⟨{ e with value := value }, ?_, ⟨he.key_ne, hcap, he.addr_pos, he.addr_lt⟩, hkey, rfl,
      .inl rfl⟩
    rw [if_pos hshort, HtElem.setValue, if_pos hcap]
    rfl
  · have hcap : elemSize + e.key.length + value.length ≤
        u4 (elemSize + key.length + value.length) := by
      rw [hkey, u4_of_lt (hfits (by omega))]
    refine ⟨⟨addr, u4 (elemSize + key.length + value.length), e.key, value⟩, ?_,
      ⟨he.key_ne, hcap, haddr_pos, haddr_lt⟩, hkey, rfl, .inr rfl⟩
    rw [if_neg hshort]
    simp only [HtElem.setValue]
    rw [if_pos hcap]
    rfl

/-- When the byte count wraps, the copy of the value runs past the end of the element. -/
theorem updateElem_faults (hkey : e.key = key) (hlong : e.value.length ≤ value.length)
    (hwrap : 4294967296 ≤ elemSize + key.length + value.length) (addr : ℕ) (alloc : Option ℕ) :
    updateElem e key value (some addr) alloc = none := by
  have hcap : ¬ elemSize + e.key.length + value.length ≤
      u4 (elemSize + key.length + value.length) := by
    have hlt := u4_lt (elemSize + key.length + value.length)
    rw [hkey]
    omega
  rw [updateElem, if_neg (by omega)]
  simp only [HtElem.setValue]
  rw [if_neg hcap]
  rfl

theorem update_simulated (hcmp : ∀ a b, cmp a b = 0 ↔ a = b) (h : Refines hash s bindings)
    {moved alloc : Option ℕ} (hok : callOk s (.update key value moved alloc))
    (hfits : callFits s (.update key value moved alloc)) :
    Simulated cmp hash s bindings (.update key value moved alloc) := by
  rcases hok with ⟨-, -, addr, haddr, haddr_pos, haddr_lt, hfresh⟩
  by_cases hillegal : key = [] ∨ value = []
  · refine ⟨s, ?_, ?_⟩
    · simp [callExec, hashtableUpdate, if_pos hillegal, mapResult]
    · have hskip : ¬ (value ≠ [] ∧ bindings key ≠ none) := by
        rintro ⟨hvalue, hbound⟩
        rcases hillegal with rfl | hempty
        · exact hbound h.empty_unbound
        · exact hvalue hempty
      rw [mapStep, if_neg hskip]
      exact h
  · rcases not_or.mp hillegal with ⟨hkey, hvalue⟩
    rcases hashtableSearch_spec hcmp h.1 hkey with ⟨hmiss, hsearch⟩ | ⟨e, s', hsearch, hfound⟩
    · have hnone := h.2.none_iff.mpr hmiss
      refine ⟨s, ?_, ?_⟩
      · simp [callExec, hashtableUpdate, if_neg hillegal, hsearch, mapResult, hnone]
      · rw [mapStep, if_neg fun h ↦ h.2 hnone]
        exact h
    · have hbound : ¬ bindings key = none := by simp [hfound.binding h]
      have h' := h.of_perm hfound.inv hfound.perm
      rcases hfound.inv.split (hfound.inv.mod_lt (hash key)) hfound.mem with ⟨before, after, hsplit⟩
      have hmem : e ∈ s'.elems := hsplit.perm.mem_iff.mpr List.mem_cons_self
      have hold := hfits e (hfound.perm.mem_iff.mp hmem) hfound.key_eq
      rcases updateElem_spec (hfound.inv.valid e hmem) hfound.key_eq haddr_pos haddr_lt alloc hold
        with ⟨e', hupdate, hvalid', hkey', hvalue', haddr'⟩
      have hother : ∀ x ∈ before ++ after ++ s'.others (hash key % s'.table.size),
          x.addr ≠ e'.addr := by
        intro x hx heq
        have hxmem : x ∈ s'.elems := hsplit.perm.mem_iff.mpr (List.mem_cons_of_mem e hx)
        have hxkey := hsplit.keys x hx
        rcases haddr' with hsame | hmoved
        · have hxe := hfound.inv.addr_unique hxmem hmem (heq.trans hsame)
          exact hxkey (by rw [hxe])
        · rw [hfound.key_eq] at hxkey
          exact hfresh x (hfound.perm.mem_iff.mp hxmem) hxkey (heq.trans hmoved)
      have hrefines := hsplit.update_refines h' hvalid' (hkey'.trans hfound.key_eq.symm) hother
      rw [hfound.key_eq, hvalue'] at hrefines
      have hreach := reaches_elem (e := e) before after
      rw [← hsplit.bucket_eq] at hreach
      rw [Simulated, mapStep, if_pos ⟨hvalue, hbound⟩]
      refine ⟨_, ?_, hrefines⟩
      simp only [callExec, hashtableUpdate, if_neg hillegal, hsearch, hfound.inv.slot_eq, mapResult,
        if_neg hbound, Option.bind_eq_bind, Option.bind_some, if_pos hreach,
        Option.mem_def.mp haddr, hupdate, hsplit.replaceElem_eq]
      rfl

/-! ### `hashtable_size` -/

theorem size_fold (tables : List TableT) (hvalid : ∀ t ∈ tables, t.Valid hash) (total : ℕ)
    (hlt : total + (tables.flatMap TableT.elems).length < 4294967296) :
    tables.foldl (fun htSize t ↦ u4 (htSize + t.number)) total =
      total + (tables.flatMap TableT.elems).length := by
  induction tables generalizing total with
  | nil => rfl
  | cons t tables ih =>
      rcases List.forall_mem_cons.mp hvalid with ⟨ht, hrest⟩
      rw [List.flatMap_cons, List.length_append] at hlt ⊢
      rw [List.foldl_cons, ht.number, u4_of_lt (by omega), ih hrest _ (by omega)]
      omega

theorem size_simulated (h : Refines hash s bindings) (hfits : callFits s .size) :
    Simulated cmp hash s bindings .size := by
  refine ⟨s, ?_, h⟩
  have hsize : hashtableSize s = s.elems.length := by
    have hfold := size_fold (s.table :: s.older) h.1.tables 0 (by rw [Nat.zero_add]; exact hfits)
    rw [Nat.zero_add] at hfold
    exact hfold
  rw [mapResult, h.2.ncard h.1.keys, callExec, hsize]

/-! ## Runs -/

/-- The hash table on the calls whose counts do not wrap. -/
def fittingMachine (cmp : Bytes → Bytes → ℤ) (hash : Bytes → ℕ) :
    Machine HashtableT Call Ret where
  init s := ∃ size, 0 < size ∧ size < 18446744073709551616 ∧ hashtableInit size = some s ∧
    TableFits size
  ok s call := callOk s call ∧ callFits s call
  exec := callExec cmp hash

theorem fittingMachine_trace {log : List (Call × Ret)}
    (htrace : (fittingMachine cmp hash).Trace s log) : (machine cmp hash).Trace s log := by
  apply htrace.mono
  · rintro s ⟨size, hpos, hlt, hinit, -⟩
    exact ⟨size, hpos, hlt, hinit⟩
  · intro s call hok
    exact hok.1
  · rfl

theorem call_simulates (hcmp : ∀ a b, cmp a b = 0 ↔ a = b) :
    Machine.Simulates (fittingMachine cmp hash) mapStep
      (fun bindings call r ↦ r = mapResult bindings call) (Refines hash) := by
  intro s bindings call h hok
  have hsim : Simulated cmp hash s bindings call := by
    rcases hok with ⟨hok, hfits⟩
    cases call with
    | insert key value granted alloc => exact insert_simulated hcmp h hok hfits
    | find key => exact find_simulated hcmp h key
    | erase key => exact erase_simulated hcmp h key
    | update key value moved alloc => exact update_simulated hcmp h hok hfits
    | size => exact size_simulated h hfits
  rcases hsim with ⟨s', hexec, hrefines⟩
  exact ⟨_, s', hexec, rfl, hrefines⟩

theorem refines_trace (hcmp : ∀ a b, cmp a b = 0 ↔ a = b) {log : List (Call × Ret)}
    (htrace : (fittingMachine cmp hash).Trace s log) : Refines hash s (contents log) := by
  apply htrace.related (fun _ ↦ none) _ (call_simulates hcmp)
  rintro s ⟨size, -, -, hinit, hfits⟩
  exact refines_init hfits hinit

/-- For every run on which no count wraps: every element is in the bucket of its hash in the table
that holds it, no key occurs twice in the chain, `number` counts the elements of its table, the
elements are exactly the bindings of the finite map, and every further call returns what the map
returns. -/
theorem hashtable_refines_map (hcmp : ∀ a b, cmp a b = 0 ↔ a = b) {log : List (Call × Ret)}
    (htrace : (fittingMachine cmp hash).Trace s log) :
    (∀ t ∈ s.table :: s.older,
      (∀ b < t.size, ∀ e ∈ t.bucket b, hash e.key % t.size = b) ∧ t.number = t.elems.length) ∧
    (s.elems.map HtElem.key).Nodup ∧
    (∀ key value, contents log key = some value ↔
      ∃ e ∈ s.elems, e.key = key ∧ e.value = value) ∧
    ∀ call, callOk s call → callFits s call →
      ∃ s', callExec cmp hash s call = some (mapResult (contents log) call, s') := by
  have hrefines := refines_trace hcmp htrace
  refine ⟨?_, hrefines.1.keys, hrefines.2, ?_⟩
  · intro t ht
    have hvalid := hrefines.1.tables t ht
    exact ⟨hvalid.placed, hvalid.number⟩
  · intro call hok hfits
    rcases call_simulates hcmp s _ call hrefines ⟨hok, hfits⟩ with ⟨r, s', hexec, rfl, -⟩
    exact ⟨s', hexec⟩

instance (size : ℕ) : Decidable (TableFits size) :=
  inferInstanceAs (Decidable (∃ _ ∈ _, _ < _))

instance (s : HashtableT) (own : Bytes → Prop) [DecidablePred own] (addr : ℕ) :
    Decidable (freshFor s own addr) := inferInstanceAs (Decidable (_ ∧ _ ∧ _))

instance (s : HashtableT) : (call : Call) → Decidable (callOk s call)
  | .insert _ _ _ _ => inferInstanceAs (Decidable (_ ∧ _ ∧ _ ∧ ∃ _ ∈ _, freshFor _ _ _))
  | .find _ => inferInstanceAs (Decidable (_ < _))
  | .erase _ => inferInstanceAs (Decidable (_ < _))
  | .update _ _ _ _ => inferInstanceAs (Decidable (_ ∧ _ ∧ ∃ _ ∈ _, freshFor _ _ _))
  | .size => inferInstanceAs (Decidable True)

instance (s : HashtableT) : (call : Call) → Decidable (callFits s call)
  | .insert _ _ _ _ => inferInstanceAs (Decidable (_ → ∀ _ ∈ _, TableFits _))
  | .find _ => inferInstanceAs (Decidable True)
  | .erase _ => inferInstanceAs (Decidable True)
  | .update _ _ _ _ => inferInstanceAs (Decidable (∀ _ ∈ _, _ → _ → _))
  | .size => inferInstanceAs (Decidable (_ < _))

instance (s : HashtableT) (call : Call) :
    Decidable ((fittingMachine bytesCmp bkdr64).ok s call) :=
  inferInstanceAs (Decidable (_ ∧ _))

/-- Two keys of one bucket, a longer value for the first, and the second erased. -/
def smallCalls : List Call :=
  [.insert [1] [7] true (some 100), .insert [6] [8] true (some 200), .insert [1] [9] true (some 300),
    .update [1] [9, 9] (some 300) none, .erase [6]]

theorem init_runs : (hashtableInit 3).isSome := by with_unfolding_all decide

theorem smallCalls_run : ((fittingMachine bytesCmp bkdr64).execAll
    ((hashtableInit 3).get init_runs) smallCalls).isSome := by with_unfolding_all decide

theorem hashtable_refines_map_small :
    ∃ s log, (fittingMachine bytesCmp bkdr64).Trace s log ∧ contents log [1] = some [9, 9] ∧
      ∃ s', callExec bytesCmp bkdr64 s (.find [6]) = some (.found (-2) none, s') := by
  have hinit : (fittingMachine bytesCmp bkdr64).init ((hashtableInit 3).get init_runs) :=
    ⟨3, by decide, by decide, (Option.some_get init_runs).symm, tableFits_of_lt (by decide)⟩
  have htrace := Machine.trace_execAll hinit (by with_unfolding_all decide) (Option.some_get smallCalls_run).symm
  have hcontents : contents ((((fittingMachine bytesCmp bkdr64).execAll
      ((hashtableInit 3).get init_runs) smallCalls).get smallCalls_run).1) [6] = none := by
    with_unfolding_all decide
  have hfind := (hashtable_refines_map bytesCmp_zero_iff htrace).2.2.2 (.find [6]) (by decide) trivial
  rw [mapResult, hcontents, if_pos rfl] at hfind
  exact ⟨_, _, htrace, by with_unfolding_all decide, hfind⟩

/-- An update whose byte count wraps faults. -/
theorem update_faults (hcmp : ∀ a b, cmp a b = 0 ↔ a = b) (h : Refines hash s bindings)
    {old : Bytes} (hbound : bindings key = some old) (hvalue : value ≠ [])
    (hlong : old.length ≤ value.length)
    (hwrap : 4294967296 ≤ elemSize + key.length + value.length) (addr : ℕ) (alloc : Option ℕ) :
    callExec cmp hash s (.update key value (some addr) alloc) = none := by
  have hkey : key ≠ [] := by
    rintro rfl
    rw [h.empty_unbound] at hbound
    cases hbound
  rcases hashtableSearch_spec hcmp h.1 hkey with ⟨hmiss, -⟩ | ⟨e, s', hsearch, hfound⟩
  · rw [h.2.none_iff.mpr hmiss] at hbound
    cases hbound
  · have hold : e.value = old := by
      rw [hfound.binding h, Option.some_inj] at hbound
      exact hbound
    rcases hfound.inv.split (hfound.inv.mod_lt (hash key)) hfound.mem with ⟨before, after, hsplit⟩
    have hreach := reaches_elem (e := e) before after
    rw [← hsplit.bucket_eq] at hreach
    have hfault := updateElem_faults hfound.key_eq (hold ▸ hlong) hwrap addr alloc
    simp only [callExec, hashtableUpdate, if_neg (not_or.mpr ⟨hkey, hvalue⟩), hsearch,
      hfound.inv.slot_eq, Option.bind_eq_bind, Option.bind_some, if_pos hreach, hfault]
    rfl

/-- One key with a value of one byte. -/
def oneCall : List Call := [.insert [1] [7] true (some 100)]

theorem oneCall_runs : ((fittingMachine bytesCmp bkdr64).execAll
    ((hashtableInit 3).get init_runs) oneCall).isSome := by with_unfolding_all decide

/-- A value of `2 ^ 32 - 1` bytes for a present key: the map would be updated, the source copies the
value past the end of an element reallocated to 32 bytes. -/
theorem hashtable_update_overflows :
    ∃ s log, (machine bytesCmp bkdr64).Trace s log ∧ contents log [1] = some [7] ∧
      callOk s (.update [1] (List.replicate 4294967295 0) (some 100) none) ∧
      callExec bytesCmp bkdr64 s (.update [1] (List.replicate 4294967295 0) (some 100) none) =
        none := by
  have hinit : (fittingMachine bytesCmp bkdr64).init ((hashtableInit 3).get init_runs) :=
    ⟨3, by decide, by decide, (Option.some_get init_runs).symm, tableFits_of_lt (by decide)⟩
  have htrace := Machine.trace_execAll hinit (by with_unfolding_all decide) (Option.some_get oneCall_runs).symm
  have hbound : contents ((((fittingMachine bytesCmp bkdr64).execAll
      ((hashtableInit 3).get init_runs) oneCall).get oneCall_runs).1) [1] = some [7] := by
    with_unfolding_all decide
  have hrefines := refines_trace bytesCmp_zero_iff htrace
  have hlength : (List.replicate 4294967295 (0 : UInt8)).length = 4294967295 :=
    List.length_replicate
  refine ⟨_, _, fittingMachine_trace htrace, hbound,
    ⟨by decide, by rw [hlength]; decide, 100, rfl, by with_unfolding_all decide⟩,
    update_faults bytesCmp_zero_iff hrefines hbound ?_ ?_ ?_ 100 none⟩
  · intro hnil
    rw [hnil] at hlength
    cases hlength
  · rw [hlength]
    decide
  · rw [hlength]
    decide

end CPractice.Hashtable
