import CPractice.Hashtable.Model
import Mathlib.Data.List.Perm.Basic
import Mathlib.Data.List.Range

/-!
# Searches and migration

The invariant of the chain, and what a search does to it: the elements stay the same up to their
order, and an element that is found ends up in the front table.  Everything about buckets goes
through one permutation: the elements of a table are those of one bucket and the others.
-/

namespace CPractice.Hashtable

open Lib Math

variable {cmp : Bytes → Bytes → ℤ} {hash : Bytes → ℕ} {t : TableT} {s : HashtableT}

/-! ## The elements of a table -/

/-- The elements outside a bucket. -/
def TableT.others (t : TableT) (b : ℕ) : List HtElem :=
  ((List.range t.size).erase b).flatMap t.bucket

theorem TableT.elems_perm {b : ℕ} (hb : b < t.size) :
    t.elems.Perm (t.bucket b ++ t.others b) := by
  have hrange := List.perm_cons_erase (List.mem_range.mpr hb)
  have hmap := hrange.flatMap_right t.bucket
  simpa [TableT.elems, TableT.others] using hmap

@[simp]
theorem TableT.store_size (t : TableT) (b : ℕ) (elems : List HtElem) (number : ℕ) :
    (t.store b elems number).size = t.size := rfl

@[simp]
theorem TableT.store_slots (t : TableT) (b : ℕ) (elems : List HtElem) (number : ℕ) :
    (t.store b elems number).slots = t.slots := rfl

@[simp]
theorem TableT.store_number (t : TableT) (b : ℕ) (elems : List HtElem) (number : ℕ) :
    (t.store b elems number).number = number := rfl

@[simp]
theorem TableT.store_bucket (t : TableT) (b : ℕ) (elems : List HtElem) (number : ℕ) :
    (t.store b elems number).bucket b = elems := Function.update_self ..

theorem TableT.store_bucket_of_ne {b c : ℕ} (h : c ≠ b) (elems : List HtElem) (number : ℕ) :
    (t.store b elems number).bucket c = t.bucket c := Function.update_of_ne h ..

theorem TableT.store_others (t : TableT) (b : ℕ) (elems : List HtElem) (number : ℕ) :
    (t.store b elems number).others b = t.others b := by
  unfold TableT.others
  rw [List.flatMap_def, List.flatMap_def, store_size]
  congr 1
  apply List.map_congr_left
  intro c hc
  have hne : c ≠ b := ((List.nodup_range).mem_erase_iff.mp hc).1
  exact store_bucket_of_ne hne elems number

/-- Storing a bucket replaces its elements and keeps the others. -/
theorem TableT.store_elems_perm {b : ℕ} (hb : b < t.size) (elems : List HtElem) (number : ℕ) :
    (t.store b elems number).elems.Perm (elems ++ t.others b) := by
  have hperm := TableT.elems_perm (t := t.store b elems number) hb
  rwa [store_bucket, store_others] at hperm

theorem TableT.mem_elems {e : HtElem} : e ∈ t.elems ↔ ∃ b < t.size, e ∈ t.bucket b := by
  simp [TableT.elems]

/-! ## The invariant -/

/-- A table with room for its buckets, every element in the bucket of its hash, and the right
`number`. -/
structure TableT.Valid (hash : Bytes → ℕ) (t : TableT) : Prop where
  size_pos : 0 < t.size
  slots : t.size ≤ t.slots
  placed : ∀ b < t.size, ∀ e ∈ t.bucket b, hash e.key % t.size = b
  number : t.number = t.elems.length

/-- An element whose key and value fit its allocation. -/
structure HtElem.Valid (e : HtElem) : Prop where
  key_ne : e.key ≠ []
  fits : elemSize + e.key.length + e.value.length ≤ e.cap
  addr_pos : 0 < e.addr
  addr_lt : e.addr < 18446744073709551616

/-- The invariant of the chain of tables. -/
structure Inv (hash : Bytes → ℕ) (s : HashtableT) : Prop where
  tables : ∀ t ∈ s.table :: s.older, t.Valid hash
  valid : ∀ e ∈ s.elems, e.Valid
  keys : (s.elems.map HtElem.key).Nodup
  addrs : (s.elems.map HtElem.addr).Nodup

theorem HashtableT.elems_eq (s : HashtableT) :
    s.elems = s.table.elems ++ s.older.flatMap TableT.elems := rfl

/-- Rearranging the elements over valid tables keeps the invariant. -/
theorem Inv.of_perm {s' : HashtableT} (h : Inv hash s) (hperm : s'.elems.Perm s.elems)
    (htables : ∀ t ∈ s'.table :: s'.older, t.Valid hash) : Inv hash s' where
  tables := htables
  valid e he := h.valid e (hperm.mem_iff.mp he)
  keys := (hperm.map HtElem.key).nodup_iff.mpr h.keys
  addrs := (hperm.map HtElem.addr).nodup_iff.mpr h.addrs

/-- Distinct numbers between `0` and `n`. -/
theorem length_lt_of_nodup {l : List ℕ} (hnodup : l.Nodup) {n : ℕ} (hn : 0 < n)
    (hl : ∀ a ∈ l, 0 < a ∧ a < n) : l.length < n := by
  have hsub : l ⊆ List.range' 1 (n - 1) := by
    intro a ha
    have hrange := hl a ha
    exact List.mem_range'_1.mpr ⟨hrange.1, by omega⟩
  have hle := (hnodup.subperm hsub).length_le
  rw [List.length_range'] at hle
  omega

/-- Distinct addresses that are not `nil` leave room in a `u8` counter. -/
theorem length_lt_of_addrs {elems : List HtElem} (hvalid : ∀ e ∈ elems, e.Valid)
    (haddrs : (elems.map HtElem.addr).Nodup) : elems.length < 18446744073709551616 := by
  have hlt := length_lt_of_nodup haddrs (n := 18446744073709551616) (by decide) ?_
  · rwa [List.length_map] at hlt
  · intro a ha
    rcases List.mem_map.mp ha with ⟨e, he, rfl⟩
    exact ⟨(hvalid e he).addr_pos, (hvalid e he).addr_lt⟩

theorem Inv.length_lt (h : Inv hash s) : s.elems.length < 18446744073709551616 :=
  length_lt_of_addrs h.valid h.addrs

theorem Inv.addr_unique (h : Inv hash s) {e e' : HtElem} (he : e ∈ s.elems) (he' : e' ∈ s.elems)
    (heq : e.addr = e'.addr) : e = e' := List.inj_on_of_nodup_map h.addrs he he' heq

namespace TableT.Valid

theorem slot_eq (h : t.Valid hash) (pos : ℕ) : t.slot pos = some (pos % t.size) := by
  have hlt : pos % t.size < t.slots := (Nat.mod_lt _ h.size_pos).trans_le h.slots
  rw [TableT.slot, if_neg h.size_pos.ne', if_pos hlt]

theorem mod_lt (h : t.Valid hash) (pos : ℕ) : pos % t.size < t.size := Nat.mod_lt _ h.size_pos

/-- An element of a table is in the bucket of its hash. -/
theorem mem_bucket (h : t.Valid hash) {e : HtElem} (he : e ∈ t.elems) :
    e ∈ t.bucket (hash e.key % t.size) := by
  rcases TableT.mem_elems.mp he with ⟨b, hb, hmem⟩
  rw [h.placed b hb e hmem]
  exact hmem

/-- Storing a bucket of elements that belong there. -/
theorem store (h : t.Valid hash) {b : ℕ} (hb : b < t.size) {elems : List HtElem} {number : ℕ}
    (hplaced : ∀ e ∈ elems, hash e.key % t.size = b)
    (hnumber : number = elems.length + (t.others b).length) :
    (t.store b elems number).Valid hash where
  size_pos := h.size_pos
  slots := h.slots
  placed := by
    intro c hc e he
    by_cases heq : c = b
    · subst heq
      rw [TableT.store_bucket] at he
      exact hplaced e he
    · rw [TableT.store_bucket_of_ne heq] at he
      exact h.placed c hc e he
  number := by
    rw [(TableT.store_elems_perm hb elems number).length_eq, List.length_append]
    exact hnumber

theorem number_eq (h : t.Valid hash) {b : ℕ} (hb : b < t.size) :
    t.number = (t.bucket b).length + (t.others b).length := by
  rw [h.number, (TableT.elems_perm hb).length_eq, List.length_append]

end TableT.Valid

/-! ## Migration -/

/-- One turn of the migration loop on the front table. -/
theorem push_valid (h : t.Valid hash) (e : HtElem) (hroom : t.number + 1 < 18446744073709551616) :
    (t.store (hash e.key % t.size) (e :: t.bucket (hash e.key % t.size))
      (u8 (t.number + 1))).Valid hash := by
  have hb := h.mod_lt (hash e.key)
  apply h.store hb
  · intro e' he'
    rcases List.mem_cons.mp he' with rfl | hmem
    · rfl
    · exact h.placed _ hb e' hmem
  · rw [u8_of_lt hroom, h.number_eq hb, List.length_cons]
    omega

theorem push_perm (h : t.Valid hash) (e : HtElem) (number : ℕ) :
    List.Perm
      (t.store (hash e.key % t.size) (e :: t.bucket (hash e.key % t.size)) number).elems
      (e :: t.elems) := by
  have hb := h.mod_lt (hash e.key)
  have hsplit := (TableT.elems_perm hb).symm.cons e
  exact (TableT.store_elems_perm hb _ _).trans hsplit

/-- One turn of the loop on the table that is emptied. -/
theorem pop_valid (h : t.Valid hash) {b : ℕ} (hb : b < t.size) {e : HtElem} {rest : List HtElem}
    (hbucket : t.bucket b = e :: rest) (hlt : t.number < 18446744073709551616) :
    (t.store b rest (u8Sub t.number 1)).Valid hash := by
  have hnumber := h.number_eq hb
  rw [hbucket, List.length_cons] at hnumber
  apply h.store hb
  · intro e' he'
    exact h.placed b hb e' (hbucket ▸ List.mem_cons_of_mem e he')
  · rw [u8Sub_of_le (by omega) hlt]
    omega

theorem migrate_spec {b : ℕ} (total : ℕ) (htotal : total < 18446744073709551616) (elems : List HtElem)
    (front target : TableT) (hb : b < target.size) (hfront : front.Valid hash)
    (htarget : target.Valid hash) (hbucket : target.bucket b = elems)
    (hsum : front.number + target.number = total) :
    ∃ front' target', migrate hash b front target elems = some (front', target') ∧
      front'.Valid hash ∧ target'.Valid hash ∧ front'.elems.Perm (elems ++ front.elems) ∧
      target.elems.Perm (elems ++ target'.elems) := by
  induction elems generalizing front target with
  | nil => exact ⟨front, target, rfl, hfront, htarget, .refl _, .refl _⟩
  | cons e rest ih =>
      have hnumber := htarget.number_eq hb
      rw [hbucket, List.length_cons] at hnumber
      have hpush := push_valid hfront e (by omega)
      have hpop := pop_valid htarget hb hbucket (by omega)
      have hup : u8 (front.number + 1) = front.number + 1 := u8_of_lt (by omega)
      have hdown : u8Sub target.number 1 = target.number - 1 := u8Sub_of_le (by omega) (by omega)
      rw [hup] at hpush
      rw [hdown] at hpop
      rcases ih _ (target.store b rest (target.number - 1)) hb hpush hpop (TableT.store_bucket ..)
        (by rw [TableT.store_number, TableT.store_number]; omega) with
        ⟨front', target', hrun, hvalid, hvalid', hperm, hperm'⟩
      refine ⟨front', target', ?_, hvalid, hvalid', ?_, ?_⟩
      · rw [migrate, hfront.slot_eq, Option.bind_eq_bind, Option.bind_some, hup, hdown]
        exact hrun
      · calc
          List.Perm front'.elems (rest ++ _) := hperm
          List.Perm _ (rest ++ e :: front.elems) := (push_perm hfront e _).append_left rest
          List.Perm _ (e :: rest ++ front.elems) := List.perm_middle
      · calc
          List.Perm target.elems (target.bucket b ++ target.others b) := TableT.elems_perm hb
          List.Perm _ (e :: (rest ++ target.others b)) := by
            rw [hbucket]
            exact .refl _
          List.Perm _ (e :: (rest ++ target'.elems)) := by
            apply List.Perm.cons
            exact (TableT.store_elems_perm hb rest _).symm.trans hperm'

/-! ## The search -/

/-- What the loop over the chain returns: the first element with the key, or the fact that there is
none. -/
def SearchResult (hash : Bytes → ℕ) (key : Bytes) (tables : List TableT) : Option Hit → Prop
  | none => ∀ t ∈ tables, ∀ e ∈ t.elems, e.key ≠ key
  | some hit => tables = hit.pre ++ hit.target :: hit.post ∧
      hit.bucket = hash key % hit.target.size ∧ hit.elem ∈ hit.target.bucket hit.bucket ∧
      hit.elem.key = key

theorem searchTables_spec (hcmp : ∀ a b, cmp a b = 0 ↔ a = b) (key : Bytes) (tables : List TableT)
    (hvalid : ∀ t ∈ tables, t.Valid hash) :
    ∃ hit, searchTables cmp hash key tables = some hit ∧ SearchResult hash key tables hit := by
  induction tables with
  | nil => exact ⟨none, rfl, by simp [SearchResult]⟩
  | cons t ts ih =>
      have ht := hvalid t List.mem_cons_self
      rcases ih fun t' ht' ↦ hvalid t' (List.mem_cons_of_mem t ht') with ⟨hit, hrun, hspec⟩
      rw [searchTables, ht.slot_eq, Option.bind_eq_bind, Option.bind_some]
      cases hfind : (t.bucket (hash key % t.size)).find? fun e ↦ cmp e.key key = 0 with
      | some e =>
          have hkey : cmp e.key key = 0 := by simpa using List.find?_some hfind
          exact ⟨_, rfl, rfl, rfl, List.mem_of_find?_eq_some hfind, (hcmp _ _).mp hkey⟩
      | none =>
          rw [List.find?_eq_none] at hfind
          have hmiss : ∀ e ∈ t.elems, e.key ≠ key := by
            intro e he heq
            have hmem := ht.mem_bucket he
            rw [heq] at hmem
            exact hfind e hmem (by simpa using (hcmp e.key key).mpr heq)
          refine ⟨_, by rw [hrun]; rfl, ?_⟩
          cases hit with
          | none => exact List.forall_mem_cons.mpr ⟨hmiss, hspec⟩
          | some hit =>
              rcases hspec with ⟨htables, hbucket, hmem, hkey⟩
              exact ⟨by rw [htables]; rfl, hbucket, hmem, hkey⟩

/-- The chain after a migration holds the same elements over valid tables. -/
theorem relink_spec {front target : TableT} {mid post : List TableT} (hfront : front.Valid hash)
    (htarget : target.Valid hash) (hmid : ∀ t ∈ mid ++ post, t.Valid hash) :
    ∃ s', relink front mid target post = some s' ∧ s'.table = front ∧
      (∀ t ∈ s'.table :: s'.older, t.Valid hash) ∧
      s'.elems.Perm (front.elems ++ (target.elems ++ (mid ++ post).flatMap TableT.elems)) := by
  by_cases hempty : target.number = 0
  · have helems : target.elems = [] := by
      apply List.eq_nil_of_length_eq_zero
      rw [← htarget.number, hempty]
    refine ⟨⟨front, mid ++ post⟩, ?_, rfl, List.forall_mem_cons.mpr ⟨hfront, hmid⟩, ?_⟩
    · rw [relink, if_pos hempty, hashtableReleaseTable, if_pos htarget.slots]
      rfl
    · rw [helems]
      exact .refl _
  · refine ⟨⟨front, mid ++ target :: post⟩, if_neg hempty, rfl, ?_, ?_⟩
    · intro t ht
      have hperm : (front :: (mid ++ target :: post)).Perm (front :: target :: (mid ++ post)) :=
        List.perm_middle.cons front
      rcases List.mem_cons.mp (hperm.mem_iff.mp ht) with rfl | ht
      · exact hfront
      · exact List.forall_mem_cons.mpr ⟨htarget, hmid⟩ t ht
    · have hperm : (mid ++ target :: post).Perm (target :: (mid ++ post)) := List.perm_middle
      exact (hperm.flatMap_right TableT.elems).append_left front.elems

/-- A search for a key that is there brings its element to the front table. -/
structure Found (hash : Bytes → ℕ) (s s' : HashtableT) (key : Bytes) (e : HtElem) : Prop where
  inv : Inv hash s'
  perm : s'.elems.Perm s.elems
  mem : e ∈ s'.table.bucket (hash key % s'.table.size)
  key_eq : e.key = key

/-- The branch of the search that moves the bucket of `target` to the front. -/
theorem migration_spec (h : Inv hash s) {target : TableT} {mid post : List TableT}
    (holder : s.older = mid ++ target :: post) {key : Bytes} {e : HtElem}
    (hmem : e ∈ target.bucket (hash key % target.size)) (hkey : e.key = key) :
    ∃ front' target' s',
      migrate hash (hash key % target.size) s.table target
        (target.bucket (hash key % target.size)) = some (front', target') ∧
      relink front' mid target' post = some s' ∧ Found hash s s' key e := by
  have hvalid := h.tables
  rw [holder] at hvalid
  have hvfront := hvalid s.table List.mem_cons_self
  have hvtarget := hvalid target (by simp)
  have hvmid : ∀ t ∈ mid ++ post, t.Valid hash := by
    intro t ht
    apply hvalid t
    rcases List.mem_append.mp ht with hmem | hmem
    · simp [hmem]
    · simp [hmem]
  have hperm : s.elems.Perm
      (s.table.elems ++ (target.elems ++ (mid ++ post).flatMap TableT.elems)) := by
    rw [s.elems_eq, holder]
    exact (List.perm_middle.flatMap_right TableT.elems).append_left s.table.elems
  have hlength := hperm.length_eq
  rw [List.length_append, List.length_append, ← hvfront.number, ← hvtarget.number] at hlength
  have htotal := h.length_lt
  rcases migrate_spec (s.table.number + target.number) (by omega) _ s.table target
    (hvtarget.mod_lt (hash key)) hvfront hvtarget rfl rfl with
    ⟨front', target', hmigrate, hvfront', hvtarget', hpush, hpop⟩
  rcases relink_spec hvfront' hvtarget' hvmid with ⟨s', hrelink, htable, hvalid', hperm'⟩
  have hpair : (front'.elems ++ target'.elems).Perm (s.table.elems ++ target.elems) := by
    calc
      List.Perm (front'.elems ++ target'.elems) (_ ++ s.table.elems ++ target'.elems) :=
        hpush.append_right _
      List.Perm _ (s.table.elems ++ (_ ++ target'.elems)) := by
        rw [← List.append_assoc]
        exact List.perm_append_comm.append_right _
      List.Perm _ (s.table.elems ++ target.elems) := hpop.symm.append_left _
  have hsame : s'.elems.Perm s.elems := by
    refine hperm'.trans (.trans ?_ hperm.symm)
    rw [← List.append_assoc, ← List.append_assoc]
    exact hpair.append_right _
  refine ⟨front', target', s', hmigrate, hrelink, h.of_perm hsame hvalid', hsame, ?_, hkey⟩
  have hplace := hvfront'.mem_bucket (hpush.mem_iff.mpr (List.mem_append_left _ hmem))
  rw [hkey] at hplace
  rw [htable]
  exact hplace

theorem hashtableSearch_spec (hcmp : ∀ a b, cmp a b = 0 ↔ a = b) (h : Inv hash s) {key : Bytes}
    (hkey : key ≠ []) :
    ((∀ e ∈ s.elems, e.key ≠ key) ∧ hashtableSearch cmp hash s key = some (-2, none, s)) ∨
      ∃ e s', hashtableSearch cmp hash s key = some (0, some e, s') ∧ Found hash s s' key e := by
  rcases searchTables_spec hcmp key (s.table :: s.older) h.tables with ⟨hit, hrun, hspec⟩
  rw [hashtableSearch, if_neg hkey, hrun, Option.bind_eq_bind, Option.bind_some]
  rcases hit with _ | ⟨pre, target, post, b, e⟩
  · left
    refine ⟨?_, rfl⟩
    intro e he
    rcases List.mem_flatMap.mp he with ⟨t, ht, he⟩
    exact hspec t ht e he
  · right
    rcases hspec with ⟨htables, hb, hmem, hkey⟩
    simp only at htables hb hmem hkey
    subst hb
    cases pre with
    | nil =>
        rcases List.cons.inj htables with ⟨htable, -⟩
        exact ⟨e, s, rfl, h, .refl _, htable ▸ hmem, hkey⟩
    | cons front mid =>
        rcases List.cons.inj htables with ⟨rfl, holder⟩
        rcases migration_spec h holder hmem hkey with ⟨front', target', s', hmigrate, hrelink, hfound⟩
        refine ⟨e, s', ?_, hfound⟩
        simp only [hmigrate, Option.bind_eq_bind, Option.bind_some, hrelink]

end CPractice.Hashtable
