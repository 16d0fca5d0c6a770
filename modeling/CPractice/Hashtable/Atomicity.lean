import CPractice.Hashtable.Refinement

/-!
# Updates when memory is short

Here every allocation may fail.  An update of a present key either stores the new value or leaves the
old one, with two exceptions: when `REALLOC` fails and `ALLOC` does not, the source has overwritten
its pointer to the old element with `nil` and reads through it, and when the new byte count wraps on
`u4`, the value is copied past the end of the reallocated element.
-/

namespace CPractice.Hashtable

open Hash Lib Math

variable {cmp : Bytes → Bytes → ℤ} {hash : Bytes → ℕ} {s : HashtableT} {e : HtElem}
  {key value old : Bytes} {bindings : Bytes → Option Bytes} {moved alloc : Option ℕ}

/-! ## The outcomes of an update -/

/-- The update stays away from the two defects. -/
def UpdateFits (old key value : Bytes) (moved alloc : Option ℕ) : Prop :=
  value = [] ∨ value.length < old.length ∨
    match moved with
    | some _ => elemSize + key.length + value.length < 4294967296
    | none => alloc = none

/-- The chains have the same keys in the same order. -/
structure SameChains (s s' : HashtableT) : Prop where
  size : s'.table.size = s.table.size
  number : s'.table.number = s.table.number
  bucket : ∀ b, (s'.table.bucket b).map HtElem.key = (s.table.bucket b).map HtElem.key
  older : s'.older = s.older

theorem SameChains.refl (s : HashtableT) : SameChains s s := ⟨rfl, rfl, fun _ ↦ rfl, rfl⟩

/-- The element that an update stores, when it stores one. -/
theorem updateElem_cases (alloc : Option ℕ) (he : e.Valid) (hkey : e.key = key)
    (hvalue : value ≠ []) (hmoved : ∀ addr ∈ moved, 0 < addr ∧ addr < 18446744073709551616) :
    (¬ UpdateFits e.value key value moved alloc ∧ updateElem e key value moved alloc = none) ∨
    (UpdateFits e.value key value moved alloc ∧ updateElem e key value moved alloc = some none) ∨
    ∃ e', UpdateFits e.value key value moved alloc ∧
      updateElem e key value moved alloc = some (some e') ∧ e'.Valid ∧ e'.key = key ∧
      e'.value = value ∧ (e'.addr = e.addr ∨ e'.addr ∈ moved) := by
  by_cases hshort : value.length < e.value.length
  · have hcap : elemSize + e.key.length + value.length ≤ e.cap := by
      have hroom := he.fits
      omega
    refine .inr (.inr ⟨{ e with value := value }, .inr (.inl hshort), ?_,
      ⟨he.key_ne, hcap, he.addr_pos, he.addr_lt⟩, hkey, rfl, .inl rfl⟩)
    unfold updateElem
    rw [if_pos hshort, HtElem.setValue, if_pos hcap]
    rfl
  · have hlong : e.value.length ≤ value.length := Nat.le_of_not_lt hshort
    cases moved with
    | none =>
        cases alloc with
        | none =>
            refine .inr (.inl ⟨.inr (.inr rfl), ?_⟩)
            rw [updateElem, if_neg hshort]
        | some addr =>
            refine .inl ⟨?_, ?_⟩
            · rintro (hempty | hless | hnone)
              · exact hvalue hempty
              · exact hshort hless
              · cases hnone
            · rw [updateElem, if_neg hshort]
    | some addr =>
        by_cases hfits : elemSize + key.length + value.length < 4294967296
        · rcases hmoved addr rfl with ⟨hpos, hlt⟩
          rcases updateElem_spec he hkey hpos hlt alloc fun _ ↦ hfits with
            ⟨e', hupdate, hvalid, hkey', hvalue', haddr⟩
          refine .inr (.inr ⟨e', .inr (.inr hfits), hupdate, hvalid, hkey', hvalue', ?_⟩)
          rcases haddr with hsame | hnew
          · exact .inl hsame
          · exact .inr (congrArg some hnew.symm)
        · refine .inl ⟨?_, updateElem_faults hkey hlong (Nat.le_of_not_lt hfits) addr alloc⟩
          rintro (hempty | hless | hroom)
          · exact hvalue hempty
          · exact hshort hless
          · exact hfits hroom

/-- What an update of a present key with a legal value does: it faults, or it leaves the table as the
search for the key leaves it, or it exchanges the value there. -/
theorem hashtableUpdate_cases (alloc : Option ℕ) (hcmp : ∀ a b, cmp a b = 0 ↔ a = b)
    (h : Refines hash s bindings) (hbound : bindings key = some old) (hvalue : value ≠ [])
    (hmoved : ∀ addr ∈ moved, freshFor s (fun k ↦ k = key) addr) :
    ∃ s₁, hashtableFind cmp hash s key = some (0, some old, s₁) ∧ Refines hash s₁ bindings ∧
      s₁.elems.Perm s.elems ∧
      ((¬ UpdateFits old key value moved alloc ∧
          hashtableUpdate cmp hash s key value moved alloc = none) ∨
        (UpdateFits old key value moved alloc ∧
          hashtableUpdate cmp hash s key value moved alloc = some (-2, s₁)) ∨
        ∃ s', UpdateFits old key value moved alloc ∧
          hashtableUpdate cmp hash s key value moved alloc = some (0, s') ∧
          Refines hash s' (Function.update bindings key (some value)) ∧ SameChains s₁ s') := by
  have hkey : key ≠ [] := by
    rintro rfl
    rw [h.empty_unbound] at hbound
    cases hbound
  rcases hashtableSearch_spec hcmp h.1 hkey with ⟨hmiss, -⟩ | ⟨e, s₁, hsearch, hfound⟩
  · rw [h.2.none_iff.mpr hmiss] at hbound
    cases hbound
  · have hold : e.value = old := by
      rw [hfound.binding h, Option.some_inj] at hbound
      exact hbound
    have h₁ := h.of_perm hfound.inv hfound.perm
    rcases hfound.inv.split (hfound.inv.mod_lt (hash key)) hfound.mem with ⟨before, after, hsplit⟩
    have hmem : e ∈ s₁.elems := hsplit.perm.mem_iff.mpr List.mem_cons_self
    have hreach := reaches_elem (e := e) before after
    rw [← hsplit.bucket_eq] at hreach
    have hfind : hashtableFind cmp hash s key = some (0, some old, s₁) := by
      rw [hashtableFind, hsearch, ← hold]
      rfl
    have hrun : hashtableUpdate cmp hash s key value moved alloc =
        (updateElem e key value moved alloc).bind fun updated ↦
          updated.elim (some (-2, s₁)) fun elem' ↦
            some (0, ⟨s₁.table.store (hash key % s₁.table.size)
              (replaceElem e.addr elem' (s₁.table.bucket (hash key % s₁.table.size)))
              s₁.table.number, s₁.older⟩) := by
      simp only [hashtableUpdate, if_neg (not_or.mpr ⟨hkey, hvalue⟩), hsearch, hfound.inv.slot_eq,
        Option.bind_eq_bind, Option.bind_some, if_pos hreach, if_true]
      congr 1
      funext updated
      cases updated with
      | none => rfl
      | some elem' => rfl
    refine ⟨s₁, hfind, h₁, hfound.perm, ?_⟩
    rw [hrun, ← hold]
    rcases updateElem_cases alloc (hfound.inv.valid e hmem) hfound.key_eq hvalue
      (fun addr haddr ↦ ⟨(hmoved addr haddr).1, (hmoved addr haddr).2.1⟩) with
      ⟨hnot, hnone⟩ | ⟨hfits, hrefused⟩ | ⟨e', hfits, hsome, hvalid, hkey', hvalue', haddr⟩
    · exact .inl ⟨hnot, by rw [hnone]; rfl⟩
    · exact .inr (.inl ⟨hfits, by rw [hrefused]; rfl⟩)
    · have hother : ∀ x ∈ before ++ after ++ s₁.others (hash key % s₁.table.size),
          x.addr ≠ e'.addr := by
        intro x hx heq
        have hxmem : x ∈ s₁.elems := hsplit.perm.mem_iff.mpr (List.mem_cons_of_mem e hx)
        have hxkey := hsplit.keys x hx
        rcases haddr with hsame | hnew
        · have hxe := hfound.inv.addr_unique hxmem hmem (heq.trans hsame)
          exact hxkey (by rw [hxe])
        · rw [hfound.key_eq] at hxkey
          exact (hmoved _ hnew).2.2 x (hfound.perm.mem_iff.mp hxmem) hxkey heq
      have hrefines := hsplit.update_refines h₁ hvalid (hkey'.trans hfound.key_eq.symm) hother
      rw [hfound.key_eq, hvalue'] at hrefines
      refine .inr (.inr ⟨_, hfits, by rw [hsome]; rfl, ?_, ?_⟩)
      · rw [hsplit.replaceElem_eq]
        exact hrefines
      · refine ⟨rfl, rfl, ?_, rfl⟩
        intro b
        by_cases hb : b = hash key % s₁.table.size
        · rw [hb, TableT.store_bucket, hsplit.replaceElem_eq, hsplit.bucket_eq, List.map_append,
            List.map_append, List.map_cons, List.map_cons, hkey', hfound.key_eq]
        · rw [TableT.store_bucket_of_ne hb]

/-! ## Runs with failing allocations -/

/-- What the environment promises: sizes are `u4`, and an allocation that succeeds is fresh. -/
def failingOk (s : HashtableT) : Call → Prop
  | .insert key value _ alloc =>
      key.length < 4294967296 ∧ value.length < 4294967296 ∧
        ∀ addr ∈ alloc, freshFor s (fun _ ↦ False) addr
  | .find key => key.length < 4294967296
  | .erase key => key.length < 4294967296
  | .update key value moved alloc =>
      key.length < 4294967296 ∧ value.length < 4294967296 ∧
        (∀ addr ∈ moved, freshFor s (fun k ↦ k = key) addr) ∧
        ∀ addr ∈ alloc, freshFor s (fun _ ↦ False) addr
  | .size => True

/-- The byte length of a table that the call allocates does not wrap. -/
def tablesFit (s : HashtableT) : Call → Prop
  | .insert _ _ granted _ =>
      granted = true → maxBucketSize < s.table.number / s.table.size →
        ∀ size ∈ grownSize s.table.size, TableFits size
  | _ => True

/-- The hash table under every outcome of its allocations. -/
def failingMachine (cmp : Bytes → Bytes → ℤ) (hash : Bytes → ℕ) :
    Machine HashtableT Call Ret where
  init s := ∃ size, 0 < size ∧ size < 18446744073709551616 ∧ hashtableInit size = some s ∧
    TableFits size
  ok s call := failingOk s call ∧ tablesFit s call
  exec := callExec cmp hash

/-- A table that could not be allocated leaves the chain as it is. -/
theorem expandIfCrowded_refused {s s' : HashtableT} (h : expandIfCrowded s false = some s') :
    s' = s := by
  unfold expandIfCrowded at h
  split at h
  · rcases Option.map_eq_some_iff.mp h with ⟨⟨ret, s₁⟩, hexpand, rfl⟩
    unfold hashtableExpand at hexpand
    split at hexpand
    · cases hexpand
      rfl
    · rcases Option.bind_eq_some_iff.mp hexpand with ⟨prime, -, hrest⟩
      split at hrest
      · cases hrest
        rfl
      · cases hrest
        rfl
  · cases h
    rfl

theorem expandIfCrowded_keeps {s' : HashtableT} {granted : Bool} (h : Refines hash s bindings)
    (hfits : tablesFit s (.insert key value granted alloc))
    (hexpand : expandIfCrowded s granted = some s') :
    Refines hash s' bindings ∧ s'.elems.Perm s.elems := by
  cases granted with
  | false =>
      rw [expandIfCrowded_refused hexpand]
      exact ⟨h, .refl _⟩
  | true =>
      rcases expandIfCrowded_spec h.1 (hfits rfl) with ⟨s₁, hrun, hinv, hperm⟩
      obtain rfl : s₁ = s' := Option.some.inj (hrun.symm.trans hexpand)
      exact ⟨h.of_perm hinv hperm, hperm⟩

theorem insert_keeps (hcmp : ∀ a b, cmp a b = 0 ↔ a = b) (h : Refines hash s bindings)
    {granted : Bool} (hok : failingOk s (.insert key value granted alloc))
    (hfits : tablesFit s (.insert key value granted alloc)) {ret : ℤ} {s' : HashtableT}
    (hexec : hashtableInsert cmp hash s key value granted alloc = some (ret, s')) :
    ∃ bindings', Refines hash s' bindings' := by
  rcases hok with ⟨-, -, hfresh⟩
  unfold hashtableInsert at hexec
  split at hexec
  · cases hexec
    exact ⟨bindings, h⟩
  · rename_i hguard
    have hkey : key ≠ [] := fun hnil ↦ hguard (.inl hnil)
    rcases Option.bind_eq_some_iff.mp hexec with ⟨s₁, hexpand, hrest⟩
    rcases expandIfCrowded_keeps h hfits hexpand with ⟨h₁, hperm⟩
    rcases hashtableSearch_spec hcmp h₁.1 hkey with ⟨hmiss, hsearch⟩ | ⟨e, s₂, hsearch, hfound⟩
    · rw [hsearch, Option.bind_eq_bind, Option.bind_some] at hrest
      cases alloc with
      | none =>
          cases hrest
          exact ⟨bindings, h₁⟩
      | some addr =>
          rcases hfresh addr rfl with ⟨hpos, hlt, hapart⟩
          have hset : HtElem.setValue ⟨addr, elemSize + key.length + value.length, key, []⟩ value =
              some ⟨addr, elemSize + key.length + value.length, key, value⟩ := if_pos le_rfl
          simp only [hset, h₁.1.slot_eq, Option.bind_eq_bind, Option.bind_some] at hrest
          cases hrest
          exact ⟨_, h₁.push (e := ⟨addr, elemSize + key.length + value.length, key, value⟩)
            ⟨hkey, le_rfl, hpos, hlt⟩ hmiss fun x hx ↦ hapart x (hperm.mem_iff.mp hx) id⟩
    · rw [hsearch, Option.bind_eq_bind, Option.bind_some] at hrest
      cases hrest
      exact ⟨bindings, h₁.of_perm hfound.inv hfound.perm⟩

theorem update_keeps (hcmp : ∀ a b, cmp a b = 0 ↔ a = b) (h : Refines hash s bindings)
    (hok : failingOk s (.update key value moved alloc)) {ret : ℤ} {s' : HashtableT}
    (hexec : hashtableUpdate cmp hash s key value moved alloc = some (ret, s')) :
    ∃ bindings', Refines hash s' bindings' := by
  by_cases hillegal : key = [] ∨ value = []
  · rw [hashtableUpdate, if_pos hillegal] at hexec
    cases hexec
    exact ⟨bindings, h⟩
  · rcases not_or.mp hillegal with ⟨hkey, hvalue⟩
    cases hbound : bindings key with
    | none =>
        rcases hashtableSearch_spec hcmp h.1 hkey with ⟨-, hsearch⟩ | ⟨e, s₁, -, hfound⟩
        · rw [hashtableUpdate, if_neg hillegal, hsearch] at hexec
          cases hexec
          exact ⟨bindings, h⟩
        · rw [hfound.binding h] at hbound
          cases hbound
    | some old =>
        rcases hashtableUpdate_cases alloc hcmp h hbound hvalue hok.2.2.1 with
          ⟨s₁, -, h₁, -, ⟨-, hnone⟩ | ⟨-, hrefused⟩ | ⟨s₂, -, hsome, h₂, -⟩⟩
        · rw [hnone] at hexec
          cases hexec
        · rw [hrefused] at hexec
          cases hexec
          exact ⟨bindings, h₁⟩
        · rw [hsome] at hexec
          cases hexec
          exact ⟨_, h₂⟩

/-- Every state of a run holds some bindings. -/
theorem failingMachine_refines (hcmp : ∀ a b, cmp a b = 0 ↔ a = b) {log : List (Call × Ret)}
    (htrace : (failingMachine cmp hash).Trace s log) : ∃ bindings, Refines hash s bindings := by
  apply htrace.invariant fun s ↦ ∃ bindings, Refines hash s bindings
  · rintro s ⟨size, -, -, hinit, hfits⟩
    exact ⟨_, refines_init hfits hinit⟩
  · rintro s call ret s' ⟨bindings, h⟩ ⟨hok, hfits⟩ hexec
    cases call with
    | insert key value granted alloc =>
        rcases Option.map_eq_some_iff.mp hexec with ⟨⟨code, s₁⟩, hrun, hout⟩
        cases hout
        exact insert_keeps hcmp h hok hfits hrun
    | find key =>
        rcases find_simulated hcmp h key with ⟨s₁, hrun, h₁⟩
        rw [show callExec cmp hash s (.find key) = some (ret, s') from hexec] at hrun
        cases hrun
        exact ⟨_, h₁⟩
    | erase key =>
        rcases erase_simulated hcmp h key with ⟨s₁, hrun, h₁⟩
        rw [show callExec cmp hash s (.erase key) = some (ret, s') from hexec] at hrun
        cases hrun
        exact ⟨_, h₁⟩
    | update key value moved alloc =>
        rcases Option.map_eq_some_iff.mp hexec with ⟨⟨code, s₁⟩, hrun, hout⟩
        cases hout
        exact update_keeps hcmp h hok hrun
    | size =>
        cases hexec
        exact ⟨bindings, h⟩

/-! ## Atomicity -/

/-- The code and the value that `hashtable_find` returns. -/
def lookup (cmp : Bytes → Bytes → ℤ) (hash : Bytes → ℕ) (s : HashtableT) (key : Bytes) :
    Option (ℤ × Option Bytes) :=
  (hashtableFind cmp hash s key).map fun out ↦ (out.1, out.2.1)

/-- The update of a key that is bound to `old` does not fault; it returns `0` and the key has the new
value, or another code and it has the old one; every other key is found as before, the chains keep
their keys, up to the move that every search for the key makes, and so does the size. -/
def UpdateAtomic (cmp : Bytes → Bytes → ℤ) (hash : Bytes → ℕ) (s : HashtableT)
    (key old value : Bytes) (moved alloc : Option ℕ) : Prop :=
  ∃ ret s₁ s', hashtableFind cmp hash s key = some (0, some old, s₁) ∧
    hashtableUpdate cmp hash s key value moved alloc = some (ret, s') ∧
    lookup cmp hash s' key = some (0, some (if ret = 0 then value else old)) ∧
    (∀ other, other ≠ key → lookup cmp hash s' other = lookup cmp hash s other) ∧
    (SameChains s s' ∨ SameChains s₁ s') ∧ hashtableSize s' = hashtableSize s

theorem lookup_eq (hcmp : ∀ a b, cmp a b = 0 ↔ a = b) (h : Refines hash s bindings) (key : Bytes) :
    lookup cmp hash s key = some (if bindings key = none then -2 else 0, bindings key) := by
  rcases find_simulated hcmp h key with ⟨s', hrun, -⟩
  rcases Option.map_eq_some_iff.mp hrun with ⟨⟨ret, found, s₁⟩, hfind, hout⟩
  rw [lookup, hfind]
  cases hout
  rfl

/-- `hashtable_size` counts the bound keys on `u4`. -/
theorem hashtableSize_eq (h : Refines hash s bindings) :
    hashtableSize s = u4 {key | bindings key ≠ none}.ncard := by
  have hfold (tables : List TableT) (hvalid : ∀ t ∈ tables, t.Valid hash) (total : ℕ) :
      tables.foldl (fun htSize t ↦ u4 (htSize + t.number)) (u4 total) =
        u4 (total + (tables.flatMap TableT.elems).length) := by
    induction tables generalizing total with
    | nil => rfl
    | cons t tables ih =>
        rcases List.forall_mem_cons.mp hvalid with ⟨ht, hrest⟩
        have hstep : u4 (u4 total + t.number) = u4 (total + t.elems.length) := by
          rw [ht.number]
          unfold u4
          omega
        rw [List.foldl_cons, hstep, ih hrest, List.flatMap_cons, List.length_append, Nat.add_assoc]
  have hsize := hfold (s.table :: s.older) h.1.tables 0
  rw [Nat.zero_add, u4_of_lt (by decide)] at hsize
  rw [h.2.ncard h.1.keys]
  exact hsize

/-- For every run with any outcomes of its allocations and every present key: the update is atomic
exactly when the value got shorter, or `REALLOC` succeeds and the byte count does not wrap, or
`REALLOC` and `ALLOC` both fail. -/
theorem hashtable_update_atomic_iff (hcmp : ∀ a b, cmp a b = 0 ↔ a = b) {log : List (Call × Ret)}
    (htrace : (failingMachine cmp hash).Trace s log) {s₁ : HashtableT}
    (hpresent : hashtableFind cmp hash s key = some (0, some old, s₁))
    (hok : failingOk s (.update key value moved alloc)) :
    UpdateAtomic cmp hash s key old value moved alloc ↔ UpdateFits old key value moved alloc := by
  rcases failingMachine_refines hcmp htrace with ⟨bindings, h⟩
  have hbound : bindings key = some old := by
    have hlookup := lookup_eq hcmp h key
    rw [lookup, hpresent] at hlookup
    exact (congrArg Prod.snd (Option.some.inj hlookup)).symm
  by_cases hempty : value = []
  · -- an illegal value is refused before the search
    refine ⟨fun _ ↦ .inl hempty, fun _ ↦ ⟨-1, s₁, s, hpresent, ?_, ?_, fun _ _ ↦ rfl,
      .inl (SameChains.refl s), rfl⟩⟩
    · rw [hashtableUpdate, if_pos (.inr hempty)]
    · rw [lookup, hpresent, if_neg (by decide)]
      rfl
  · rcases hashtableUpdate_cases alloc hcmp h hbound hempty hok.2.2.1 with
      ⟨s₂, hfind, h₂, -, ⟨hnot, hnone⟩ | ⟨hfits, hrefused⟩ | ⟨s', hfits, hsome, h', hchains⟩⟩
    · refine ⟨?_, fun hfits ↦ absurd hfits hnot⟩
      rintro ⟨ret, s₁, s', -, hrun, -⟩
      rw [hnone] at hrun
      cases hrun
    · refine ⟨fun _ ↦ hfits, fun _ ↦ ⟨-2, s₂, s₂, hfind, hrefused, ?_, ?_,
        .inr (SameChains.refl s₂), ?_⟩⟩
      · rw [lookup_eq hcmp h₂, hbound]
        rfl
      · intro other _
        rw [lookup_eq hcmp h₂, lookup_eq hcmp h]
      · rw [hashtableSize_eq h₂, hashtableSize_eq h]
    · refine ⟨fun _ ↦ hfits, fun _ ↦ ⟨0, s₂, s', hfind, hsome, ?_, ?_, .inr hchains, ?_⟩⟩
      · rw [lookup_eq hcmp h', Function.update_self]
        rfl
      · intro other hne
        rw [lookup_eq hcmp h', lookup_eq hcmp h, Function.update_of_ne hne]
      · have hkeys : {k | Function.update bindings key (some value) k ≠ none} =
            {k | bindings k ≠ none} := by
          ext k
          by_cases hk : k = key
          · simp [hk, hbound]
          · simp [Function.update_of_ne hk]
        rw [hashtableSize_eq h', hashtableSize_eq h, hkeys]

instance (s : HashtableT) : (call : Call) → Decidable (failingOk s call)
  | .insert _ _ _ _ => inferInstanceAs (Decidable (_ ∧ _ ∧ ∀ _ ∈ _, freshFor _ _ _))
  | .find _ => inferInstanceAs (Decidable (_ < _))
  | .erase _ => inferInstanceAs (Decidable (_ < _))
  | .update _ _ _ _ =>
      inferInstanceAs (Decidable (_ ∧ _ ∧ (∀ _ ∈ _, freshFor _ _ _) ∧ ∀ _ ∈ _, freshFor _ _ _))
  | .size => inferInstanceAs (Decidable True)

instance (s : HashtableT) : (call : Call) → Decidable (tablesFit s call)
  | .insert _ _ _ _ => inferInstanceAs (Decidable (_ → _ → ∀ _ ∈ _, TableFits _))
  | .find _ => inferInstanceAs (Decidable True)
  | .erase _ => inferInstanceAs (Decidable True)
  | .update _ _ _ _ => inferInstanceAs (Decidable True)
  | .size => inferInstanceAs (Decidable True)

instance (s : HashtableT) (call : Call) :
    Decidable ((failingMachine bytesCmp bkdr64).ok s call) :=
  inferInstanceAs (Decidable (_ ∧ _))

/-- One key bound, another refused for want of memory. -/
def shortCalls : List Call :=
  [.insert [1] [7] true (some 100), .insert [2] [8] false none]

theorem shortCalls_run : ((failingMachine bytesCmp bkdr64).execAll
    ((hashtableInit 3).get init_runs) shortCalls).isSome := by with_unfolding_all decide

theorem shortCalls_trace : (failingMachine bytesCmp bkdr64).Trace
    (((failingMachine bytesCmp bkdr64).execAll ((hashtableInit 3).get init_runs) shortCalls).get
      shortCalls_run).2
    (((failingMachine bytesCmp bkdr64).execAll ((hashtableInit 3).get init_runs) shortCalls).get
      shortCalls_run).1 := by
  have hinit : (failingMachine bytesCmp bkdr64).init ((hashtableInit 3).get init_runs) :=
    ⟨3, by decide, by decide, (Option.some_get init_runs).symm, tableFits_of_lt (by decide)⟩
  exact Machine.trace_execAll hinit (by with_unfolding_all decide) (Option.some_get shortCalls_run).symm

theorem hashtable_update_atomic_refused :
    ∃ s log s₁, (failingMachine bytesCmp bkdr64).Trace s log ∧
      hashtableFind bytesCmp bkdr64 s [1] = some (0, some [7], s₁) ∧
      UpdateAtomic bytesCmp bkdr64 s [1] [7] [7, 8] none none := by
  have hfind : (hashtableFind bytesCmp bkdr64 (((failingMachine bytesCmp bkdr64).execAll
      ((hashtableInit 3).get init_runs) shortCalls).get shortCalls_run).2 [1]).map
        (fun out ↦ (out.1, out.2.1)) = some (0, some [7]) := by with_unfolding_all decide
  rcases Option.map_eq_some_iff.mp hfind with ⟨⟨ret, found, s₁⟩, hrun, hout⟩
  cases hout
  exact ⟨_, _, s₁, shortCalls_trace, hrun,
    (hashtable_update_atomic_iff bytesCmp_zero_iff shortCalls_trace hrun (by decide)).mpr
      (.inr (.inr rfl))⟩

/-- A longer value for a present key while `REALLOC` fails and `ALLOC` does not. -/
theorem hashtable_update_not_atomic :
    ∃ s log s₁, (failingMachine bytesCmp bkdr64).Trace s log ∧
      hashtableFind bytesCmp bkdr64 s [1] = some (0, some [7], s₁) ∧
      failingOk s (.update [1] [7, 8] none (some 200)) ∧
      hashtableUpdate bytesCmp bkdr64 s [1] [7, 8] none (some 200) = none ∧
      ¬ UpdateAtomic bytesCmp bkdr64 s [1] [7] [7, 8] none (some 200) := by
  have hfind : (hashtableFind bytesCmp bkdr64 (((failingMachine bytesCmp bkdr64).execAll
      ((hashtableInit 3).get init_runs) shortCalls).get shortCalls_run).2 [1]).map
        (fun out ↦ (out.1, out.2.1)) = some (0, some [7]) := by with_unfolding_all decide
  have hfault : (hashtableUpdate bytesCmp bkdr64 (((failingMachine bytesCmp bkdr64).execAll
      ((hashtableInit 3).get init_runs) shortCalls).get shortCalls_run).2 [1] [7, 8] none
        (some 200)).isNone := by with_unfolding_all decide
  rcases Option.map_eq_some_iff.mp hfind with ⟨⟨ret, found, s₁⟩, hrun, hout⟩
  cases hout
  refine ⟨_, _, s₁, shortCalls_trace, hrun, by with_unfolding_all decide, Option.isNone_iff_eq_none.mp hfault,
    ?_⟩
  rintro ⟨ret, s₂, s', -, hupdate, -⟩
  rw [Option.isNone_iff_eq_none.mp hfault] at hupdate
  cases hupdate

end CPractice.Hashtable
