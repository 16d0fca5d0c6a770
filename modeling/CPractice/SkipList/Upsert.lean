import CPractice.SkipList.Values

/-!
# `skip_list_update` as an upsert

A new key is inserted as by `skip_list_insert`.  For a present key the new buffer of a larger value
has the length of the old one, and as many bytes are copied as the key has.  So the call stores the
value only where the key is no longer than the value, the value fits the old size and the buffer, and
the bytes from the length of the key on are there already.
-/

namespace CPractice.SkipList

open Lib

variable {κ : Type}

/-! ## Runs -/

inductive ValueCall (κ : Type) where
  | insert (key : κ) (value : Bytes) (draws : List ℕ) (alloc : Alloc)
  | update (key : κ) (value : Bytes) (draws : List ℕ) (alloc : Alloc)
  | erase (key : κ)
  | find (key : κ)

def valueCallOk (s : SkipListT κ ValueT) : ValueCall κ → Prop
  | .insert _ _ _ alloc => alloc.Fresh s
  | .update _ _ _ alloc => alloc.Fresh s
  | .erase _ => True
  | .find _ => True

instance (s : SkipListT κ ValueT) : (call : ValueCall κ) → Decidable (valueCallOk s call)
  | .insert _ _ _ alloc => inferInstanceAs (Decidable (alloc.Fresh s))
  | .update _ _ _ alloc => inferInstanceAs (Decidable (alloc.Fresh s))
  | .erase _ => isTrue trivial
  | .find _ => isTrue trivial

def valueExec (cmp : κ → κ → ℤ) (keySize : κ → ℕ) (s : SkipListT κ ValueT) :
    ValueCall κ → Option (Ret ValueT × SkipListT κ ValueT)
  | .insert key value draws alloc =>
      (insertArr cmp s key (.ofBytes value) draws alloc).map fun out ↦ (.code out.1, out.2)
  | .update key value draws alloc =>
      (skipListUpdate cmp keySize s key value draws alloc).map fun out ↦ (.code out.1, out.2)
  | .erase key => (skipListErase cmp s key).map fun s ↦ (.done, s)
  | .find key => (skipListFind cmp s key).map fun out ↦ (.found out.1 out.2, s)

/-- The runs from `skip_list_init`.  The entry of `update[]` that an erase reads above the list's level
is not used and does not end a run here. -/
def valueMachine (cmp : κ → κ → ℤ) (keySize : κ → ℕ) :
    Machine (SkipListT κ ValueT) (ValueCall κ) (Ret ValueT) where
  init s := ∃ tail header, tail ≠ 0 ∧ header ≠ 0 ∧ tail ≠ header ∧ s = skipListInit tail header
  ok := valueCallOk
  exec := valueExec cmp keySize

instance (cmp : κ → κ → ℤ) (keySize : κ → ℕ) (s : SkipListT κ ValueT) (call : ValueCall κ) :
    Decidable ((valueMachine cmp keySize).ok s call) :=
  inferInstanceAs (Decidable (valueCallOk s call))

/-! ## The copy -/

/-- The recorded size and the bytes of the buffer are those of the value. -/
def ValueT.Stores (stored : ValueT) (value : Bytes) : Prop :=
  stored.size = value.length ∧ stored.data.take value.length = value.map some

/-- An old value that the bytes of the key's length turn into the new one. -/
def UpdateFits (keySize : κ → ℕ) (key : κ) (value : Bytes) (old : ValueT) : Prop :=
  keySize key ≤ value.length ∧ value.length ≤ old.size ∧ value.length ≤ old.data.length ∧
    (old.data.take value.length).drop (keySize key) = (value.drop (keySize key)).map some

section Copy

variable {keySize : κ → ℕ} {key : κ} {value : Bytes} {alloc : Alloc}

/-- The bytes after the copy of a prefix. -/
theorem take_copied_eq_iff {room : List (Option UInt8)} {len : ℕ} (hlen : len ≤ value.length) :
    ((value.take len).map some ++ room.drop len).take value.length = value.map some ↔
      (room.take value.length).drop len = (value.drop len).map some := by
  have hsplit : value.map some = (value.take len).map some ++ (value.drop len).map some := by
    rw [← List.map_append, List.take_append_drop]
  have hcopied : ((value.take len).map some).length = len := by
    rw [List.length_map, List.length_take, Nat.min_eq_left hlen]
  rw [List.take_append, hcopied, List.take_of_length_le (hcopied.le.trans hlen), hsplit,
    List.append_cancel_left_eq, List.drop_take]

/-- The branch for a present key stores the value exactly on an old value that fits. -/
theorem overwriteBytes_stores_iff {old : ValueT} (hgranted : alloc.granted) :
    (∃ new, overwriteBytes keySize value alloc (key, old) = some (some new) ∧ new.Stores value) ↔
      UpdateFits keySize key value old := by
  have hvalue : ¬ (old.size < value.length ∧ alloc.value = false) := by
    rw [hgranted.2.2]
    simp
  simp only [overwriteBytes, if_neg hvalue]
  constructor
  · rintro ⟨new, hnew, -, hbytes⟩
    rcases Option.bind_eq_some_iff.mp hnew with ⟨data, hcopy, heq⟩
    cases heq
    rw [copyBytes] at hcopy
    split at hcopy
    case isFalse => cases hcopy
    case isTrue hlen =>
      cases hcopy
      have hlength : value.length ≤ (updateRoom old value).length := by
        have := congrArg List.length hbytes
        simp only [List.length_take, List.length_append, List.length_map, List.length_drop] at this
        omega
      -- A larger value would be cut off by its new buffer.
      have hsmall : ¬ old.size < value.length := by
        intro hlarge
        rw [updateRoom, if_pos hlarge, List.length_replicate] at hlength
        omega
      rw [updateRoom, if_neg hsmall] at hlength hbytes
      exact ⟨hlen.1, Nat.le_of_not_lt hsmall, hlength, (take_copied_eq_iff hlen.1).mp hbytes⟩
  · rintro ⟨hkey, hsize, hlength, hbytes⟩
    rw [updateRoom, if_neg (Nat.not_lt.mpr hsize), copyBytes, if_pos ⟨hkey, hkey.trans hlength⟩]
    exact ⟨_, rfl, rfl, (take_copied_eq_iff hkey).mpr hbytes⟩

end Copy

section Ordered

variable [LinearOrder κ] {cmp : κ → κ → ℤ} {keySize : κ → ℕ} {s s' : SkipListT κ ValueT}
  {bindings : κ → Option ValueT} {key : κ} {value : Bytes} {draws : List ℕ} {alloc : Alloc}

/-! ## Runs keep a map -/

/-- Every list reached holds some bindings. -/
theorem refines_trace (hcmp : TotalOrderCmp cmp) {log : List (ValueCall κ × Ret ValueT)}
    (htrace : (valueMachine cmp keySize).Trace s log) : ∃ bindings, Refines s bindings := by
  apply htrace.invariant (fun s ↦ ∃ bindings, Refines s bindings)
  · intro s hinit
    have hstart : (machine (ν := ValueT) cmp).init s := hinit
    exact ⟨_, refines_init hstart⟩
  · rintro s call r s' ⟨bindings, h⟩ hok hexec
    cases call with
    | insert key value draws alloc =>
        rcases Option.map_eq_some_iff.mp hexec with ⟨out, hout, heq⟩
        cases heq
        exact insertArr_keeps hcmp h hok hout
    | update key value draws alloc =>
        rcases Option.map_eq_some_iff.mp hexec with ⟨out, hout, heq⟩
        cases heq
        exact updateArr_keeps hcmp h hok hout
    | erase key =>
        rcases Option.map_eq_some_iff.mp hexec with ⟨out, hout, heq⟩
        cases heq
        rcases skipListErase_keeps hcmp h key with ⟨s₁, bindings', herase, h'⟩
        rw [herase] at hout
        cases hout
        exact ⟨bindings', h'⟩
    | find key =>
        rcases Option.map_eq_some_iff.mp hexec with ⟨out, -, heq⟩
        cases heq
        exact ⟨bindings, h⟩

/-! ## The upsert -/

/-- `skip_list_update` binds the key to the value, says whether the key was there and leaves the other
keys alone. -/
def Upserts (cmp : κ → κ → ℤ) (keySize : κ → ℕ) (s : SkipListT κ ValueT) (key : κ) (value : Bytes)
    (draws : List ℕ) (alloc : Alloc) : Prop :=
  ∃ found s' stored, skipListFind cmp s key = some found ∧
    skipListUpdate cmp keySize s key value draws alloc =
      some (if found.1 = 0 then 0 else 1, s') ∧
    skipListFind cmp s' key = some (0, some stored) ∧ stored.Stores value ∧
    ∀ other, other ≠ key → skipListFind cmp s' other = skipListFind cmp s other

/-- A list whose bindings changed at the key alone answers the same for other keys. -/
theorem find_other (hcmp : TotalOrderCmp cmp) (h : Refines s bindings) {new : ValueT}
    (h' : Refines s' (Function.update bindings key (some new))) {other : κ} (hother : other ≠ key) :
    skipListFind cmp s' other = skipListFind cmp s other := by
  rw [find_eq hcmp h', find_eq hcmp h, Function.update_of_ne hother]

theorem upserts_bound (hcmp : TotalOrderCmp cmp) (h : Refines s bindings) {old : ValueT}
    (hbound : bindings key = some old) (hgranted : alloc.granted) :
    Upserts cmp keySize s key value draws alloc ↔ UpdateFits keySize key value old := by
  have hfind : skipListFind cmp s key = some (0, some old) := by
    rw [find_eq hcmp h, hbound]
    rfl
  rcases updateArr_refines hcmp h hbound (overwriteBytes keySize value alloc) (.ofBytes value) draws
    alloc with ⟨hfault, hrefused, hstored⟩
  rw [← overwriteBytes_stores_iff hgranted]
  constructor
  · rintro ⟨found, s', stored, hfound, hupdate, hfind', hstores, -⟩
    rw [hfind] at hfound
    cases hfound
    cases hover : overwriteBytes keySize value alloc (key, old) with
    | none =>
        rw [skipListUpdate, hfault hover] at hupdate
        cases hupdate
    | some written =>
        cases written with
        | none =>
            rw [skipListUpdate, hrefused hover] at hupdate
            cases hupdate
        | some new =>
            rcases hstored new hover with ⟨s₁, hupdate₁, hrefines⟩
            rw [skipListUpdate, hupdate₁] at hupdate
            cases hupdate
            rw [find_eq hcmp hrefines, Function.update_self] at hfind'
            cases hfind'
            exact ⟨_, rfl, hstores⟩
  · rintro ⟨new, hover, hstores⟩
    rcases hstored new hover with ⟨s', hupdate, hrefines⟩
    refine ⟨_, s', new, hfind, hupdate, ?_, hstores, fun other ↦ find_other hcmp h hrefines⟩
    rw [find_eq hcmp hrefines, Function.update_self]
    rfl

theorem upserts_unbound (hcmp : TotalOrderCmp cmp) (h : Refines s bindings)
    (hnone : bindings key = none) (hfresh : alloc.Fresh s) (hgranted : alloc.granted) :
    Upserts cmp keySize s key value draws alloc ↔ DrawsFit s draws := by
  have hfind : skipListFind cmp s key = some (-2, none) := by
    rw [find_eq hcmp h, hnone]
    rfl
  rcases unbound_refines hcmp h hnone hfresh draws (.ofBytes value) with
    ⟨add, -, hupdate, hfits, hmisfit⟩
  constructor
  · rintro ⟨found, s', stored, -, hupdated, -⟩
    by_contra hdraws
    rw [skipListUpdate, hupdate, hmisfit hdraws] at hupdated
    cases hupdated
  · intro hdraws
    rcases hfits hdraws 1 with ⟨s', hadd, hrefines⟩
    rw [if_pos hgranted] at hadd hrefines
    refine ⟨_, s', .ofBytes value, hfind, (hupdate _).trans hadd, ?_, ?_,
      fun other ↦ find_other hcmp h hrefines⟩
    · rw [find_eq hcmp hrefines, Function.update_self]
      rfl
    · refine ⟨rfl, ?_⟩
      rw [ValueT.ofBytes]
      exact List.take_of_length_le (List.length_map _).le

/-- `skip_list_update` is an upsert exactly where the old value fits, and for a new key where its level
finds its place in `update[]`. -/
theorem update_upserts_iff (hcmp : TotalOrderCmp cmp) {log : List (ValueCall κ × Ret ValueT)}
    (htrace : (valueMachine cmp keySize).Trace s log) (hfresh : alloc.Fresh s)
    (hgranted : alloc.granted) :
    Upserts cmp keySize s key value draws alloc ↔
      (∀ old, skipListFind cmp s key = some (0, some old) → UpdateFits keySize key value old) ∧
      (skipListFind cmp s key = some (-2, none) → DrawsFit s draws) := by
  rcases refines_trace hcmp htrace with ⟨bindings, h⟩
  rw [find_eq hcmp h]
  cases hbinding : bindings key with
  | some old =>
      rw [upserts_bound hcmp h hbinding hgranted]
      constructor
      · intro hold
        constructor
        · intro old' hanswer
          simp only [answer, Option.some.injEq, Prod.mk.injEq, true_and] at hanswer
          rwa [← hanswer]
        · intro hanswer
          cases hanswer
      · rintro ⟨hold, -⟩
        exact hold old rfl
  | none =>
      rw [upserts_unbound hcmp h hbinding hfresh hgranted]
      constructor
      · intro hdraws
        refine ⟨?_, fun _ ↦ hdraws⟩
        intro old hanswer
        cases hanswer
      · rintro ⟨-, hdraws⟩
        exact hdraws rfl

end Ordered

/-! ## A value that grows -/

/-- Keys of one byte, the key `0` bound to a value of two bytes. -/
def pairCalls : List (ValueCall ℕ) := [.insert 0 [7, 9] [65535] ⟨3, true, true⟩]

theorem pairCalls_run :
    ((valueMachine numCmp fun _ ↦ 1).execAll (skipListInit 1 2) pairCalls).isSome := by decide

/-- The list after the insert. -/
def pairList : SkipListT ℕ ValueT :=
  (((valueMachine numCmp fun _ ↦ 1).execAll (skipListInit 1 2) pairCalls).get pairCalls_run).2

theorem pairList_trace : ∃ log, (valueMachine numCmp fun _ ↦ 1).Trace pairList log := by
  have hinit : (valueMachine numCmp fun _ ↦ 1).init (skipListInit 1 2) :=
    ⟨1, 2, by decide, by decide, by decide, rfl⟩
  exact ⟨_, Machine.trace_execAll hinit (by decide) (Option.some_get pairCalls_run).symm⟩

/-- A change of the first byte is stored. -/
theorem update_upserts_iff_pair :
    Upserts numCmp (fun _ ↦ 1) pairList 0 [8, 9] [65535] ⟨4, true, true⟩ := by
  rcases pairList_trace with ⟨log, htrace⟩
  refine (update_upserts_iff numCmp_total htrace (by decide) (by decide)).mpr ⟨?_, ?_⟩
  · intro old hfind
    have hpair : skipListFind numCmp pairList 0 = some (0, some ⟨2, [some 7, some 9]⟩) := by decide
    rw [hpair] at hfind
    cases hfind
    exact ⟨by decide, by decide, by decide, by decide⟩
  · intro hfind
    exact absurd hfind (by decide)

/-- A value of three bytes is not: its buffer has two. -/
theorem update_grown_lost :
    (∃ log, (valueMachine numCmp fun _ ↦ 1).Trace pairList log) ∧
      ¬ Upserts numCmp (fun _ ↦ 1) pairList 0 [8, 9, 5] [65535] ⟨4, true, true⟩ := by
  refine ⟨pairList_trace, ?_⟩
  rintro ⟨found, s', stored, -, hupdate, hfind, hstores⟩
  have hcut : (skipListUpdate numCmp (fun _ ↦ 1) pairList 0 [8, 9, 5] [65535] ⟨4, true, true⟩).bind
      (fun out ↦ skipListFind numCmp out.2 0) = some (0, some ⟨3, [some 8, none]⟩) := by decide
  rw [hupdate, Option.bind_some, hfind] at hcut
  cases hcut
  exact absurd hstores.1.2 (by decide)

end CPractice.SkipList
