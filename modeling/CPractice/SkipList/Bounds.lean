import CPractice.SkipList.Values

/-!
# Level indices of the skip list

A call faults here when it stores or reads past the end of `update[]`, reads an entry of it that was
not set in the call, or follows a pointer that was never stored.  `skip_list_erase` reads
`update[list->level + 1]` when the node of the key is on every level of the list, and a node of level
`SKIP_LIST_MAX_LEVEL` over a list of the level below it is given an entry past the end.  Nothing else
faults, in any run.

What the copy of `skip_list_update` leaves in the node of a present key is an argument of the call.
-/

namespace CPractice.SkipList

open Lib

variable {κ ν : Type}

/-! ## The unlinking loop -/

/-- Where the node is on all levels the loop ends at the entry above the list's level. -/
theorem unlinkArr_eq {update : ℕ → Option ℕ} {pre : ℕ → ℕ} {cur top listTop : ℕ}
    (hlistTop : listTop < skipListMaxLevel) (hupdate : ∀ i ≤ listTop, update i = some (pre i))
    (hunset : update (listTop + 1) = none) {s : SkipListT κ ν} {remaining level : ℕ}
    (hremaining : remaining + level = listTop + 1) (hlevel : level ≤ top + 1)
    (h : Unlinkable s pre cur level top listTop) :
    unlinkArr update cur remaining level s =
      if top < listTop then unlinkLevels update cur remaining level s else none := by
  induction remaining generalizing s level with
  | zero =>
      have hlast : level = listTop + 1 := by omega
      rw [if_neg (by omega), unlinkArr, readUpdate, hlast, hunset, ite_self]
      rfl
  | succ remaining ih =>
      have hle : level ≤ listTop := by omega
      have hread : readUpdate update level = some (pre level) := by
        rw [readUpdate, if_pos (hle.trans_lt hlistTop), hupdate level hle]
      by_cases hin : level ≤ top
      · rcases h.step hin with ⟨succ, s₁, heq, hnextCur, hset, -, -, -, hrest⟩
        have hnext := ih (by omega) (by omega) hrest
        simp [unlinkArr, unlinkLevels, hread, hupdate level hle, heq, hnextCur, hset, hnext]
      · rcases h.stop hle hin with ⟨target, htarget, hneq⟩
        rw [if_pos (by omega)]
        simp [unlinkArr, unlinkLevels, hread, hupdate level hle, htarget, hneq]

/-! ## Calls -/

inductive LevelCall (κ ν : Type) where
  | insert (key : κ) (value : ν) (draws : List ℕ) (alloc : Alloc)
  | update (key : κ) (value : ν) (written : Option ν) (draws : List ℕ) (alloc : Alloc)
  | erase (key : κ)
  | find (key : κ)

def levelCallOk (s : SkipListT κ ν) : LevelCall κ ν → Prop
  | .insert _ _ _ alloc => alloc.Fresh s
  | .update _ _ _ _ alloc => alloc.Fresh s
  | .erase _ => True
  | .find _ => True

def levelExec (cmp : κ → κ → ℤ) (s : SkipListT κ ν) :
    LevelCall κ ν → Option (Ret ν × SkipListT κ ν)
  | .insert key value draws alloc =>
      (insertArr cmp s key value draws alloc).map fun out ↦ (.code out.1, out.2)
  | .update key value written draws alloc =>
      (updateArr cmp (fun _ ↦ some written) s key value draws alloc).map fun out ↦
        (.code out.1, out.2)
  | .erase key => (eraseArr cmp s key).map fun s ↦ (.done, s)
  | .find key => (skipListFind cmp s key).map fun out ↦ (.found out.1 out.2, s)

/-- The runs from `skip_list_init`. -/
def levelMachine (cmp : κ → κ → ℤ) : Machine (SkipListT κ ν) (LevelCall κ ν) (Ret ν) where
  init s := ∃ tail header, tail ≠ 0 ∧ header ≠ 0 ∧ tail ≠ header ∧ s = skipListInit tail header
  ok := levelCallOk
  exec := levelExec cmp

/-- The level of the node of a key. -/
def keyLevel (cmp : κ → κ → ℤ) (s : SkipListT κ ν) (key : κ) : Option ℕ := do
  let (_, cur) ← search cmp s key
  let found ← matchesNode cmp s cur key
  if found then (s.nodes cur).map NodeT.level else none

/-- A new key is drawn a level that has its place in `update[]`, and a node that is erased is not on
the top level of the list. -/
def LevelsFit (cmp : κ → κ → ℤ) (s : SkipListT κ ν) : LevelCall κ ν → Prop
  | .insert key _ draws _ => (skipListFind cmp s key).map Prod.fst = some (-2) → DrawsFit s draws
  | .update key _ _ draws _ => (skipListFind cmp s key).map Prod.fst = some (-2) → DrawsFit s draws
  | .erase key => ∀ level, keyLevel cmp s key = some level → level < s.level
  | .find _ => True

/-- The same calls, admitted where the levels fit. -/
def fittingMachine (cmp : κ → κ → ℤ) : Machine (SkipListT κ ν) (LevelCall κ ν) (Ret ν) :=
  { levelMachine cmp with ok := LevelsFit cmp }

section Ordered

variable [LinearOrder κ] {cmp : κ → κ → ℤ} {s : SkipListT κ ν} {bindings : κ → Option ν} {key : κ}

/-- An erase is the erase of the other model, or ends at the entry above the list's level. -/
theorem eraseArr_cases (hcmp : TotalOrderCmp cmp) (h : Refines s bindings) (key : κ) :
    (∃ level, keyLevel cmp s key = some level ∧
      eraseArr cmp s key = if level < s.level then skipListErase cmp s key else none) ∨
    (keyLevel cmp s key = none ∧ eraseArr cmp s key = skipListErase cmp s key) := by
  rcases h with ⟨items, hrepr, hholds⟩
  rcases search_cases hcmp hrepr hholds key with ⟨above, rest, update, cur, hcut, harr, hsearch,
    hupdate, ⟨it, rest', rfl, hkey, rfl, -, -, hnode⟩ | ⟨-, -, hnode⟩⟩
  · have hmem : it ∈ items := by
      rw [hcut.eq]
      exact List.mem_append_right _ List.mem_cons_self
    rcases hrepr.item_node it hmem with ⟨n, hn, -, hlevel⟩
    have hunlink : unlinkArr update it.addr (s.level + 1) 0 s = if it.level < s.level
        then unlinkLevels update it.addr (s.level + 1) 0 s else none := by
      apply unlinkArr_eq hrepr.level_lt _ _ (Nat.add_zero _) (Nat.zero_le _)
        (hrepr.unlinkable hcut hkey)
      · intro i hi
        rw [hupdate, if_pos hi]
      · rw [hupdate, if_neg (by omega)]
    refine .inl ⟨it.level, ?_, ?_⟩
    · simp [keyLevel, hsearch, hnode, hn, hlevel]
    · by_cases hlt : it.level < s.level
      · simp [eraseArr, skipListErase, removeNode, harr, hsearch, hnode, hunlink, hlt]
      · simp [eraseArr, harr, hnode, hunlink, hlt]
  · refine .inr ⟨?_, ?_⟩
    · simp [keyLevel, hsearch, hnode]
    · simp [eraseArr, skipListErase, harr, hsearch, hnode]

/-! ## Runs -/

theorem insert_isSome_iff (hcmp : TotalOrderCmp cmp) (h : Refines s bindings) {value : ν}
    {draws : List ℕ} {alloc : Alloc} (hfresh : alloc.Fresh s) :
    (insertArr cmp s key value draws alloc).isSome ↔
      ((skipListFind cmp s key).map Prod.fst = some (-2) → DrawsFit s draws) := by
  rw [find_eq hcmp h]
  cases hbinding : bindings key with
  | some old =>
      rcases h with ⟨items, hrepr, hholds⟩
      rw [insertArr_bound hcmp hrepr hholds hbinding]
      simp [answer]
  | none =>
      rcases unbound_refines hcmp h hbinding hfresh draws value with
        ⟨add, hinsert, -, hfits, hmisfit⟩
      rw [hinsert]
      by_cases hdraws : DrawsFit s draws
      · rcases hfits hdraws 0 with ⟨s', hadd, -⟩
        simp [hadd, hdraws]
      · simp [hmisfit hdraws, hdraws, answer]

theorem update_isSome_iff (hcmp : TotalOrderCmp cmp) (h : Refines s bindings) {value : ν}
    {written : Option ν} {draws : List ℕ} {alloc : Alloc} (hfresh : alloc.Fresh s) :
    (updateArr cmp (fun _ ↦ some written) s key value draws alloc).isSome ↔
      ((skipListFind cmp s key).map Prod.fst = some (-2) → DrawsFit s draws) := by
  rw [find_eq hcmp h]
  cases hbinding : bindings key with
  | some old =>
      rcases updateArr_refines hcmp h hbinding (fun _ ↦ some written) value draws alloc with
        ⟨-, hrefused, hstored⟩
      have hsome : (updateArr cmp (fun _ ↦ some written) s key value draws alloc).isSome := by
        cases written with
        | none => rw [hrefused rfl, Option.isSome_some]
        | some new =>
            rcases hstored new rfl with ⟨s', hupdate, -⟩
            rw [hupdate, Option.isSome_some]
      simp [hsome, answer]
  | none =>
      rcases unbound_refines hcmp h hbinding hfresh draws value with
        ⟨add, -, hupdate, hfits, hmisfit⟩
      rw [hupdate]
      by_cases hdraws : DrawsFit s draws
      · rcases hfits hdraws 1 with ⟨s', hadd, -⟩
        simp [hadd, hdraws]
      · simp [hmisfit hdraws, hdraws, answer]

theorem erase_isSome_iff (hcmp : TotalOrderCmp cmp) (h : Refines s bindings) (key : κ) :
    (eraseArr cmp s key).isSome ↔ ∀ level, keyLevel cmp s key = some level → level < s.level := by
  rcases skipListErase_keeps hcmp h key with ⟨s', -, herase, -⟩
  rcases eraseArr_cases hcmp h key with ⟨level, hlevel, harr⟩ | ⟨hnone, harr⟩
  · rw [harr, herase, hlevel]
    by_cases hlt : level < s.level
    · simp [hlt]
    · simp [hlt]
  · rw [harr, herase, hnone]
    simp

/-- One call: where it faults. -/
theorem levelExec_isSome_iff (hcmp : TotalOrderCmp cmp) (h : Refines s bindings)
    {call : LevelCall κ ν} (hok : levelCallOk s call) :
    (levelExec cmp s call).isSome ↔ LevelsFit cmp s call := by
  cases call with
  | insert key value draws alloc =>
      rw [levelExec, Option.isSome_map]
      exact insert_isSome_iff hcmp h hok
  | update key value written draws alloc =>
      rw [levelExec, Option.isSome_map]
      exact update_isSome_iff hcmp h hok
  | erase key =>
      rw [levelExec, Option.isSome_map]
      exact erase_isSome_iff hcmp h key
  | find key =>
      rw [levelExec, Option.isSome_map, find_eq hcmp h]
      simp [LevelsFit]

/-- One call: the list it leaves. -/
theorem levelExec_keeps (hcmp : TotalOrderCmp cmp) (h : Refines s bindings) {call : LevelCall κ ν}
    (hok : levelCallOk s call) {r : Ret ν} {s' : SkipListT κ ν}
    (hexec : levelExec cmp s call = some (r, s')) : ∃ bindings', Refines s' bindings' := by
  cases call with
  | insert key value draws alloc =>
      rcases Option.map_eq_some_iff.mp hexec with ⟨out, hout, heq⟩
      cases heq
      exact insertArr_keeps hcmp h hok hout
  | update key value written draws alloc =>
      rcases Option.map_eq_some_iff.mp hexec with ⟨out, hout, heq⟩
      cases heq
      exact updateArr_keeps hcmp h hok hout
  | erase key =>
      rcases Option.map_eq_some_iff.mp hexec with ⟨out, hout, heq⟩
      cases heq
      rcases skipListErase_keeps hcmp h key with ⟨s₁, bindings', herase, h'⟩
      have hsame : eraseArr cmp s key = skipListErase cmp s key := by
        rcases eraseArr_cases hcmp h key with ⟨level, -, harr⟩ | ⟨-, harr⟩
        · by_cases hlt : level < s.level
          · rw [harr, if_pos hlt]
          · rw [harr, if_neg hlt] at hout
            cases hout
        · exact harr
      rw [hsame, herase] at hout
      cases hout
      exact ⟨bindings', h'⟩
  | find key =>
      rcases Option.map_eq_some_iff.mp hexec with ⟨out, -, heq⟩
      cases heq
      exact ⟨bindings, h⟩

/-- A run from `skip_list_init` keeps every index in bounds and reads only what was stored exactly when
the levels fit at each of its calls. -/
theorem levels_in_bounds_iff (hcmp : TotalOrderCmp cmp) (hinit : (levelMachine cmp).init s)
    {calls : List (LevelCall κ ν)} (hok : (levelMachine cmp).AllOk s calls) :
    ((levelMachine cmp).execAll s calls).isSome ↔ (fittingMachine cmp).AllOk s calls := by
  have hstart : (machine (ν := ν) cmp).init s := hinit
  have hexec : (fittingMachine (ν := ν) cmp).exec = (levelMachine cmp).exec := rfl
  refine Machine.execAll_isSome_iff (fun s ↦ ∃ bindings, Refines s bindings) hexec ?_ ?_
    ⟨_, refines_init hstart⟩ hok
  · rintro s call r s' ⟨bindings, h⟩ hcall hexec
    exact levelExec_keeps hcmp h hcall hexec
  · rintro s call ⟨bindings, h⟩ hcall
    exact levelExec_isSome_iff hcmp h hcall

end Ordered

/-! ## An erase on the top level -/

instance (s : SkipListT κ ν) : (call : LevelCall κ ν) → Decidable (levelCallOk s call)
  | .insert _ _ _ alloc => inferInstanceAs (Decidable (alloc.Fresh s))
  | .update _ _ _ _ alloc => inferInstanceAs (Decidable (alloc.Fresh s))
  | .erase _ => isTrue trivial
  | .find _ => isTrue trivial

instance (cmp : κ → κ → ℤ) (s : SkipListT κ ν) (call : LevelCall κ ν) :
    Decidable ((levelMachine cmp).ok s call) :=
  inferInstanceAs (Decidable (levelCallOk s call))

/-- The keys `5` of level `0` and `7` of level `1`, and an erase. -/
def towerCalls (erased : ℕ) : List (LevelCall ℕ ℕ) :=
  [.insert 5 50 [65535] ⟨3, true, true⟩, .insert 7 70 [0, 65535] ⟨4, true, true⟩, .erase erased]

theorem skipListInit_levels : (levelMachine (ν := ℕ) numCmp).init (skipListInit 1 2) :=
  ⟨1, 2, by decide, by decide, by decide, rfl⟩

/-- The erase of `5` is in bounds. -/
theorem levels_in_bounds_iff_tower :
    (fittingMachine numCmp).AllOk (skipListInit 1 2) (towerCalls 5) :=
  (levels_in_bounds_iff numCmp_total skipListInit_levels (by decide)).mp (by decide)

/-- The erase of `7` reads `update[2]`, which was not set. -/
theorem erase_top_unset :
    (levelMachine (ν := ℕ) numCmp).init (skipListInit 1 2) ∧
      (levelMachine numCmp).AllOk (skipListInit 1 2) (towerCalls 7) ∧
      ((levelMachine numCmp).execAll (skipListInit 1 2) (towerCalls 7)).isSome = false :=
  ⟨skipListInit_levels, by decide, by decide⟩

end CPractice.SkipList
