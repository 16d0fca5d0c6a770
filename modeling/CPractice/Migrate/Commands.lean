import CPractice.Migrate.Model
import CPractice.Lib.Turns
import Mathlib.Data.Finset.Lattice.Lemmas
import Mathlib.Data.Finset.Dedup

/-!
# Rebuilding one value by repeated commands

What a run of `rpush`, `sadd`, `hset` or `zadd` on one key makes of the destination, and what a scan
loop makes of its pages.  Sets, hashes and sorted sets absorb repeated elements; lists do not.
-/

namespace CPractice.Migrate

open Lib

variable {Score : Type}

/-! ## Runs of commands on one key -/

/-- `rpush` of several elements appends them to the list that is there. -/
theorem foldl_rpush (key : Bytes) (elements : List Bytes) (db : Db Score) (front : List Bytes) :
    elements.foldl (fun (db : Db Score) element ↦ db.rpush key element)
        (Function.update db key (some (.list front))) =
      Function.update db key (some (.list (front ++ elements))) := by
  induction elements generalizing front with
  | nil => rw [List.foldl_nil, List.append_nil]
  | cons element elements ih =>
      have hstep : Db.rpush (Function.update db key (some (.list front))) key element =
          Function.update db key (some (.list (front ++ [element]))) := by
        simp [Db.rpush]
      rw [List.foldl_cons, hstep, ih, List.append_assoc, List.singleton_append]

theorem foldl_rpush_none {key : Bytes} {elements : List Bytes} {db : Db Score}
    (hdb : db key = none) (hne : elements ≠ []) :
    elements.foldl (fun (db : Db Score) element ↦ db.rpush key element) db =
      Function.update db key (some (.list elements)) := by
  cases elements with
  | nil => exact absurd rfl hne
  | cons element elements =>
      have hstep : db.rpush key element = Function.update db key (some (.list [element])) := by
        simp [Db.rpush, hdb]
      rw [List.foldl_cons, hstep, foldl_rpush, List.singleton_append]

/-- `sadd` of several members adds them to the set that is there. -/
theorem foldl_sadd (key : Bytes) (members : List Bytes) (db : Db Score) (front : Finset Bytes) :
    members.foldl (fun (db : Db Score) member ↦ db.sadd key member)
        (Function.update db key (some (.set front))) =
      Function.update db key (some (.set (front ∪ members.toFinset))) := by
  induction members generalizing front with
  | nil => rw [List.foldl_nil, List.toFinset_nil, Finset.union_empty]
  | cons member members ih =>
      have hstep : Db.sadd (Function.update db key (some (.set front))) key member =
          Function.update db key (some (.set (insert member front))) := by
        simp [Db.sadd]
      rw [List.foldl_cons, hstep, ih, List.toFinset_cons, Finset.insert_union,
        Finset.union_insert]

theorem foldl_sadd_none {key : Bytes} {members : List Bytes} {db : Db Score}
    (hdb : db key = none) (hne : members ≠ []) :
    members.foldl (fun (db : Db Score) member ↦ db.sadd key member) db =
      Function.update db key (some (.set members.toFinset)) := by
  cases members with
  | nil => exact absurd rfl hne
  | cons member members =>
      have hstep : db.sadd key member = Function.update db key (some (.set {member})) := by
        simp [Db.sadd, hdb]
      rw [List.foldl_cons, hstep, foldl_sadd, List.toFinset_cons, Finset.insert_eq]

/-- Adding the listing of a set to a key that is unbound, or already holds the set, gives the set. -/
theorem foldl_sadd_listing {key : Bytes} {listing : List Bytes} {members : Finset Bytes}
    {db : Db Score} (hmembers : members ≠ ∅) (hmem : ∀ member, member ∈ listing ↔ member ∈ members)
    (hdb : db key = none ∨ db key = some (.set members)) :
    listing.foldl (fun (db : Db Score) member ↦ db.sadd key member) db =
      Function.update db key (some (.set members)) := by
  have hlisting : listing.toFinset = members := by
    ext member
    rw [List.mem_toFinset, hmem]
  rcases hdb with hnone | hsome
  · have hne : listing ≠ [] := by
      rintro rfl
      exact hmembers hlisting.symm
    rw [foldl_sadd_none hnone hne, hlisting]
  · have hself : db = Function.update db key (some (.set members)) := by
      rw [← hsome, Function.update_eq_self]
    rw [hself, foldl_sadd, hlisting, Finset.union_self, Function.update_idem]

/-! ## Values that are finite maps -/

section Maps

variable {β : Type} (wrap : (Bytes → Option β) → Value Score) (decode : Bytes → Option β)
  (key : Bytes) (command : Db Score → Bytes → Bytes → Db Score)

/-- A command that binds one entry of the map a key holds, and makes the map when there is none. -/
structure BindsEntry : Prop where
  fresh : ∀ db first second entry, db key = none → decode second = some entry →
    command db first second =
      Function.update db key (some (wrap (Function.update (fun _ ↦ none) first (some entry))))
  held : ∀ db first second entry entries, db key = some (wrap entries) →
    decode second = some entry →
    command db first second =
      Function.update db key (some (wrap (Function.update entries first (some entry))))

variable {wrap decode key command}

theorem addPairs_interleave (pairs : List (Bytes × Bytes)) (db : Db Score) :
    addPairs command (interleave pairs) db =
      some (pairs.foldl (fun db pair ↦ command db pair.1 pair.2) db) := by
  induction pairs generalizing db with
  | nil => rfl
  | cons pair pairs ih => rw [interleave_cons, addPairs, ih, List.foldl_cons]

/-- Binding pairs that all agree with a map, over a part of the map, keeps to the map and binds
every first component. -/
theorem foldl_held (h : BindsEntry wrap decode key command) (target : Bytes → Option β)
    (pairs : List (Bytes × Bytes))
    (hpairs : ∀ pair ∈ pairs, (decode pair.2).isSome ∧ decode pair.2 = target pair.1)
    (db : Db Score) (part : Bytes → Option β)
    (hpart : ∀ first, part first = none ∨ part first = target first) :
    ∃ whole : Bytes → Option β,
      pairs.foldl (fun db pair ↦ command db pair.1 pair.2)
          (Function.update db key (some (wrap part))) =
        Function.update db key (some (wrap whole)) ∧
      ∀ first, (part first = target first ∨ first ∈ pairs.map Prod.fst →
        whole first = target first) ∧ (whole first = none ∨ whole first = target first) := by
  induction pairs generalizing part with
  | nil =>
      refine ⟨part, rfl, fun first ↦ ⟨?_, hpart first⟩⟩
      rintro (hsame | hmem)
      · exact hsame
      · cases hmem
  | cons pair pairs ih =>
      rcases hpairs pair List.mem_cons_self with ⟨hsome, hagree⟩
      rcases Option.isSome_iff_exists.mp hsome with ⟨entry, hentry⟩
      have hstep : command (Function.update db key (some (wrap part))) pair.1 pair.2 =
          Function.update db key (some (wrap (Function.update part pair.1 (some entry)))) := by
        rw [h.held _ _ _ entry part (Function.update_self ..) hentry, Function.update_idem]
      have hnext : ∀ first, Function.update part pair.1 (some entry) first = none ∨
          Function.update part pair.1 (some entry) first = target first := by
        intro first
        by_cases heq : first = pair.1
        · rw [heq, Function.update_self, ← hentry, hagree]
          exact Or.inr rfl
        · rw [Function.update_of_ne heq]
          exact hpart first
      rcases ih (fun other hother ↦ hpairs other (List.mem_cons_of_mem _ hother)) _ hnext with
        ⟨whole, hfold, hwhole⟩
      refine ⟨whole, by rw [List.foldl_cons, hstep, hfold], fun first ↦ ⟨?_, (hwhole first).2⟩⟩
      intro hreached
      apply (hwhole first).1
      by_cases heq : first = pair.1
      · rw [heq, Function.update_self, ← hentry, hagree]
        exact Or.inl rfl
      · rw [Function.update_of_ne heq]
        rcases hreached with hsame | hmem
        · exact Or.inl hsame
        · rcases List.mem_cons.mp hmem with hhead | htail
          · exact absurd hhead heq
          · exact Or.inr htail

/-- Binding the listing of a map, on a key that is unbound or already holds the map, gives the
map. -/
theorem foldl_listing (h : BindsEntry wrap decode key command) {target : Bytes → Option β}
    {pairs : List (Bytes × Bytes)} (hne : ∃ first, (target first).isSome)
    (hpairs : ∀ pair ∈ pairs, (decode pair.2).isSome ∧ decode pair.2 = target pair.1)
    (hall : ∀ first, (target first).isSome → first ∈ pairs.map Prod.fst)
    {db : Db Score} (hdb : db key = none ∨ db key = some (wrap target)) :
    pairs.foldl (fun db pair ↦ command db pair.1 pair.2) db =
      Function.update db key (some (wrap target)) := by
  rcases hdb with hnone | hsome
  · cases pairs with
    | nil =>
        rcases hne with ⟨first, hfirst⟩
        cases hall first hfirst
    | cons pair pairs =>
        rcases hpairs pair List.mem_cons_self with ⟨hsome, hagree⟩
        rcases Option.isSome_iff_exists.mp hsome with ⟨entry, hentry⟩
        have hstart : ∀ first, Function.update (fun _ ↦ none) pair.1 (some entry) first = none ∨
            Function.update (fun _ ↦ none) pair.1 (some entry) first = target first := by
          intro first
          by_cases heq : first = pair.1
          · rw [heq, Function.update_self, ← hentry, hagree]
            exact Or.inr rfl
          · rw [Function.update_of_ne heq]
            exact Or.inl rfl
        rcases foldl_held h target pairs
            (fun other hother ↦ hpairs other (List.mem_cons_of_mem _ hother)) db _ hstart with
          ⟨whole, hfold, hwhole⟩
        have hwholeEq : whole = target := by
          funext first
          by_cases hbound : (target first).isSome
          · apply (hwhole first).1
            rcases List.mem_cons.mp (hall first hbound) with hhead | htail
            · rw [hhead, Function.update_self, ← hentry, hagree]
              exact Or.inl rfl
            · exact Or.inr htail
          · have hfirst : target first = none := Option.not_isSome_iff_eq_none.mp hbound
            rcases (hwhole first).2 with heq | heq
            · rw [heq, hfirst]
            · exact heq
        rw [List.foldl_cons, h.fresh _ _ _ entry hnone hentry, hfold, hwholeEq]
  · have hself : db = Function.update db key (some (wrap target)) := by
      rw [← hsome, Function.update_eq_self]
    rcases foldl_held h target pairs hpairs db target (fun first ↦ Or.inr rfl) with
      ⟨whole, hfold, hwhole⟩
    have hwholeEq : whole = target := funext fun first ↦ (hwhole first).1 (Or.inl rfl)
    rw [hself, hfold, hwholeEq, Function.update_idem]

end Maps

theorem addField_binds (key : Bytes) :
    BindsEntry (.hash : _ → Value Score) some key (addField key) where
  fresh := by
    intro db field text entry hnone hentry
    cases hentry
    simp only [addField, Db.hset, hnone]
  held := by
    intro db field text entry fields hfields hentry
    cases hentry
    simp only [addField, Db.hset, hfields]

theorem addScored_binds (src : Server Score) (key : Bytes) :
    BindsEntry .zset src.read key (addScored src key) where
  fresh := by
    intro db member text entry hnone hentry
    simp only [addScored, Db.zadd, hentry, hnone]
  held := by
    intro db member text entry scores hscores hentry
    simp only [addScored, Db.zadd, hentry, hscores]

/-! ## Scan loops -/

/-- The replies determine the pages. -/
theorem Iterates.unique {scan : ℕ → ℤ → ScanReply} {call : ℕ} {cursor : ℤ}
    {pages others : List (List Bytes)} (h : Iterates scan call cursor pages)
    (hother : Iterates scan call cursor others) : pages = others := by
  induction h generalizing others with
  | last hscan =>
      cases hother with
      | last hscan' =>
          rw [hscan] at hscan'
          cases hscan'
          rfl
      | more hscan' hnext _ =>
          rw [hscan] at hscan'
          cases hscan'
          exact absurd rfl hnext
  | more hscan hnext _ ih =>
      cases hother with
      | last hscan' =>
          rw [hscan] at hscan'
          cases hscan'
          exact absurd rfl hnext
      | more hscan' _ hrest =>
          rw [hscan] at hscan'
          cases hscan'
          rw [ih hrest]

/-- A scan loop whose copies all succeed returns after as many turns as the scan has pages. -/
theorem scanLoop_settles {scan : ℕ → ℤ → ScanReply}
    {copy : List Bytes → Db Score → Option (Db Score)} {call : ℕ} {cursor : ℤ}
    {pages : List (List Bytes)} (h : Iterates scan call cursor pages) {dst dst' : Db Score}
    (hcopy : pages.foldlM (fun dst page ↦ copy page dst) dst = some dst') :
    Settles (fun turns ↦ scanLoop scan copy turns call cursor dst) pages.length
      (call + pages.length, dst') := by
  intro turns
  induction h generalizing dst turns with
  | @last call cursor page hscan =>
      rw [List.foldlM_cons, Option.bind_eq_bind, Option.bind_eq_some_iff] at hcopy
      rcases hcopy with ⟨mid, hmid, hrest⟩
      cases hrest
      cases turns with
      | zero => rfl
      | succ turns => simp [scanLoop, hscan, hmid]
  | @more call cursor next page pages hscan hnext _ ih =>
      rw [List.foldlM_cons, Option.bind_eq_bind, Option.bind_eq_some_iff] at hcopy
      rcases hcopy with ⟨mid, hmid, hrest⟩
      cases turns with
      | zero => rfl
      | succ turns =>
          have hloop := ih hrest turns
          have hcalls : call + 1 + pages.length = call + (page :: pages).length := by
            rw [List.length_cons]
            omega
          rw [hcalls] at hloop
          simp only [scanLoop, hscan, hmid, Option.bind_eq_bind, Option.bind_some, if_pos hnext,
            hloop, List.length_cons, Nat.add_le_add_iff_right]

theorem foldlM_addMembers (key : Bytes) (pages : List (List Bytes)) (dst : Db Score) :
    pages.foldlM (fun dst page ↦ addMembers key page dst) dst =
      some (pages.flatten.foldl (fun (dst : Db Score) member ↦ dst.sadd key member) dst) := by
  induction pages generalizing dst with
  | nil => rfl
  | cons page pages ih =>
      rw [List.foldlM_cons, addMembers, Option.bind_eq_bind, Option.bind_some, ih,
        List.flatten_cons, List.foldl_append]

theorem foldlM_addPairs (command : Db Score → Bytes → Bytes → Db Score)
    (pages : List (List (Bytes × Bytes))) (dst : Db Score) :
    (pages.map interleave).foldlM (fun dst page ↦ addPairs command page dst) dst =
      some (pages.flatten.foldl (fun dst pair ↦ command dst pair.1 pair.2) dst) := by
  induction pages generalizing dst with
  | nil => rfl
  | cons page pages ih =>
      rw [List.map_cons, List.foldlM_cons, addPairs_interleave, Option.bind_eq_bind,
        Option.bind_some, ih, List.flatten_cons, List.foldl_append]

/-- A scan of a key whose copies succeed settles. -/
theorem scanKey_settles {scan : ℕ → ℤ → ScanReply}
    {copy : List Bytes → Db Score → Option (Db Score)} {st : Session Score} {key : Bytes}
    {pages : List (List Bytes)} (h : Iterates scan (st.calls key) 0 pages) {dst' : Db Score}
    (hcopy : pages.foldlM (fun dst page ↦ copy page dst) st.dst = some dst') :
    ∃ enough st', Settles (fun turns ↦ scanKey scan copy turns st key) enough st' ∧
      st'.dst = dst' := by
  refine ⟨max pages.length 0, _, (scanLoop_settles h hcopy).bind (Settles.const _), rfl⟩

end CPractice.Migrate
