import CPractice.RbMap.Insertion
import CPractice.Lib.Bindings

/-!
# The map refines a finite map

The abstract object is a partial function from keys to byte strings.  An insert binds an unbound key
if its allocations are granted, an update rebinds a bound one if a longer value gets its buffer, an
erase unbinds its key, and `map_find` reads the binding.
-/

namespace CPractice.RbMap

open Lib

variable {κ : Type} [LinearOrder κ] {cmp : κ → κ → ℤ}

/-! ## The abstract object -/

/-- The bindings after a call. -/
def mapStep (bindings : κ → Option Bytes) : Call κ → Ret κ → κ → Option Bytes
  | .insert key value alloc, _ =>
      if bindings key = none ∧ alloc.granted then Function.update bindings key (some value)
      else bindings
  | .update key value grown, _ =>
      match bindings key with
      | some old =>
          if old.length < value.length ∧ grown = false then bindings
          else Function.update bindings key (some value)
      | none => bindings
  | .erase key, _ => Function.update bindings key none
  | .eraseEx _, .erased _ (some key) => Function.update bindings key none
  | .eraseEx _, _ => bindings
  | .find _, _ => bindings

/-- The results a call may have on the bindings before it. -/
def mapPost (bindings : κ → Option Bytes) : Call κ → Ret κ → Prop
  | .insert key _ alloc, ret =>
      ret = if bindings key = none ∧ ¬ alloc.granted then .code (-1) else .code 0
  | .update key value grown, ret =>
      match bindings key with
      | some old =>
          ret = if old.length < value.length ∧ grown = false then .code (-1) else .code 0
      | none => ret = .code (-1)
  | .erase _, ret =>
      (∀ key, bindings key = none) ∧ ret = .code (-1) ∨ (∃ key, bindings key ≠ none) ∧ ret = .code 0
  | .eraseEx node, ret =>
      node = 0 ∧ ret = .erased 0 none ∨
        node ≠ 0 ∧ ∃ key, bindings key ≠ none ∧ ret = .erased 0 (some key)
  | .find key, ret =>
      ret = match bindings key with
        | some value => .found 0 (some value)
        | none => .found (-2) none

/-- The bindings after a run. -/
def contents (log : List (Call κ × Ret κ)) : κ → Option Bytes :=
  Machine.replay mapStep (fun _ ↦ none) log

/-! ## One call -/

/-- A map whose entries are in order, in buffers that are large enough, and hold the bindings. -/
structure Keeps (root : RbRoot κ) (t : Tree κ) (entries : List (Entry κ))
    (bindings : κ → Option Bytes) : Prop where
  represents : Represents root t entries
  sorted : Sorted entries
  buffers : ∀ entry ∈ entries, entry.value.size ≤ entry.value.data.length
  binds : Binds Entry.key (fun entry ↦ entry.value.content) entries bindings

/-- The relation between a map and the bindings it holds. -/
def Refines (root : RbRoot κ) (bindings : κ → Option Bytes) : Prop :=
  ∃ t entries, Keeps root t entries bindings

/-- The call as `Simulates` asks for it. -/
def Simulated (cmp : κ → κ → ℤ) (root : RbRoot κ) (bindings : κ → Option Bytes) (call : Call κ) :
    Prop :=
  ∃ ret root', callExec cmp root call = some (ret, root') ∧ mapPost bindings call ret ∧
    Refines root' (mapStep bindings call ret)

/-- Every other entry of a sorted sequence has another key. -/
theorem Sorted.key_ne {before after : List (Entry κ)} {entry : Entry κ}
    (h : Sorted (before ++ entry :: after)) : ∀ other ∈ before ++ after, other.key ≠ entry.key := by
  rw [Sorted, List.pairwise_append, List.pairwise_cons] at h
  intro other hother
  rcases List.mem_append.mp hother with hmem | hmem
  · exact (h.2.2 other hmem entry List.mem_cons_self).ne
  · exact (h.2.1.1 other hmem).ne'

theorem Sorted.remove {before after : List (Entry κ)} {entry : Entry κ}
    (h : Sorted (before ++ entry :: after)) : Sorted (before ++ after) :=
  h.sublist ((List.Sublist.refl before).append (List.sublist_cons_self entry after))

/-- The order does not depend on the values. -/
theorem Sorted.exchange {before after : List (Entry κ)} {entry entry' : Entry κ}
    (h : Sorted (before ++ entry :: after)) (hkey : entry'.key = entry.key) :
    Sorted (before ++ entry' :: after) := by
  rw [Sorted, List.pairwise_append, List.pairwise_cons] at h ⊢
  rw [hkey]
  refine ⟨h.1, h.2.1, ?_⟩
  intro a ha b hb
  rcases List.mem_cons.mp hb with rfl | hb
  · rw [hkey]
    exact h.2.2 a ha entry List.mem_cons_self
  · exact h.2.2 a ha b (List.mem_cons_of_mem _ hb)

section Calls

variable {root : RbRoot κ} {t : Tree κ} {entries : List (Entry κ)} {bindings : κ → Option Bytes}

/-- A search of the map ends at the entry of the key, or the key is unbound. -/
theorem Keeps.search (hcmp : TotalOrderCmp cmp) (h : Keeps root t entries bindings) (key : κ) :
    (∃ path color entry left right parent, t = plug path (.node color entry left right) ∧
      entry ∈ entries ∧ entry.key = key ∧ bindings key = some entry.value.content ∧
      rbSearch cmp root key = some (entry.addr.1, parent)) ∨
    (∃ path, t = plug path .nil ∧ Between path key ∧ bindings key = none ∧
      rbSearch cmp root key = some (0, parentOf path)) := by
  rcases rbSearch_ends hcmp h.represents h.sorted key with ⟨result, hsearch, hends⟩
  have hinorder := h.represents.settled.inorder
  cases hends with
  | @found path color entry left right parent hplug hkey =>
      left
      have hentry : entry ∈ entries := by
        rw [← hinorder, ← hplug, inorder_plug]
        simp [Tree.inorder]
      refine ⟨path, color, entry, left, right, parent, hplug.symm, hentry, hkey, ?_, hsearch⟩
      rw [← hkey]
      exact h.binds.eq_some hentry
  | @missing path hplug hbetween =>
      right
      refine ⟨path, hplug.symm, hbetween, h.binds.eq_none ?_, hsearch⟩
      intro entry hentry
      rw [← hinorder, ← hplug, inorder_plug, Tree.inorder, List.append_nil] at hentry
      rcases List.mem_append.mp hentry with hmem | hmem
      · exact (hbetween.before entry hmem).ne
      · exact (hbetween.after entry hmem).ne'

theorem mapFind_eq (hcmp : TotalOrderCmp cmp) (h : Keeps root t entries bindings) (key : κ) :
    mapFind cmp root key = some (match bindings key with
      | some value => (0, some value)
      | none => (-2, none)) := by
  rcases h.search hcmp key with ⟨path, color, entry, left, right, parent, -, hentry, -, hbound,
    hsearch⟩ | ⟨path, -, -, hunbound, hsearch⟩
  · have hmem : entry ∈ t.inorder := by rwa [h.represents.settled.inorder]
    rcases h.represents.settled.holds.load_entry hmem with ⟨n, hload, -, hvalue⟩
    simp only [mapFind, hsearch, Option.bind_eq_bind, Option.bind_some, if_neg entry.addr.2.1, hload,
      hvalue, hbound]
  · simp only [mapFind, hsearch, Option.bind_eq_bind, Option.bind_some, if_true, hunbound]

theorem find_simulated (hcmp : TotalOrderCmp cmp) (h : Keeps root t entries bindings) (key : κ) :
    Simulated cmp root bindings (.find key) := by
  refine ⟨_, root, ?_, rfl, t, entries, h⟩
  rw [callExec, mapFind_eq hcmp h key]
  cases bindings key <;> rfl

theorem insert_simulated (hcmp : TotalOrderCmp cmp) (h : Keeps root t entries bindings) {key : κ}
    {value : Bytes} {alloc : Alloc} (hok : callOk root (.insert key value alloc)) :
    Simulated cmp root bindings (.insert key value alloc) := by
  have hsize : ¬ u8 (root.size + 1) < root.size := by
    rw [h.represents.size_ok]
    omega
  rcases h.search hcmp key with ⟨path, color, entry, left, right, parent, -, hentry, -, hbound,
    hsearch⟩ | ⟨path, rfl, hbetween, hunbound, hsearch⟩
  · -- the key is bound: nothing changes
    refine ⟨.code 0, root, ?_, ?_, t, entries, ?_⟩
    · simp only [callExec, mapInsert, if_neg hsize, hsearch, Option.bind_eq_bind, Option.bind_some,
        ne_eq, if_pos entry.addr.2.1]
    · simp [mapPost, hbound]
    · simpa [mapStep, hbound] using h
  · by_cases hgranted : alloc.granted
    · rcases hok hgranted.1 with ⟨hfresh, haligned⟩
      let entry : Entry κ := ⟨⟨alloc.node, hgranted.1, haligned⟩, key, ⟨value.length, value⟩⟩
      have hbetween' : Between path entry.key := hbetween
      rcases mapInsert_missing hcmp h.represents h.sorted hbetween' hfresh rfl rfl hgranted
        hsearch with ⟨root', t', hinsert, hrepresents⟩
      have hentries : entries = entriesBefore path ++ entriesAfter path := by
        rw [← h.represents.settled.inorder, inorder_plug, Tree.inorder, List.append_nil]
      have hsorted : Sorted (entriesBefore path ++ entry :: entriesAfter path) := by
        have hold := h.sorted
        rw [← h.represents.settled.inorder] at hold
        exact hbetween'.sorted hold
      have hbinds := h.binds
      rw [hentries] at hbinds
      have hcontent : entry.value.content = value := List.take_length
      refine ⟨.code 0, root', ?_, ?_, t', _, hrepresents, hsorted, ?_, ?_⟩
      · rw [callExec, hinsert]
        rfl
      · simp [mapPost, hgranted]
      · intro other hother
        rcases List.mem_append.mp hother with hmem | hmem
        · exact h.buffers other (hentries ▸ List.mem_append_left _ hmem)
        · rcases List.mem_cons.mp hmem with rfl | hmem
          · exact le_rfl
          · exact h.buffers other (hentries ▸ List.mem_append_right _ hmem)
      · have hnew := hbinds.insert hsorted.key_ne
        simpa [mapStep, hunbound, hgranted, hcontent] using hnew
    · refine ⟨.code (-1), root, ?_, ?_, plug path .nil, entries, ?_⟩
      · simp [callExec, mapInsert, hsize, hsearch, hgranted]
      · simp [mapPost, hunbound, hgranted]
      · simpa [mapStep, hgranted] using h

theorem update_simulated (hcmp : TotalOrderCmp cmp) (h : Keeps root t entries bindings) (key : κ)
    (value : Bytes) (grown : Bool) : Simulated cmp root bindings (.update key value grown) := by
  rcases h.search hcmp key with ⟨path, color, entry, left, right, parent, rfl, hentry, rfl, hbound,
    hsearch⟩ | ⟨path, -, -, hunbound, hsearch⟩
  · have hbuffer := h.buffers entry hentry
    have hlength : entry.value.content.length = entry.value.size := by
      rw [ValueT.content, List.length_take]
      omega
    by_cases hroom : entry.value.size < value.length ∧ grown = false
    · refine ⟨.code (-1), root, ?_, ?_, plug path (.node color entry left right), entries, ?_⟩
      · rw [callExec, mapUpdate_refused h.represents hentry hsearch hroom]
        rfl
      · simp [mapPost, hbound, hlength, hroom]
      · simpa [mapStep, hbound, hlength, hroom] using h
    · rcases mapUpdate_found h.represents hbuffer hsearch hroom with
        ⟨root', before, after, data, rfl, hupdate, hdata, hcontent, hrepresents⟩
      refine ⟨.code 0, root', ?_, ?_, _, _, hrepresents, h.sorted.exchange rfl, ?_, ?_⟩
      · rw [callExec, hupdate]
        rfl
      · rw [mapPost, hbound]
        simp only [hlength, if_neg hroom]
      · intro other hother
        rcases List.mem_append.mp hother with hmem | hmem
        · exact h.buffers other (List.mem_append_left _ hmem)
        · rcases List.mem_cons.mp hmem with rfl | hmem
          · exact hdata
          · exact h.buffers other (List.mem_append_right _ (List.mem_cons_of_mem _ hmem))
      · have hnew : Binds Entry.key (fun entry ↦ entry.value.content)
            (before ++ { entry with value := ⟨value.length, data⟩ } :: after)
            (Function.update bindings entry.key (some (⟨value.length, data⟩ : ValueT).content)) :=
          h.binds.exchange h.sorted.key_ne rfl
        rw [hcontent] at hnew
        rw [mapStep, hbound]
        simp only [hlength, if_neg hroom]
        exact hnew
  · refine ⟨.code (-1), root, ?_, ?_, t, entries, ?_⟩
    · simp [callExec, mapUpdate, hsearch]
    · simp [mapPost, hunbound]
    · simpa [mapStep, hunbound] using h

/-- Erasing the node of an entry unbinds its key. -/
theorem Keeps.erase (h : Keeps root t entries bindings) {entry : Entry κ} (hentry : entry ∈ entries) :
    ∃ root', mapEraseEx root entry.addr = some (0, root') ∧
      Refines root' (Function.update bindings entry.key none) := by
  have hnode : ¬ (root.node = 0 ∨ entry.addr.1 = 0) := by
    rintro (hzero | hzero)
    · rw [(node_eq_zero_iff h.represents.settled).mp hzero] at hentry
      cases hentry
    · exact entry.addr.2.1 hzero
  have hsize : root.size ≠ 0 := by
    rw [h.represents.size]
    exact (List.length_pos_of_mem hentry).ne'
  rcases eraseNode_represents h.represents hentry with
    ⟨root', t', before, after, rfl, herase, hrepresents⟩
  refine ⟨root', ?_, t', _, hrepresents, h.sorted.remove, ?_, h.binds.erase h.sorted.key_ne⟩
  · rw [mapEraseEx, if_neg hnode, if_neg hsize, herase]
    rfl
  · intro other hother
    apply h.buffers other
    rcases List.mem_append.mp hother with hmem | hmem
    · exact List.mem_append_left _ hmem
    · exact List.mem_append_right _ (List.mem_cons_of_mem _ hmem)

theorem erase_simulated (hcmp : TotalOrderCmp cmp) (h : Keeps root t entries bindings) (key : κ) :
    Simulated cmp root bindings (.erase key) := by
  by_cases hempty : root.node = 0 ∨ root.size = 0
  · have hnil : entries = [] := by
      rcases hempty with hzero | hzero
      · exact (node_eq_zero_iff h.represents.settled).mp hzero
      · rw [h.represents.size] at hzero
        exact List.length_eq_zero_iff.mp hzero
    have hunbound : ∀ key, bindings key = none := by
      intro key
      apply h.binds.eq_none
      rw [hnil]
      intro entry hentry
      cases hentry
    refine ⟨.code (-1), root, ?_, Or.inl ⟨hunbound, rfl⟩, t, entries, ?_⟩
    · simp only [callExec, mapErase, if_pos hempty, Option.bind_eq_bind, Option.bind_some]
    · rw [mapStep, Function.update_eq_self_iff.mpr (hunbound key).symm]
      exact h
  · have hbound : ∃ key, bindings key ≠ none := by
      cases hentries : entries with
      | nil =>
          exact absurd (Or.inl ((node_eq_zero_iff h.represents.settled).mpr hentries)) hempty
      | cons entry rest =>
          refine ⟨entry.key, ?_⟩
          rw [h.binds.eq_some (hentries ▸ List.mem_cons_self)]
          exact Option.some_ne_none _
    rcases h.search hcmp key with ⟨path, color, entry, left, right, parent, -, hentry, rfl, -,
      hsearch⟩ | ⟨path, -, -, hunbound, hsearch⟩
    · rcases h.erase hentry with ⟨root', herase, hrefines⟩
      refine ⟨.code 0, root', ?_, Or.inr ⟨hbound, rfl⟩, hrefines⟩
      simp only [callExec, mapErase, if_neg hempty, hsearch, Option.bind_eq_bind, Option.bind_some,
        if_neg entry.addr.2.1, herase]
    · refine ⟨.code 0, root, ?_, Or.inr ⟨hbound, rfl⟩, t, entries, ?_⟩
      · simp only [callExec, mapErase, if_neg hempty, hsearch, Option.bind_eq_bind,
          Option.bind_some, if_true]
      · rw [mapStep, Function.update_eq_self_iff.mpr hunbound.symm]
        exact h

theorem Keeps.mem_zero (h : Keeps root t entries bindings) : root.mem 0 = none := by
  by_contra hsome
  rcases h.represents.live 0 (Option.isSome_iff_ne_none.mpr hsome) with ⟨entry, -, heq⟩
  exact entry.addr.2.1 heq

theorem eraseEx_simulated (cmp : κ → κ → ℤ) (h : Keeps root t entries bindings) {node : Ptr}
    (hok : callOk root (.eraseEx node)) : Simulated cmp root bindings (.eraseEx node) := by
  by_cases hzero : node = 0
  · refine ⟨.erased 0 none, root, ?_, Or.inl ⟨hzero, rfl⟩, t, entries, h⟩
    simp only [callExec, mapEraseEx, hzero, or_true, if_true, Option.bind_eq_bind, Option.bind_some,
      h.mem_zero, Option.map_none]
  · rcases h.represents.live node (hok hzero) with ⟨entry, hentry, rfl⟩
    have hmem : entry ∈ t.inorder := by rwa [h.represents.settled.inorder]
    rcases h.represents.settled.holds.load_entry hmem with ⟨n, hload, hkey, -⟩
    rcases h.erase hentry with ⟨root', herase, hrefines⟩
    refine ⟨.erased 0 (some entry.key), root', ?_, Or.inr ⟨hzero, entry.key, ?_, rfl⟩, hrefines⟩
    · simp [callExec, herase, hload, hkey]
    · rw [h.binds.eq_some hentry]
      exact Option.some_ne_none _

end Calls

/-! ## Runs -/

theorem refines_init : Refines (rbInit : RbRoot κ) fun _ ↦ none := by
  refine ⟨.nil, [], ⟨⟨⟨rfl, ?_⟩, rfl, ⟨0, rfl⟩, rfl⟩, rfl, rfl, rfl, ?_⟩, List.Pairwise.nil, ?_, Binds.nil⟩
  · exact ⟨Multiset.nodup_zero, fun _ hcell ↦ absurd hcell (Multiset.notMem_zero _)⟩
  · intro p hp
    cases hp
  · intro entry hentry
    cases hentry

theorem call_simulates (hcmp : TotalOrderCmp cmp) :
    Machine.Simulates (machine cmp) mapStep mapPost Refines := by
  intro root bindings call hrefines hok
  rcases hrefines with ⟨t, entries, h⟩
  cases call with
  | insert key value alloc => exact insert_simulated hcmp h hok
  | update key value grown => exact update_simulated hcmp h key value grown
  | erase key => exact erase_simulated hcmp h key
  | eraseEx node => exact eraseEx_simulated cmp h hok
  | find key => exact find_simulated hcmp h key

/-- For every run: `map_find` returns the value that the finite map binds to the key, and nothing
exactly for an unbound key; and every further call returns what the finite map allows. -/
theorem map_refines_finite_map (hcmp : TotalOrderCmp cmp) {root : RbRoot κ}
    {log : List (Call κ × Ret κ)} (htrace : (machine cmp).Trace root log) :
    (∀ key, mapFind cmp root key = some (match contents log key with
      | some value => (0, some value)
      | none => (-2, none))) ∧
    ∀ call, callOk root call →
      ∃ ret root', callExec cmp root call = some (ret, root') ∧ mapPost (contents log) call ret := by
  have hboth := htrace.refines (fun _ ↦ none) (fun _ hinit ↦ hinit ▸ refines_init)
    (call_simulates hcmp)
  rcases hboth with ⟨⟨t, entries, h⟩, hcalls⟩
  exact ⟨fun key ↦ mapFind_eq hcmp h key, hcalls⟩

/-- Comparison of numbers by difference. -/
def numCmp (a b : ℕ) : ℤ := a - b

theorem numCmp_total : TotalOrderCmp numCmp where
  neg_iff a b := by unfold numCmp; omega
  pos_iff a b := by unfold numCmp; omega

/-- Inserts, one of them of a bound key and one refused, updates in place and into a larger buffer,
and erases by key and by value. -/
def smallCalls : List (Call ℕ) :=
  [.insert 5 [50] ⟨4, true, true⟩, .insert 7 [70] ⟨8, true, true⟩, .insert 6 [60] ⟨12, true, true⟩,
    .insert 7 [71] ⟨16, true, true⟩, .insert 8 [80] ⟨16, true, true⟩, .insert 2 [20] ⟨20, true, false⟩,
    .update 6 [61, 62] true, .update 8 [] true, .insert 9 [90] ⟨20, true, true⟩, .erase 5,
    .eraseEx 20, .erase 3]

instance (root : RbRoot ℕ) : (call : Call ℕ) → Decidable ((machine numCmp).ok root call)
  | .insert _ _ alloc =>
      have : Decidable (root.mem alloc.node = none) :=
        decidable_of_iff ((root.mem alloc.node).isNone = true) Option.isNone_iff_eq_none
      inferInstanceAs (Decidable
        (alloc.node ≠ 0 → root.mem alloc.node = none ∧ alloc.node &&& 3 = 0))
  | .update _ _ _ => inferInstanceAs (Decidable True)
  | .erase _ => inferInstanceAs (Decidable True)
  | .eraseEx node => inferInstanceAs (Decidable (node ≠ 0 → (root.mem node).isSome))
  | .find _ => inferInstanceAs (Decidable True)

theorem smallCalls_run : ((machine numCmp).execAll rbInit smallCalls).isSome := by with_unfolding_all decide

/-- The run of `smallCalls`. -/
theorem smallCalls_trace : (machine numCmp).Trace
    (((machine numCmp).execAll rbInit smallCalls).get smallCalls_run).2
    (((machine numCmp).execAll rbInit smallCalls).get smallCalls_run).1 :=
  Machine.trace_execAll rfl (by with_unfolding_all decide) (Option.some_get smallCalls_run).symm

theorem map_refines_finite_map_small :
    ∃ root log, (machine numCmp).Trace root log ∧
      mapFind numCmp root 6 = some (0, some [61, 62]) ∧ mapFind numCmp root 9 = some (-2, none) := by
  have hfind := (map_refines_finite_map numCmp_total smallCalls_trace).1
  have hsix : contents (((machine numCmp).execAll rbInit smallCalls).get smallCalls_run).1 6 =
      some [61, 62] := by with_unfolding_all decide
  have hnine : contents (((machine numCmp).execAll rbInit smallCalls).get smallCalls_run).1 9 =
      none := by with_unfolding_all decide
  refine ⟨_, _, smallCalls_trace, ?_, ?_⟩
  · rw [hfind 6, hsix]
  · rw [hfind 9, hnine]

end CPractice.RbMap
