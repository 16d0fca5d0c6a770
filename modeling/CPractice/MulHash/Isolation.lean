import CPractice.MulHash.Unique
import Mathlib.Data.List.Find

/-!
# Keys do not interfere

A store into one slot changes no other slot as long as the element size does not wrap, and a find
reads the slots of its own key only.  So an operation on one key leaves what is found for another
one, whether or not keys are stored twice.
-/

namespace CPractice.MulHash

open Hash Lib Math

/-- The value in a cell. -/
def Cell.value : Cell → Option Bytes
  | .elem _ value => some value
  | _ => none

/-- The key of a call. -/
def Call.key : Call → Bytes
  | .insert key _ => key
  | .find key => key
  | .erase key => key

variable {cmp : Bytes → Bytes → ℤ} {hash : Bytes → ℕ} {mh mh' : MulHashT} {key value : Bytes}

/-- `mul_hash_find` reads the first slot of its key that holds the key. -/
theorem mulHashFind_eq (hcmp : ∀ a b, cmp a b = 0 ↔ a = b) (h : Sound hash mh) (hkey : key ≠ []) :
    mulHashFind cmp hash mh key =
      some (match (mh.roots (hash key)).find? fun root ↦ findStops cmp key (mh.cells root) with
        | none => (-2, none)
        | some root => (0, (mh.cells root).value)) := by
  rw [mulHashFind, if_neg hkey, h.walk_eq _ (List.Subset.refl _), Option.bind_eq_bind,
    Option.bind_some]
  cases hfind : (mh.roots (hash key)).find? fun root ↦ findStops cmp key (mh.cells root) with
  | none => rfl
  | some root =>
      have hstop : findStops cmp key (mh.cells root) := by simpa using List.find?_some hfind
      rcases (findStops_iff hcmp _).mp hstop with ⟨value, -, hcell⟩
      simp only [hcell, Cell.value]

/-- A store that takes out no element of a key and puts none in leaves what is found for it. -/
theorem Stored.find_eq {root : ℕ} {cell : Cell} (hstored : Stored mh mh' root cell)
    (hcmp : ∀ a b, cmp a b = 0 ↔ a = b) (h : Sound hash mh) (h' : Sound hash mh')
    (hold : ∀ value, mh.cells root ≠ .elem key value) (hnew : ∀ value, cell ≠ .elem key value) :
    mulHashFind cmp hash mh' key = mulHashFind cmp hash mh key := by
  by_cases hkey : key = []
  · rw [mulHashFind, mulHashFind, if_pos hkey, if_pos hkey]
  · have hcells : ∀ other ∈ mh.roots (hash key), other ≠ root → mh'.cells other = mh.cells other := by
      intro other hother hne
      rcases h.layout.mem_roots hother with ⟨j, rfl, -⟩
      exact hstored.elsewhere j hne
    have hsilent : ∀ c : Cell, (∀ value, c ≠ .elem key value) → findStops cmp key c = false := by
      intro c hc
      rw [Bool.eq_false_iff]
      intro hstop
      rcases (findStops_iff hcmp c).mp hstop with ⟨value, -, hcell⟩
      exact hc value hcell
    have hstops : ∀ other ∈ mh.roots (hash key),
        findStops cmp key (mh'.cells other) = findStops cmp key (mh.cells other) := by
      intro other hother
      by_cases heq : other = root
      · rw [heq, hstored.at_root, hsilent cell hnew, hsilent _ hold]
      · rw [hcells other hother heq]
    rw [mulHashFind_eq hcmp h' hkey, mulHashFind_eq hcmp h hkey, hstored.roots_eq,
      List.find?_congr hstops]
    cases hfind : (mh.roots (hash key)).find? fun root ↦ findStops cmp key (mh.cells root) with
    | none => rfl
    | some other =>
        have hstop : findStops cmp key (mh.cells other) := by simpa using List.find?_some hfind
        have hne : other ≠ root := by
          rintro rfl
          rw [hsilent _ hold] at hstop
          cases hstop
        simp only [hcells other (List.mem_of_find?_eq_some hfind) hne]

/-! ## One operation -/

theorem mulHashInsert_sound (hcmp : ∀ a b, cmp a b = 0 ↔ a = b) (h : Sound hash mh)
    (key value : Bytes) :
    ∃ ret mh', mulHashInsert hash mh key value = some (ret, mh') ∧ Sound hash mh' ∧
      ∀ other, other ≠ key → mulHashFind cmp hash mh' other = mulHashFind cmp hash mh other := by
  by_cases hlegal : legal mh key value
  · rcases mulHashInsert_cases h hlegal with ⟨hfull, -⟩ | ⟨root, mh', hinsert, hroot, hzero, hstored⟩
    · exact ⟨-2, mh, hfull, h, fun _ _ ↦ rfl⟩
    · have hsound : Sound hash mh' := by
        apply hstored.sound h (by simp)
        intro key' value' heq
        obtain ⟨rfl, rfl⟩ := Cell.elem.inj heq
        exact ⟨hroot, hlegal.1, hlegal.2.1, hlegal.2.2.1, hlegal.2.2.2⟩
      refine ⟨0, mh', hinsert, hsound, ?_⟩
      intro other hne
      apply hstored.find_eq hcmp h hsound
      · intro value' hcell
        rw [hzero] at hcell
        cases hcell
      · intro value' hcell
        exact hne (Cell.elem.inj hcell).1.symm
  · exact ⟨-1, mh, mulHashInsert_illegal hlegal, h, fun _ _ ↦ rfl⟩

theorem mulHashErase_sound (hcmp : ∀ a b, cmp a b = 0 ↔ a = b) (h : Sound hash mh) (key : Bytes) :
    ∃ ret mh', mulHashErase cmp hash mh key = some (ret, mh') ∧ Sound hash mh' ∧
      ∀ other, other ≠ key → mulHashFind cmp hash mh' other = mulHashFind cmp hash mh other := by
  rcases mulHashErase_cases hcmp h key with
    ⟨ret, -, herase⟩ | ⟨root, value, mh', herase, -, hcell, hstored⟩
  · exact ⟨ret, mh, herase, h, fun _ _ ↦ rfl⟩
  · have hsound : Sound hash mh' := by
      apply hstored.sound h (by simp)
      intro key' value' heq
      cases heq
    refine ⟨0, mh', herase, hsound, ?_⟩
    intro other hne
    apply hstored.find_eq hcmp h hsound
    · intro value' hother
      rw [hcell] at hother
      exact hne (Cell.elem.inj hother).1.symm
    · intro value' hother
      cases hother

theorem mulHashFind_defined (hcmp : ∀ a b, cmp a b = 0 ↔ a = b) (h : Sound hash mh) (key : Bytes) :
    ∃ out, mulHashFind cmp hash mh key = some out := by
  by_cases hkey : key = []
  · exact ⟨_, by rw [mulHashFind, if_pos hkey]⟩
  · exact ⟨_, mulHashFind_eq hcmp h hkey⟩

theorem callExec_sound (hcmp : ∀ a b, cmp a b = 0 ↔ a = b) (h : Sound hash mh) (call : Call) :
    ∃ ret mh', callExec cmp hash mh call = some (ret, mh') ∧ Sound hash mh' ∧
      ∀ other, other ≠ call.key →
        mulHashFind cmp hash mh' other = mulHashFind cmp hash mh other := by
  cases call with
  | insert key value =>
      rcases mulHashInsert_sound hcmp h key value with ⟨ret, mh', hinsert, hrest⟩
      exact ⟨.code ret, mh', by rw [callExec, hinsert]; rfl, hrest⟩
  | find key =>
      rcases mulHashFind_defined hcmp h key with ⟨out, hfind⟩
      exact ⟨.found out.1 out.2, mh, by rw [callExec, hfind]; rfl, h, fun _ _ ↦ rfl⟩
  | erase key =>
      rcases mulHashErase_sound hcmp h key with ⟨ret, mh', herase, hrest⟩
      exact ⟨.code ret, mh', by rw [callExec, herase]; rfl, hrest⟩

/-! ## Runs -/

/-- The tables whose element size does not wrap, with every call. -/
def fittingMachine (cmp : Bytes → Bytes → ℤ) (hash : Bytes → ℕ) : Machine MulHashT Call Ret where
  init mh := fromInit mh ∧ headerSize + mh.maxKeySize + mh.maxValueSize < 4294967296
  ok _ _ := True
  exec := callExec cmp hash

theorem sound_trace (hcmp : ∀ a b, cmp a b = 0 ↔ a = b) {log : List (Call × Ret)}
    (htrace : (fittingMachine cmp hash).Trace mh log) : Sound hash mh := by
  apply htrace.invariant (Sound hash)
  · rintro mh ⟨⟨row, col, maxKeySize, maxValueSize, -, -, hinit⟩, hfits⟩
    exact (inv_init hinit hfits).toSound
  · intro mh call r mh' h _ hexec
    rcases callExec_sound hcmp h call with ⟨ret, mh₁, hrun, hsound, -⟩
    obtain ⟨rfl, rfl⟩ : ret = r ∧ mh₁ = mh' := by
      have hsame := hrun.symm.trans hexec
      exact Prod.mk.inj (Option.some.inj hsame)
    exact hsound

/-- In every run whose element size does not wrap: no call on one key changes what is found for
another key; and a legal insert of a key that is stored nowhere returns `0` exactly when one of the
key's slots is empty, and then the key is found with its value. -/
theorem keys_do_not_interfere (hcmp : ∀ a b, cmp a b = 0 ↔ a = b) {log : List (Call × Ret)}
    (htrace : (fittingMachine cmp hash).Trace mh log) :
    (∀ call, ∃ ret mh', callExec cmp hash mh call = some (ret, mh') ∧
      ∀ other, other ≠ call.key →
        mulHashFind cmp hash mh' other = mulHashFind cmp hash mh other) ∧
    ∀ key value, legal mh key value → (∀ root value', mh.cells root ≠ .elem key value') →
      ∃ ret mh', mulHashInsert hash mh key value = some (ret, mh') ∧
        (ret = 0 ↔ ∃ root ∈ mh.roots (hash key), mh.cells root = .zero) ∧
        (ret = 0 → mulHashFind cmp hash mh' key = some (0, some value)) := by
  have h := sound_trace hcmp htrace
  refine ⟨?_, ?_⟩
  · intro call
    rcases callExec_sound hcmp h call with ⟨ret, mh', hexec, -, hframe⟩
    exact ⟨ret, mh', hexec, hframe⟩
  · intro key value hlegal hmiss
    rcases mulHashInsert_cases h hlegal with ⟨hfull, hnone⟩ | ⟨root, mh', hinsert, hroot, hzero, hstored⟩
    · refine ⟨-2, mh, hfull, ?_, fun hret ↦ by cases hret⟩
      constructor
      · intro hret
        cases hret
      · rintro ⟨root, hroot, hzero⟩
        exact absurd hzero (hnone root hroot)
    · refine ⟨0, mh', hinsert, ⟨fun _ ↦ ⟨root, hroot, hzero⟩, fun _ ↦ rfl⟩, fun _ ↦ ?_⟩
      have hsound : Sound hash mh' := by
        rcases mulHashInsert_sound hcmp h key value with ⟨ret, mh₁, hrun, hsound, -⟩
        rw [hinsert] at hrun
        cases hrun
        exact hsound
      apply mulHashFind_only hcmp hsound hstored.at_root
      intro other value' hother
      by_contra hne
      exact hmiss other value' (hstored.elems other key value' hne hother)

theorem keys_do_not_interfere_small :
    ∃ mh log, (fittingMachine bytesCmp bkdr64).Trace mh log ∧ log = [(.insert [1] [7], .code 0)] ∧
      ∃ ret mh', callExec bytesCmp bkdr64 mh (.erase [2]) = some (ret, mh') ∧
        mulHashFind bytesCmp bkdr64 mh' [1] = some (0, some [7]) := by
  have htrace := Machine.Trace.call (M := fittingMachine bytesCmp bkdr64)
    (i := .insert [1] [7])
    (.init ⟨twoRows_fromInit, by decide⟩) trivial (Option.some_get insert_runs).symm
  rcases (keys_do_not_interfere bytesCmp_zero_iff htrace).1 (.erase [2]) with
    ⟨ret, mh', hexec, hframe⟩
  refine ⟨_, _, htrace, by with_unfolding_all decide, ret, mh', hexec, ?_⟩
  rw [hframe [1] (by decide)]
  with_unfolding_all decide

/-- A table for values of up to `2 ^ 32 - 1` bytes: the element size wraps to 24. -/
def wrappedRows : MulHashT := ⟨1, 4294967295, [5, 7], 288, fun _ ↦ .zero⟩

theorem wrappedRows_init : mulHashInit 2 3 1 4294967295 = some (some wrappedRows) := by
  have hprimes : getPrimeArr 3 2 = some [5, 7] := by decide
  have hsize : elemSize 1 4294967295 = 24 := by
    unfold elemSize u4
    decide
  rw [mulHashInit, if_neg (by decide)]
  simp [hprimes, n8, hsize, prologSize, wrappedRows]

theorem wrappedRows_fromInit : fromInit wrappedRows :=
  ⟨2, 3, 1, 4294967295, by decide, by decide, wrappedRows_init⟩

theorem wrappedInsert_runs :
    (callExec bytesCmp bkdr64 wrappedRows (.insert [2] [9])).isSome := by with_unfolding_all decide

theorem secondInsert_runs :
    (mulHashInsert bkdr64 ((callExec bytesCmp bkdr64 wrappedRows (.insert [2] [9])).get
      wrappedInsert_runs).2 [1] [7]).isSome := by with_unfolding_all decide

/-- The key `2` is stored with its value; an insert of the key `1` into the slot before it writes over
its headers. -/
theorem insert_overwrites_other_key :
    ∃ mh log ret mh', (machine bytesCmp bkdr64).Trace mh log ∧
      mulHashFind bytesCmp bkdr64 mh [2] = some (0, some [9]) ∧
      mulHashInsert bkdr64 mh [1] [7] = some (ret, mh') ∧ ret = 0 ∧
      mulHashFind bytesCmp bkdr64 mh' [2] = none := by
  have htrace := Machine.Trace.call (M := machine bytesCmp bkdr64) (i := .insert [2] [9])
    (.init wrappedRows_fromInit) trivial (Option.some_get wrappedInsert_runs).symm
  exact ⟨_, _, _, _, htrace, by with_unfolding_all decide, (Option.some_get secondInsert_runs).symm,
    by with_unfolding_all decide, by with_unfolding_all decide⟩

end CPractice.MulHash
