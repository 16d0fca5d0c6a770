import CPractice.Dict.Refinement
import CPractice.Dict.Scan

/-!
# A scan of a dictionary that changes

A scan calls `dictScan` with the cursor that the call before returned, from zero until it is zero again,
and between the calls the dictionary may change.  If at each call the cursor has no bits between the two
masks, as it never has where the tables do not get smaller, each key that stays is emitted.  Where the
tables get smaller during a scan a key may be missed.
-/

namespace CPractice.Dict

open Lib

variable {ι κ ν : Type} {hash : κ → ℕ} {d : DictT κ ν} {v v' : BitVec 64} {es : List (κ × ν)}

/-- The place of a key in the order of the cursors. -/
def position (hash : κ → ℕ) (key : κ) : ℕ := (BitVec.ofNat 64 (hash key)).reverse.toNat

/-- A cursor has no bits between the masks. -/
def Aligned (d : DictT κ ν) (v : BitVec 64) : Prop :=
  isRehashing d → v.toNat % largeSize d < smallSize d

instance (d : DictT κ ν) (v : BitVec 64) : Decidable (Aligned d v) :=
  inferInstanceAs (Decidable (_ → _))

/-- The next cursor is below the size of the smaller table. -/
theorem Scanned.cursor_lt (hscanned : Scanned hash d v es v') : v'.toNat < smallSize d := by
  obtain ⟨k, hk, hsmall, hnext⟩ := hscanned.next
  rw [hsmall]
  exact toNat_lt_of_next (by omega) hnext

/-- Where the smaller table has not got smaller, the next cursor has no bits between the masks. -/
theorem Scanned.aligned (hscanned : Scanned hash d v es v') {d' : DictT κ ν}
    (hle : smallSize d ≤ smallSize d') : Aligned d' v' :=
  fun _ ↦ lt_of_le_of_lt (Nat.mod_le _ _) (lt_of_lt_of_le hscanned.cursor_lt hle)

/-- A call emits what lies between its cursors. -/
theorem Scanned.covers (h : Wf hash d) (hscanned : Scanned hash d v es v') (haligned : Aligned d v)
    {e : κ × ν} (he : e ∈ entries d) (hle : v.reverse.toNat ≤ position hash e.1)
    (hlt : v' ≠ 0 → position hash e.1 < v'.reverse.toNat) : e ∈ es := by
  obtain ⟨k, hk, hsmall, hnext⟩ := hscanned.next
  have hword : (BitVec.ofNat 64 (hash e.1)).toNat % 2 ^ k = hash e.1 % 2 ^ k := by
    rw [BitVec.toNat_ofNat, Nat.mod_mod_of_dvd _ (Nat.pow_dvd_pow 2 (by omega))]
  have hres : hash e.1 % 2 ^ k = v.toNat % 2 ^ k := by
    rw [← hword]
    exact mod_eq_of_covered (by omega) hnext hle hlt
  refine (hscanned.mem_iff e).mpr ⟨he, by rw [hsmall, hres], fun hlarge ↦ ?_⟩
  have hr : isRehashing d := by
    by_contra hidle
    rw [largeEntries, if_neg hidle] at hlarge
    cases hlarge
  obtain ⟨k', l, -, -, hkl, hsmall', hlargeSize, -⟩ := smallerFirst_spec h hr
  have hsame : 2 ^ k' = 2 ^ k := hsmall'.symm.trans hsmall
  have hdvd : 2 ^ k ∣ 2 ^ l := hsame ▸ Nat.pow_dvd_pow 2 hkl
  have hlow := haligned hr
  rw [hsmall, hlargeSize] at hlow
  rw [hlargeSize]
  calc v.toNat % 2 ^ l = v.toNat % 2 ^ l % 2 ^ k := (Nat.mod_eq_of_lt hlow).symm
    _ = v.toNat % 2 ^ k := Nat.mod_mod_of_dvd _ hdvd
    _ = hash e.1 % 2 ^ k := hres.symm
    _ = hash e.1 % 2 ^ l % 2 ^ k := (Nat.mod_mod_of_dvd _ hdvd).symm
    _ ≤ hash e.1 % 2 ^ l := Nat.mod_le _ _

/-- In every reachable state: exactly what a call of `dictScan` emits, for any cursor. -/
theorem scan_exact [DecidableEq ι] [Fintype ι] [DecidableEq κ] {s : Process ι κ ν}
    {log : List (Call ι κ ν × Ret κ ν)} (htrace : (machine ι ν hash).Trace s log)
    (hsize : dictSize s.d ≠ 0) (v : BitVec 64) :
    ∃ es v', dictScan s.d v = some (es, v') ∧ Scanned hash s.d v es v' := by
  have hrelated := htrace.related (fun _ ↦ none, fun _ ↦ none) (fun _ hinit ↦ hinit ▸ related_init hash)
    (call_simulates hash)
  exact dictScan_spec hrelated.wf hsize v

theorem scan_exact_growing : ∃ (s : Process Unit ℕ ℕ) (log : List (Call Unit ℕ ℕ × Ret ℕ ℕ)),
    (machine Unit ℕ id).Trace s log ∧ isRehashing s.d ∧
      ∃ es v', dictScan s.d 1 = some (es, v') ∧ Scanned id s.d 1 es v' :=
  ⟨_, _, growingCalls_trace, by with_unfolding_all decide,
    scan_exact growingCalls_trace (by with_unfolding_all decide) 1⟩

/-! ## Runs -/

/-- A process and the cursor of a scan. -/
structure Scanning (ι κ ν : Type) where
  process : Process ι κ ν
  cursor : BitVec 64

inductive ScanCall (ι κ ν : Type) where
  | op (call : Call ι κ ν)
  | scan

inductive ScanRet (κ ν : Type) where
  | ret (ret : Ret κ ν)
  | emitted (es : List (κ × ν)) (cursor : BitVec 64)

def ScanRet.entries : ScanRet κ ν → List (κ × ν)
  | .ret _ => []
  | .emitted es _ => es

variable [DecidableEq ι] [DecidableEq κ]

def scanMachine (ι ν : Type) [DecidableEq ι] (hash : κ → ℕ) :
    Machine (Scanning ι κ ν) (ScanCall ι κ ν) (ScanRet κ ν) where
  init s := s = ⟨⟨dictCreate, true, fun _ ↦ none⟩, 0⟩
  ok s
    | .op call => s.process.Ok call
    | .scan => Aligned s.process.d s.cursor
  exec s
    | .op call => do
        let (ret, process) ← s.process.exec hash call
        some (.ret ret, { s with process := process })
    | .scan => do
        let (es, cursor) ← dictScan s.process.d s.cursor
        some (.emitted es cursor, { s with cursor := cursor })

/-- The keys of a scan after a call of `dictScan`. -/
def Pass.scan (unbound : Set κ) (keys : List κ) (cursor : BitVec 64) : Pass κ → Pass κ
  | .running emitted gone =>
      if cursor = 0 then .ended (emitted ++ keys) gone else .running (emitted ++ keys) gone
  | _ => if cursor = 0 then .ended keys unbound else .running keys unbound

/-- The keys that a call takes away. -/
def removed : Call ι κ ν → Ret κ ν → Set κ
  | .delete key, .code ret => {k | k = key ∧ ret = dictOk}
  | .empty, _ => Set.univ
  | _, _ => ∅

/-- The keys of a scan after another call. -/
def Pass.op (pass : Pass κ) (call : Call ι κ ν) (ret : Ret κ ν) : Pass κ :=
  match pass with
  | .running emitted gone => .running emitted (gone ∪ removed call ret)
  | pass => pass

def scanStep (spec : Spec ι κ ν × Pass κ) : ScanCall ι κ ν → ScanRet κ ν → Spec ι κ ν × Pass κ
  | .op call, .ret ret => (specStep spec.1 call ret, spec.2.op call ret)
  | .scan, .emitted es cursor =>
      (spec.1, spec.2.scan {k | spec.1.1 k = none} (es.map Prod.fst) cursor)
  | _, _ => spec

/-- What a call of a run with scans returns. -/
def scanPost (spec : Spec ι κ ν × Pass κ) : ScanCall ι κ ν → ScanRet κ ν → Prop
  | .op call, ret => ∃ r, ret = .ret r ∧ mapPost spec.1.1 call r
  | .scan, ret => ∃ es cursor, ret = .emitted es cursor ∧ ∀ e ∈ es, spec.1.1 e.1 = some e.2

def scanSpec (log : List (ScanCall ι κ ν × ScanRet κ ν)) : Spec ι κ ν × Pass κ :=
  Machine.replay scanStep ((fun _ ↦ none, fun _ ↦ none), .fresh) log

/-- What is below the cursor has been emitted. -/
inductive CursorHolds (hash : κ → ℕ) (m : κ → Option ν) (v : BitVec 64) : Pass κ → Prop where
  | fresh (hzero : v = 0) : CursorHolds hash m v .fresh
  | running {emitted : List κ} {gone : Set κ}
      (hseen : ∀ k ∉ gone, m k ≠ none ∧ (position hash k < v.reverse.toNat → k ∈ emitted)) :
      CursorHolds hash m v (.running emitted gone)
  | ended {emitted : List κ} {gone : Set κ} (hzero : v = 0) (hseen : ∀ k ∉ gone, k ∈ emitted) :
      CursorHolds hash m v (.ended emitted gone)

omit [DecidableEq κ] in
/-- A call emits what lies between its cursors, and the scan goes on from the next one. -/
theorem CursorHolds.scan {m : κ → Option ν} {pass : Pass κ} (h : CursorHolds hash m v pass)
    (hcovers : ∀ k, m k ≠ none → v.reverse.toNat ≤ position hash k →
      (v' ≠ 0 → position hash k < v'.reverse.toNat) → k ∈ es.map Prod.fst) :
    CursorHolds hash m v' (pass.scan {k | m k = none} (es.map Prod.fst) v') := by
  -- the keys that stay, where those below the cursor have been emitted
  have hall : ∀ emitted : List κ, ∀ k, m k ≠ none → (position hash k < v.reverse.toNat → k ∈ emitted) →
      (v' ≠ 0 → position hash k < v'.reverse.toNat) → k ∈ emitted ++ es.map Prod.fst := by
    intro emitted k hk hseen hbelow
    rw [List.mem_append]
    by_cases hlt : position hash k < v.reverse.toNat
    · exact .inl (hseen hlt)
    · exact .inr (hcovers k hk (Nat.not_lt.mp hlt) hbelow)
  have hstart : v = 0 → ∀ k, position hash k < v.reverse.toNat → k ∈ ([] : List κ) := by
    rintro rfl k hlt
    rw [show (0 : BitVec 64).reverse = 0#64 from BitVec.reverse_eq_zero_iff.mpr rfl] at hlt
    exact absurd hlt (Nat.not_lt_zero _)
  have hgo : ∀ (emitted : List κ) (gone : Set κ),
      (∀ k ∉ gone, m k ≠ none ∧ (position hash k < v.reverse.toNat → k ∈ emitted)) →
      CursorHolds hash m v' (if v' = 0 then .ended (emitted ++ es.map Prod.fst) gone
        else .running (emitted ++ es.map Prod.fst) gone) := by
    intro emitted gone hseen
    split
    · next hzero =>
        exact .ended hzero fun k hk ↦ hall emitted k (hseen k hk).1 (hseen k hk).2 fun hne ↦ absurd hzero hne
    · exact .running fun k hk ↦ ⟨(hseen k hk).1, fun hlt ↦
        hall emitted k (hseen k hk).1 (hseen k hk).2 fun _ ↦ hlt⟩
  cases h with
  | fresh hzero => exact hgo [] _ fun k hk ↦ ⟨hk, hstart hzero k⟩
  | running hseen => exact hgo _ _ hseen
  | ended hzero _ => exact hgo [] _ fun k hk ↦ ⟨hk, hstart hzero k⟩

omit [DecidableEq ι] in
/-- Another call leaves in the map what it does not take away. -/
theorem mapStep_ne_none {m : κ → Option ν} {call : Call ι κ ν} {ret : Ret κ ν} {k : κ} (hk : m k ≠ none)
    (hstay : k ∉ removed call ret) : mapStep m call ret k ≠ none := by
  have hupdate : ∀ key val, Function.update m key (some val) k ≠ none := by
    intro key val
    rw [Function.update_apply]
    split
    · exact Option.some_ne_none val
    · exact hk
  cases call with
  | add key val =>
      cases ret with
      | code ret =>
          rw [mapStep]
          split
          · exact hupdate key val
          · exact hk
      | _ => exact hk
  | replace key val => exact hupdate key val
  | delete key =>
      cases ret with
      | code ret =>
          rw [mapStep]
          split
          · next hok =>
              rw [Function.update_of_ne fun heq ↦ hstay ⟨heq, hok⟩]
              exact hk
          · exact hk
      | _ => exact hk
  | empty => exact absurd (Set.mem_univ k) hstay
  | _ => exact hk

omit [DecidableEq ι] in
theorem CursorHolds.op {m : κ → Option ν} {pass : Pass κ} (h : CursorHolds hash m v pass)
    (call : Call ι κ ν) (ret : Ret κ ν) : CursorHolds hash (mapStep m call ret) v (pass.op call ret) := by
  cases h with
  | fresh hzero => exact .fresh hzero
  | running hseen =>
      refine .running fun k hk ↦ ?_
      obtain ⟨hbound, hbelow⟩ := hseen k fun hin ↦ hk (Set.mem_union_left _ hin)
      exact ⟨mapStep_ne_none hbound fun hin ↦ hk (Set.mem_union_right _ hin), hbelow⟩
  | ended hzero hseen => exact .ended hzero hseen

variable [Fintype ι]

structure ScanRelated (hash : κ → ℕ) (s : Scanning ι κ ν) (spec : Spec ι κ ν × Pass κ) : Prop where
  related : Related hash s.process spec.1
  cursor : CursorHolds hash spec.1.1 s.cursor spec.2

theorem scan_simulates (hash : κ → ℕ) :
    Machine.Simulates (scanMachine ι ν hash) scanStep scanPost (ScanRelated hash) := by
  intro s spec call h hok
  cases call with
  | op call =>
      obtain ⟨ret, process, hexec, hpost, hrelated⟩ := call_simulates hash s.process spec.1 call h.related hok
      have hthis : (scanMachine ι ν hash).exec s (.op call) =
          some (.ret ret, { s with process := process }) := by
        simp only [scanMachine]
        rw [show s.process.exec hash call = some (ret, process) from hexec]
        rfl
      exact ⟨.ret ret, _, hthis, ⟨ret, rfl, hpost⟩, hrelated, h.cursor.op call ret⟩
  | scan =>
      have hwf := h.related.wf
      by_cases hsize : dictSize s.process.d = 0
      · have hthis : (scanMachine ι ν hash).exec s .scan =
            some (.emitted [] 0, { s with cursor := 0 }) := by
          simp only [scanMachine, dictScan, if_pos hsize, Option.bind_eq_bind, Option.bind_some]
        have hempty : entries s.process.d = [] := by
          rw [← List.length_eq_zero_iff, ← hwf.size_eq, hsize]
        refine ⟨.emitted [] 0, _, hthis, ⟨[], 0, rfl, fun e he ↦ absurd he List.not_mem_nil⟩, h.related,
          h.cursor.scan fun k hk _ _ ↦ ?_⟩
        have hmem := h.related.mem_keys_iff.mpr hk
        rw [hempty] at hmem
        exact hmem
      · obtain ⟨es, cursor, hscan, hscanned⟩ := dictScan_spec hwf hsize s.cursor
        have hthis : (scanMachine ι ν hash).exec s .scan =
            some (.emitted es cursor, { s with cursor := cursor }) := by
          simp only [scanMachine, hscan, Option.bind_eq_bind, Option.bind_some]
        refine ⟨.emitted es cursor, _, hthis, ⟨es, cursor, rfl, fun e he ↦ ?_⟩, h.related,
          h.cursor.scan fun k hk hle hlt ↦ ?_⟩
        · exact h.related.binds.eq_some ((hscanned.mem_iff e).mp he).1
        · obtain ⟨e, he, rfl⟩ := List.mem_map.mp (h.related.mem_keys_iff.mpr hk)
          exact List.mem_map_of_mem (hscanned.covers hwf hok he hle hlt)

/-- For every run: when a scan has come back to the cursor zero, it has emitted each key that was there at
its first call and stayed; and all that a call emits is in the dictionary. -/
theorem scan_complete {s : Scanning ι κ ν} {log : List (ScanCall ι κ ν × ScanRet κ ν)}
    (htrace : (scanMachine ι ν hash).Trace s log) :
    (∀ emitted gone, (scanSpec log).2 = .ended emitted gone → ∀ k ∉ gone, k ∈ emitted) ∧
      ∀ call, (scanMachine ι ν hash).ok s call → ∃ ret s',
        (scanMachine ι ν hash).exec s call = some (ret, s') ∧ scanPost (scanSpec log) call ret := by
  have hboth := htrace.refines ((fun _ ↦ none, fun _ ↦ none), Pass.fresh)
    (fun _ hinit ↦ hinit ▸ ⟨related_init hash, .fresh rfl⟩) (scan_simulates hash)
  refine ⟨fun emitted gone hp ↦ ?_, hboth.2⟩
  have hcursor : CursorHolds hash (scanSpec log).1.1 s.cursor (scanSpec log).2 := hboth.1.cursor
  rw [hp] at hcursor
  cases hcursor with
  | ended _ hseen => exact hseen

/-- A scan of a dictionary that begins to rehash into a larger table. -/
def growingScan : List (ScanCall Unit ℕ ℕ) :=
  [.op (.add 1 10), .op (.add 5 50), .op (.add 9 90), .op (.add 2 20), .scan, .op (.add 3 30), .scan,
    .op (.delete 9), .scan, .op (.add 6 60), .scan, .scan]

instance (hash : κ → ℕ) (s : Scanning ι κ ν) : (call : ScanCall ι κ ν) →
    Decidable ((scanMachine ι ν hash).ok s call)
  | .op call => inferInstanceAs (Decidable (s.process.Ok call))
  | .scan => inferInstanceAs (Decidable (Aligned s.process.d s.cursor))

theorem growingScan_run : ((scanMachine Unit ℕ (id : ℕ → ℕ)).execAll ⟨⟨dictCreate, true, fun _ ↦ none⟩, 0⟩
    growingScan).isSome := by with_unfolding_all decide

theorem growingScan_trace : (scanMachine Unit ℕ (id : ℕ → ℕ)).Trace
    (((scanMachine Unit ℕ id).execAll ⟨⟨dictCreate, true, fun _ ↦ none⟩, 0⟩ growingScan).get growingScan_run).2
    (((scanMachine Unit ℕ id).execAll ⟨⟨dictCreate, true, fun _ ↦ none⟩, 0⟩ growingScan).get
      growingScan_run).1 :=
  Machine.trace_execAll rfl (by with_unfolding_all decide) (Option.some_get growingScan_run).symm

theorem scan_complete_growing : ∃ (s : Scanning Unit ℕ ℕ) (log : List (ScanCall Unit ℕ ℕ × ScanRet ℕ ℕ)),
    (scanMachine Unit ℕ id).Trace s log ∧
      ∃ emitted gone, (scanSpec log).2 = .ended emitted gone ∧ 5 ∈ emitted := by
  refine ⟨_, _, growingScan_trace, [2, 1, 5, 3], _, by with_unfolding_all rfl, ?_⟩
  apply (scan_complete growingScan_trace).1 _ _ (by with_unfolding_all rfl) 5
  rintro (((hunbound | hadd) | hdelete) | hadd)
  · exact absurd hunbound (Option.some_ne_none 50)
  · exact hadd
  · exact absurd hdelete.1 (by decide)
  · exact hadd

/-- A scan of a dictionary that begins to rehash into a smaller table: `dictScan` takes the buckets between
the masks in their plain order from the cursor on, and the cursor has reversed them. -/
def shrinkingScan : List (ScanCall Unit ℕ ℕ) :=
  [.op (.expand 16), .op (.add 4 40), .scan, .op .resize, .scan, .scan, .scan, .scan]

-- The scan is over, and the only key has not been emitted.
example : (((scanMachine Unit ℕ id).execAll ⟨⟨dictCreate, true, fun _ ↦ none⟩, 0⟩ shrinkingScan).map fun out ↦
    (out.2.cursor, dictSize out.2.process.d, out.1.flatMap fun entry ↦ entry.2.entries)) = some (0, 1, []) := by
  with_unfolding_all decide

end CPractice.Dict
