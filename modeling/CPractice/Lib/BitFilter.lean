import CPractice.Lib.Refinement
import Mathlib.Data.BitVec

/-!
# Sets of bits, and filters that answer membership by them

An array of bytes is a set of bit positions, the lowest bit of a byte first.  A filter maps an element
to positions: adding the element sets them, and it is reported as a member if all of them are set.
`FilterLaws` is what an implementation owes; then along every run an element that was added, or
reported once, is reported from there on.
-/

namespace CPractice.Lib

/-! ## Bits of a byte array -/

/-- The bit at a position, `false` behind the end. -/
def bitAt (bytes : List (BitVec 8)) (pos : ℕ) : Bool :=
  (bytes[pos / 8]?.getD 0).getLsbD (pos % 8)

/-- Set one bit; `none` behind the end. -/
def orBit (bytes : List (BitVec 8)) (pos : ℕ) : Option (List (BitVec 8)) :=
  (bytes[pos / 8]?).map fun byte ↦ bytes.set (pos / 8) (byte ||| BitVec.twoPow 8 (pos % 8))

theorem orBit_spec {bytes : List (BitVec 8)} {pos : ℕ} (hpos : pos / 8 < bytes.length) :
    ∃ bytes', orBit bytes pos = some bytes' ∧ bytes'.length = bytes.length ∧
      ∀ other, bitAt bytes' other = (bitAt bytes other || decide (other = pos)) := by
  refine ⟨_, by rw [orBit, List.getElem?_eq_getElem hpos, Option.map_some], List.length_set, ?_⟩
  intro other
  unfold bitAt
  by_cases hbyte : other / 8 = pos / 8
  · have hsame : pos % 8 = other % 8 ↔ other = pos := by omega
    rw [hbyte, List.getElem?_set_self hpos, List.getElem?_eq_getElem hpos, Option.getD_some,
      Option.getD_some, BitVec.getLsbD_or, BitVec.getLsbD_twoPow]
    simp [hsame, Nat.mod_lt pos (show 0 < 8 by decide)]
  · have hne : other ≠ pos := fun heq ↦ hbyte (by rw [heq])
    rw [List.getElem?_set_ne (Ne.symm hbyte), decide_eq_false hne, Bool.or_false]

/-- Setting several bits, one after the other. -/
theorem orBits_spec {positions : List ℕ} {bytes : List (BitVec 8)}
    (hpos : ∀ pos ∈ positions, pos / 8 < bytes.length) :
    ∃ bytes', positions.foldlM orBit bytes = some bytes' ∧ bytes'.length = bytes.length ∧
      ∀ other, bitAt bytes' other = (bitAt bytes other || decide (other ∈ positions)) := by
  induction positions generalizing bytes with
  | nil => exact ⟨bytes, rfl, rfl, by simp⟩
  | cons pos positions ih =>
      rcases List.forall_mem_cons.mp hpos with ⟨hhead, hrest⟩
      rcases orBit_spec hhead with ⟨mid, hmid, hlength, hbit⟩
      rcases ih (hlength.symm ▸ hrest) with ⟨bytes', hfold, hlength', hbit'⟩
      refine ⟨bytes', ?_, hlength'.trans hlength, ?_⟩
      · rw [List.foldlM_cons, hmid, Option.bind_eq_bind, Option.bind_some, hfold]
      · intro other
        rw [hbit', hbit, Bool.or_assoc]
        simp

/-! ## Filters -/

/-- The calls of a filter. -/
inductive FilterCall (α : Type*) where
  | add (x : α)
  | find (x : α)
  deriving DecidableEq

/-- What the calls return. -/
inductive FilterRet where
  | added
  | found (member : Bool)
  deriving DecidableEq

/-- How a filter is seen: its size, its bits and the positions of an element. -/
structure FilterView (σ α : Type*) where
  size : σ → ℕ
  bit : σ → ℕ → Bool
  positions : σ → α → List ℕ

variable {σ α : Type*} {M : Machine σ (FilterCall α) FilterRet} {V : FilterView σ α}
  {s : σ} {log : List (FilterCall α × FilterRet)}

/-- What an implementation owes: in the states that satisfy the invariant, positions are inside,
adding sets the positions of the element and no other bit, and finding tests them. -/
structure FilterLaws (M : Machine σ (FilterCall α) FilterRet) (V : FilterView σ α) (Inv : σ → Prop) :
    Prop where
  init : ∀ s, M.init s → Inv s
  inside : ∀ s x, Inv s → ∀ pos ∈ V.positions s x, pos < V.size s ∧ pos / 8 < V.size s / 8
  add : ∀ s x, Inv s → ∃ s', M.exec s (.add x) = some (.added, s') ∧ Inv s' ∧
    V.positions s' = V.positions s ∧
    ∀ pos, V.bit s' pos = (V.bit s pos || decide (pos ∈ V.positions s x))
  find : ∀ s x, Inv s →
    M.exec s (.find x) = some (.found ((V.positions s x).all (V.bit s)), s)

/-- The element is reported as a member. -/
def Reported (M : Machine σ (FilterCall α) FilterRet) (s : σ) (x : α) : Prop :=
  M.exec s (.find x) = some (.found true, s)

/-- What holds of a filter after a run: what was added or reported is reported, an operation stays
inside and is defined, and adding never clears a bit. -/
structure NoFalseNegatives (M : Machine σ (FilterCall α) FilterRet) (V : FilterView σ α) (s : σ)
    (log : List (FilterCall α × FilterRet)) : Prop where
  added : ∀ x, (.add x, .added) ∈ log → Reported M s x
  reported : ∀ x, (.find x, .found true) ∈ log → Reported M s x
  inside : ∀ x, ∀ pos ∈ V.positions s x, pos < V.size s ∧ pos / 8 < V.size s / 8
  defined : ∀ call, ∃ out, M.exec s call = some out
  kept : ∀ x r s', M.exec s (.add x) = some (r, s') → ∀ pos, V.bit s pos → V.bit s' pos

namespace FilterLaws

variable {Inv : σ → Prop}

theorem reported_iff (laws : FilterLaws M V Inv) (h : Inv s) (x : α) :
    Reported M s x ↔ ∀ pos ∈ V.positions s x, V.bit s pos := by
  rw [Reported, laws.find s x h]
  simp

/-- Adding keeps every bit and sets the positions of its element. -/
theorem add_eq_some (laws : FilterLaws M V Inv) (h : Inv s) {x : α} {r : FilterRet} {s' : σ}
    (hexec : M.exec s (.add x) = some (r, s')) :
    Inv s' ∧ V.positions s' = V.positions s ∧
      ∀ pos, V.bit s' pos = (V.bit s pos || decide (pos ∈ V.positions s x)) := by
  rcases laws.add s x h with ⟨s₁, hadd, hrest⟩
  obtain ⟨-, rfl⟩ := Prod.mk.inj (Option.some.inj (hadd.symm.trans hexec))
  exact hrest

theorem find_eq_some (laws : FilterLaws M V Inv) (h : Inv s) {x : α} {r : FilterRet} {s' : σ}
    (hexec : M.exec s (.find x) = some (r, s')) :
    r = .found ((V.positions s x).all (V.bit s)) ∧ s' = s := by
  have hpair := Prod.mk.inj (Option.some.inj ((laws.find s x h).symm.trans hexec))
  exact ⟨hpair.1.symm, hpair.2.symm⟩

/-- The invariant along a run. -/
theorem inv_trace (laws : FilterLaws M V Inv) (htrace : M.Trace s log) : Inv s := by
  apply htrace.invariant Inv laws.init
  intro s call r s' h _ hexec
  cases call with
  | add x => exact (laws.add_eq_some h hexec).1
  | find x => rwa [(laws.find_eq_some h hexec).2]

/-- Whatever is reported stays reported. -/
theorem reported_call (laws : FilterLaws M V Inv) (h : Inv s) {call : FilterCall α} {r : FilterRet}
    {s' : σ} (hexec : M.exec s call = some (r, s')) {x : α} (hx : Reported M s x) :
    Reported M s' x := by
  cases call with
  | add y =>
      rcases laws.add_eq_some h hexec with ⟨h', hpositions, hbit⟩
      rw [laws.reported_iff h] at hx
      rw [laws.reported_iff h', hpositions]
      intro pos hpos
      rw [hbit, hx pos hpos, Bool.true_or]
  | find y => rwa [(laws.find_eq_some h hexec).2]

/-- The call that was just made. -/
theorem reported_new (laws : FilterLaws M V Inv) (h : Inv s) {call : FilterCall α} {r : FilterRet}
    {s' : σ} (hexec : M.exec s call = some (r, s')) {x : α}
    (hcall : (call, r) = (.add x, .added) ∨ (call, r) = (.find x, .found true)) :
    Reported M s' x := by
  rcases hcall with hcall | hcall
  · obtain ⟨rfl, rfl⟩ := Prod.mk.inj hcall
    rcases laws.add_eq_some h hexec with ⟨h', hpositions, hbit⟩
    rw [laws.reported_iff h', hpositions]
    intro pos hpos
    rw [hbit, decide_eq_true hpos, Bool.or_true]
  · obtain ⟨rfl, rfl⟩ := Prod.mk.inj hcall
    obtain rfl := (laws.find_eq_some h hexec).2
    exact hexec

theorem reported_trace (laws : FilterLaws M V Inv) (htrace : M.Trace s log) {x : α}
    (hmem : (.add x, .added) ∈ log ∨ (.find x, .found true) ∈ log) : Reported M s x := by
  induction htrace with
  | init _ => simp at hmem
  | call htrace' _ hexec ih =>
      have h := laws.inv_trace htrace'
      simp only [List.mem_append, List.mem_singleton] at hmem
      rcases hmem with (hold | hnew) | (hold | hnew)
      · exact laws.reported_call h hexec (ih (.inl hold))
      · exact laws.reported_new h hexec (.inl hnew.symm)
      · exact laws.reported_call h hexec (ih (.inr hold))
      · exact laws.reported_new h hexec (.inr hnew.symm)

/-- The laws rule out false negatives. -/
theorem noFalseNegatives (laws : FilterLaws M V Inv) (htrace : M.Trace s log) :
    NoFalseNegatives M V s log := by
  have h := laws.inv_trace htrace
  constructor
  · exact fun x hx ↦ laws.reported_trace htrace (.inl hx)
  · exact fun x hx ↦ laws.reported_trace htrace (.inr hx)
  · exact fun x ↦ laws.inside s x h
  · intro call
    cases call with
    | add x =>
        rcases laws.add s x h with ⟨s', hadd, -⟩
        exact ⟨_, hadd⟩
    | find x => exact ⟨_, laws.find s x h⟩
  · intro x r s' hexec pos hpos
    rw [(laws.add_eq_some h hexec).2.2, hpos, Bool.true_or]

end FilterLaws

end CPractice.Lib
