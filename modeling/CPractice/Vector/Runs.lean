import CPractice.Vector.Refinement

/-!
# Runs of the vector

Any sequence of calls on a vector from `lisk_vector_init` on does to its elements what it does to an
abstract list, as long as all counts and sizes stay below `2 ^ 31` and memory is granted; a call with a
position or a range outside of the list is refused and leaves the vector as it is.
-/

namespace CPractice.Vector

open Memory PowerOfTwo

variable {len : ℕ} {xs ys : List Bytes} {vect : Vect}

/-! ## The calls and what they do to the list -/

/-- The calls of the interface; an array is given by its elements. -/
inductive Call
  | insert (pos : ℕ) (ys : List Bytes)
  | pushBack (ys : List Bytes)
  | assign (ys : List Bytes)
  | erase (pos count : ℕ)
  | popUp
  | popBack
  | reverse
  | clear
  | realloc (count : ℕ)

namespace Call

/-- The call on a vector, with the bytes found in new memory. -/
def run (vect : Vect) (fill : ℕ → UInt8) : Call → Option (Ret × Vect)
  | .insert pos ys =>
      (Vector.insert vect pos (some ys.flatten) ys.length (some fill)).map (Prod.map .code id)
  | .pushBack ys => (Vector.pushBack vect (some ys.flatten) ys.length (some fill)).map (Prod.map .code id)
  | .assign ys => (Vector.assign vect (some ys.flatten) ys.length (some fill)).map (Prod.map .code id)
  | .erase pos count => (Vector.erase vect pos count).map (Prod.map .pointer id)
  | .popUp => (Vector.popUp vect).map (Prod.map .pointer id)
  | .popBack => (Vector.popBack vect).map (Prod.map .pointer id)
  | .reverse => (Vector.reverse vect (some fill)).map (Prod.map .code id)
  | .clear => some (.void, Vector.clear vect)
  | .realloc count => some (Prod.map .code id (vectRealloc vect count (some fill)))

/-- A position or a range outside of the list, or nothing to do. -/
def Refused (xs : List Bytes) : Call → Prop
  | .insert pos ys => ys = [] ∨ xs.length < pos
  | .pushBack ys | .assign ys => ys = []
  | .erase pos count => count = 0 ∨ xs.length < pos + count
  | .popUp | .popBack | .reverse => xs = []
  | .clear | .realloc _ => False

instance (xs : List Bytes) : (call : Call) → Decidable (call.Refused xs)
  | .insert pos ys => inferInstanceAs (Decidable (ys = [] ∨ xs.length < pos))
  | .pushBack ys | .assign ys => inferInstanceAs (Decidable (ys = []))
  | .erase pos count => inferInstanceAs (Decidable (count = 0 ∨ xs.length < pos + count))
  | .popUp | .popBack | .reverse => inferInstanceAs (Decidable (xs = []))
  | .clear | .realloc _ => inferInstanceAs (Decidable False)

/-- The list behind a call that is not refused. -/
def splice (xs : List Bytes) : Call → List Bytes
  | .insert pos ys => xs.take pos ++ ys ++ xs.drop pos
  | .pushBack ys => xs ++ ys
  | .assign ys => ys
  | .erase pos count => xs.take pos ++ xs.drop (pos + count)
  | .popUp => xs.tail
  | .popBack => xs.dropLast
  | .reverse => xs.reverse
  | .clear => []
  | .realloc count => xs.take count

/-- What the call returns. -/
def answer (len : ℕ) (xs : List Bytes) (call : Call) : Ret :=
  match call with
  | .insert _ _ | .pushBack _ | .assign _ | .reverse | .realloc _ =>
      .code (if call.Refused xs then -1 else 0)
  | .erase pos count =>
      .pointer (if ¬ call.Refused xs ∧ pos + count < xs.length then some (pos * len) else none)
  | .popUp => .pointer (if 1 < xs.length then some 0 else none)
  | .popBack => .pointer none
  | .clear => .void

/-- The list behind any call. -/
def after (xs : List Bytes) (call : Call) : List Bytes :=
  if call.Refused xs then xs else call.splice xs

/-- All counts and sizes stay below `2 ^ 31`, and the elements have the length of the vector's. -/
def Bounded (len : ℕ) (xs : List Bytes) : Call → Prop
  | .insert pos ys =>
      Uniform len ys ∧ pos < 2147483648 ∧ ys.length * len < 2147483648 ∧
        (pos ≤ xs.length → (xs.length + ys.length) * len < 2147483648)
  | .pushBack ys => Uniform len ys ∧ (xs.length + ys.length) * len < 2147483648
  | .assign ys => Uniform len ys ∧ ys.length * len < 2147483648
  | .erase pos count => pos < 2147483648 ∧ count < 2147483648
  | .realloc count => 1 ≤ count ∧ count * len < 2147483648
  | .popUp | .popBack | .reverse | .clear => True

end Call

/-- A call does to the vector what it does to the list. -/
structure Follows (len : ℕ) (xs : List Bytes) (vect : Vect) (call : Call) (fill : ℕ → UInt8)
    (vect' : Vect) : Prop where
  run : call.run vect fill = some (call.answer len xs, vect')
  holds : Holds len (call.after xs) vect'
  unchanged : call.Refused xs → vect' = vect

theorem Follows.of_refused {call : Call} {fill : ℕ → UInt8} (h : Holds len xs vect)
    (hrefused : call.Refused xs) (hrun : call.run vect fill = some (call.answer len xs, vect)) :
    Follows len xs vect call fill vect := by
  refine ⟨hrun, ?_, fun _ ↦ rfl⟩
  rw [Call.after, if_pos hrefused]
  exact h

theorem Follows.of_done {call : Call} {fill : ℕ → UInt8} {vect' : Vect}
    (hdone : ¬ call.Refused xs) (hrun : call.run vect fill = some (call.answer len xs, vect'))
    (h : Holds len (call.splice xs) vect') : Follows len xs vect call fill vect' := by
  refine ⟨hrun, ?_, fun hrefused ↦ absurd hrefused hdone⟩
  rw [Call.after, if_neg hdone]
  exact h

/-! ## One call -/

variable {fill : ℕ → UInt8}

theorem insert_refused {array : Option Bytes} {pos size : ℕ} {grant : Grant}
    (h : size = 0 ∨ vect.number < pos) : insert vect pos array size grant = some (-1, vect) := by
  rw [insert, if_pos h]

theorem follows_insert {pos : ℕ} (h : Holds len xs vect)
    (hbounded : (Call.insert pos ys).Bounded len xs) :
    ∃ vect', Follows len xs vect (.insert pos ys) fill vect' := by
  obtain ⟨huniform, -, -, hroom⟩ := hbounded
  by_cases hrefused : (Call.insert pos ys).Refused xs
  · have hcond : ys.length = 0 ∨ vect.number < pos := by
      rw [List.length_eq_zero_iff, h.number]
      exact hrefused
    refine ⟨vect, .of_refused h hrefused ?_⟩
    simp only [Call.run, Call.answer, if_pos hrefused, insert_refused hcond]
    rfl
  · have hne : ys ≠ [] := fun hnil ↦ hrefused (.inl hnil)
    have hpos : pos ≤ xs.length := Nat.not_lt.mp fun hlt ↦ hrefused (.inr hlt)
    rcases insert_spec h huniform hne hpos (hroom hpos) fill with ⟨vect', hcode, hholds⟩
    refine ⟨vect', .of_done hrefused ?_ hholds⟩
    simp only [Call.run, Call.answer, if_neg hrefused, hcode]
    rfl

theorem follows_pushBack (h : Holds len xs vect) (hbounded : (Call.pushBack ys).Bounded len xs) :
    ∃ vect', Follows len xs vect (.pushBack ys) fill vect' := by
  obtain ⟨huniform, hroom⟩ := hbounded
  by_cases hrefused : (Call.pushBack ys).Refused xs
  · have hcond : ys.length = 0 ∨ vect.number < vect.number := .inl (List.length_eq_zero_iff.mpr hrefused)
    refine ⟨vect, .of_refused h hrefused ?_⟩
    simp only [Call.run, Call.answer, if_pos hrefused, pushBack, insert_refused hcond]
    rfl
  · rcases insert_spec h huniform hrefused (le_refl _) hroom fill with ⟨vect', hcode, hholds⟩
    rw [List.take_length, List.drop_length, List.append_nil] at hholds
    refine ⟨vect', .of_done hrefused ?_ hholds⟩
    simp only [Call.run, Call.answer, if_neg hrefused, pushBack, h.number, hcode]
    rfl

theorem holds_clear (h : Holds len xs vect) : Holds len [] (clear vect) := by
  rcases h.data with ⟨rest, hdata, hcapacity⟩
  refine ⟨h.length, h.length_pos, rfl, fun x hx ↦ absurd hx List.not_mem_nil, h.capacity_pos,
    h.capacity_lt, xs.flatten ++ rest, hdata, hcapacity⟩

theorem follows_assign (h : Holds len xs vect) (hbounded : (Call.assign ys).Bounded len xs) :
    ∃ vect', Follows len xs vect (.assign ys) fill vect' := by
  obtain ⟨huniform, hroom⟩ := hbounded
  by_cases hrefused : (Call.assign ys).Refused xs
  · have hcond : ys.length = 0 := List.length_eq_zero_iff.mpr hrefused
    refine ⟨vect, .of_refused h hrefused ?_⟩
    simp only [Call.run, Call.answer, if_pos hrefused, assign, if_pos hcond]
    rfl
  · have hcond : ys.length ≠ 0 := fun hzero ↦ hrefused (List.length_eq_zero_iff.mp hzero)
    have hsum : (([] : List Bytes).length + ys.length) * len < 2147483648 := by
      rwa [List.length_nil, Nat.zero_add]
    rcases insert_spec (holds_clear h) huniform hrefused (le_refl _) hsum fill with
      ⟨vect', hcode, hholds⟩
    rw [List.take_nil, List.drop_nil, List.append_nil, List.nil_append] at hholds
    refine ⟨vect', .of_done hrefused ?_ hholds⟩
    have hnum : (clear vect).number = ([] : List Bytes).length := rfl
    simp only [Call.run, Call.answer, if_neg hrefused, assign, if_neg hcond, pushBack, hnum, hcode]
    rfl

/-- A range that is empty or outside of the list. -/
theorem erase_refused {pos count : ℕ} (h : Holds len xs vect) (hlt : pos + count < 4294967296)
    (hrange : count = 0 ∨ xs.length < pos + count) : erase vect pos count = some (none, vect) := by
  have hnum := h.number
  have hsum := u4_of_lt hlt
  rw [erase]
  by_cases hzero : count = 0
  · rw [if_pos hzero]
  · rw [if_neg hzero]
    by_cases hempty : vect.number = 0
    · rw [if_pos hempty]
    · rw [if_neg hempty, if_pos]
      right
      left
      omega

theorem follows_erase {pos count : ℕ} (h : Holds len xs vect)
    (hbounded : (Call.erase pos count).Bounded len xs) :
    ∃ vect', Follows len xs vect (.erase pos count) fill vect' := by
  obtain ⟨hpos, hcount⟩ := hbounded
  by_cases hrefused : (Call.erase pos count).Refused xs
  · refine ⟨vect, .of_refused h hrefused ?_⟩
    rw [Call.run, erase_refused h (by omega) hrefused, Call.answer, if_neg fun hboth ↦ hboth.1 hrefused]
    rfl
  · have hfit : 0 < count ∧ pos + count ≤ xs.length := by
      unfold Call.Refused at hrefused
      omega
    rcases erase_spec h hfit.1 hfit.2 with ⟨vect', hcode, hholds⟩
    refine ⟨vect', .of_done hrefused ?_ hholds⟩
    simp only [Call.run, hcode, Call.answer, hrefused, not_false_eq_true, true_and]
    rfl

theorem follows_popUp (h : Holds len xs vect) : ∃ vect', Follows len xs vect .popUp fill vect' := by
  have hnum := h.number
  cases hxs : xs with
  | nil =>
      rw [hxs] at hnum h
      rw [List.length_nil] at hnum
      refine ⟨vect, .of_refused h rfl ?_⟩
      simp only [Call.run, popUp, if_pos hnum]
      rfl
  | cons x rest =>
      rw [hxs] at hnum h
      have hone : 0 + 1 ≤ (x :: rest).length := by
        rw [List.length_cons]
        omega
      rcases erase_spec h (show 0 < 1 by decide) hone with ⟨vect', hcode, hholds⟩
      refine ⟨vect', .of_done (List.cons_ne_nil _ _) ?_ hholds⟩
      rw [Call.run, popUp, if_neg (by rw [hnum, List.length_cons]; omega), hcode]
      simp only [Call.answer, Nat.zero_add, Nat.zero_mul]
      rfl

theorem follows_popBack (h : Holds len xs vect) : ∃ vect', Follows len xs vect .popBack fill vect' := by
  have hnum := h.number
  by_cases hxs : xs = []
  · refine ⟨vect, .of_refused h hxs ?_⟩
    have hzero : vect.number = 0 := by rw [hnum, hxs, List.length_nil]
    simp only [Call.run, popBack, if_pos hzero]
    rfl
  · have hpos := List.length_pos_of_ne_nil hxs
    have hlt := h.capacity_lt
    have hle := h.number_mul_length_le
    have hcount : vect.number ≤ vect.number * vect.length := by
      rw [h.length]
      exact Nat.le_mul_of_pos_right _ h.length_pos
    have hlast : u4Sub vect.number 1 = xs.length - 1 := by
      rw [u4Sub_of_le (by omega) (by omega), hnum]
    have hfit : xs.length - 1 + 1 ≤ xs.length := by omega
    rcases erase_spec h (show 0 < 1 by decide) hfit with ⟨vect', hcode, hholds⟩
    rw [show xs.length - 1 + 1 = xs.length by omega, List.drop_length, List.append_nil,
      ← List.dropLast_eq_take] at hholds
    refine ⟨vect', .of_done hxs ?_ hholds⟩
    rw [Call.run, popBack, if_neg (by omega), hlast, hcode, if_neg (by omega)]
    rfl

theorem follows_reverse (h : Holds len xs vect) : ∃ vect', Follows len xs vect .reverse fill vect' := by
  by_cases hrefused : Call.reverse.Refused xs
  · refine ⟨vect, .of_refused h hrefused ?_⟩
    have hzero : vect.number = 0 := by rw [h.number, hrefused, List.length_nil]
    simp only [Call.run, Call.answer, if_pos hrefused, Vector.reverse, if_pos hzero]
    rfl
  · rcases reverse_spec h hrefused fill with ⟨vect', hcode, hholds⟩
    refine ⟨vect', .of_done hrefused ?_ hholds⟩
    simp only [Call.run, Call.answer, if_neg hrefused, hcode]
    rfl

theorem follows_realloc {count : ℕ} (h : Holds len xs vect)
    (hbounded : (Call.realloc count).Bounded len xs) :
    ∃ vect', Follows len xs vect (.realloc count) fill vect' := by
  obtain ⟨hcount, hlt⟩ := hbounded
  rcases vectRealloc_spec h hcount (by omega) fill with ⟨vect', hcode, hholds, -⟩
  refine ⟨vect', .of_done not_false ?_ hholds⟩
  rw [Call.run, hcode]
  rfl

/-- Every call within the bounds follows the list. -/
theorem follows_call (h : Holds len xs vect) (call : Call) (fill : ℕ → UInt8)
    (hbounded : call.Bounded len xs) : ∃ vect', Follows len xs vect call fill vect' := by
  cases call with
  | insert pos ys => exact follows_insert h hbounded
  | pushBack ys => exact follows_pushBack h hbounded
  | assign ys => exact follows_assign h hbounded
  | erase pos count => exact follows_erase h hbounded
  | popUp => exact follows_popUp h
  | popBack => exact follows_popBack h
  | reverse => exact follows_reverse h
  | clear => exact ⟨clear vect, .of_done not_false rfl (holds_clear h)⟩
  | realloc count => exact follows_realloc h hbounded

/-! ## Runs -/

/-- Calls with the bytes that each finds in new memory. -/
abbrev Calls := List (Call × (ℕ → UInt8))

/-- All calls of a run stay within the bounds. -/
def BoundedRun (len : ℕ) : List Bytes → Calls → Prop
  | _, [] => True
  | xs, (call, _) :: calls => call.Bounded len xs ∧ BoundedRun len (call.after xs) calls

/-- All along a run the vector holds the list, the elements fit into its capacity, and each call follows
the list. -/
def Tracks (len : ℕ) : List Bytes → Vect → Calls → Prop
  | xs, vect, [] => Holds len xs vect ∧ vect.number * vect.length ≤ vect.capacity
  | xs, vect, (call, fill) :: calls =>
      (Holds len xs vect ∧ vect.number * vect.length ≤ vect.capacity) ∧
        ∃ vect', Follows len xs vect call fill vect' ∧ Tracks len (call.after xs) vect' calls

theorem tracks_of_holds (h : Holds len xs vect) (calls : Calls) (hbounded : BoundedRun len xs calls) :
    Tracks len xs vect calls := by
  induction calls generalizing xs vect with
  | nil => exact ⟨h, h.number_mul_length_le⟩
  | cons entry calls ih =>
      rcases entry with ⟨call, fill⟩
      rcases follows_call h call fill hbounded.1 with ⟨vect', hfollows⟩
      exact ⟨⟨h, h.number_mul_length_le⟩, vect', hfollows, ih hfollows.holds hbounded.2⟩

theorem init_spec {count : ℕ} (hcount : 1 ≤ count) (hlen : 1 ≤ len) (hlt : count * len < 2147483648)
    (fill : ℕ → UInt8) :
    ∃ vect, init count len (some fill) = (0, some vect) ∧ Holds len [] vect := by
  have hpos : 0 < count * len := Nat.mul_pos hcount hlen
  have hsize : u4 (count * len) = count * len := u4_of_lt (by omega)
  rcases nextPowOf2_spec hpos (by omega) with ⟨-, hle, htwice⟩
  have hround : roundUp (count * len) = nextPowOf2 (count * len) := roundUp_eq (by omega)
  refine ⟨⟨nextPowOf2 (count * len), 0, len, some ((List.range (nextPowOf2 (count * len))).map fill)⟩,
    ?_, rfl, hlen, rfl, fun x hx ↦ absurd hx List.not_mem_nil, by dsimp only; omega, by dsimp only; omega,
    _, rfl, ?_⟩
  · simp only [init, if_neg (show ¬ (count = 0 ∨ len = 0) by omega), hsize, hround, malloc,
      Option.map_some]
  · simp

/-- The vector refines a list of elements of a fixed length: from `lisk_vector_init` on, over every run
whose counts and sizes stay below `2 ^ 31`. -/
theorem vector_refines_list {count : ℕ} (hcount : 1 ≤ count) (hlen : 1 ≤ len)
    (hlt : count * len < 2147483648) (fill : ℕ → UInt8) (calls : Calls)
    (hbounded : BoundedRun len [] calls) :
    ∃ vect, init count len (some fill) = (0, some vect) ∧ Tracks len [] vect calls := by
  rcases init_spec hcount hlen hlt fill with ⟨vect, hinit, hholds⟩
  exact ⟨vect, hinit, tracks_of_holds hholds calls hbounded⟩

theorem vector_refines_list_small :
    ∃ vect, init 1 2 (some fun _ ↦ 0) = (0, some vect) ∧
      Tracks 2 [] vect [(.pushBack [[1, 2], [3, 4]], fun _ ↦ 7), (.insert 1 [[5, 6]], fun _ ↦ 8),
        (.erase 0 9, fun _ ↦ 0), (.reverse, fun _ ↦ 0), (.popUp, fun _ ↦ 0)] := by
  have huniform : Uniform 2 [[1, 2], [3, 4]] ∧ Uniform 2 [[5, 6]] := by
    unfold Uniform
    decide
  refine vector_refines_list (by decide) (by decide) (by decide) _ _ ⟨?_, ?_, ?_, trivial, trivial, trivial⟩
  · exact ⟨huniform.1, by decide⟩
  · exact ⟨huniform.2, by decide, by decide, fun _ ↦ by decide⟩
  · exact ⟨by decide, by decide⟩

end CPractice.Vector
