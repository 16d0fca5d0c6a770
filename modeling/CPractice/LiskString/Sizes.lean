import CPractice.LiskString.Model
import CPractice.Vector.Sizes

/-!
# The sizes of a string object

As for the vector: if no sum of a call wraps and the memory it asks for is granted, then the call is
refused and leaves the string as it is, or it writes inside of the block and the text and its terminator
fit into it.
-/

namespace CPractice.LiskString

open Lib Memory PowerOfTwo

variable {str : Text} {pos size bufLen : ℕ} {buf : Option Bytes} {grant : Grant}

/-- The text and its terminator fit into the capacity, and that is the size of the block. -/
structure Sized (str : Text) : Prop where
  capacity_lt : str.capacity < 4294967296
  fits : str.data.isSome = true → str.length < str.capacity
  block : allocated str.data = str.capacity
  nil : str.data.isNone = true → str.length = 0

theorem terminate_sized (data : Option Bytes) (idx : ℕ) (h : idx < allocated data) :
    ∃ block, terminate data idx = some (some block) ∧ block.length = allocated data := by
  cases data with
  | none => exact absurd h (Nat.not_lt_zero _)
  | some block =>
      rw [allocated_some] at h
      refine ⟨block.set idx 0, ?_, List.length_set⟩
      rw [terminate, Option.bind_eq_bind, Option.bind_some, if_pos h]

theorem sized_uninit (h : Sized str) : Sized (uninit str) := by
  rw [uninit]
  split
  · exact ⟨by decide, fun h ↦ (by cases h), rfl, fun _ ↦ rfl⟩
  · exact h

theorem realloc_sized (h : Sized str) (hsize : size < 4294967296)
    (hsafe : size = 0 ∨ str.capacity = 0 ∨ grant.isSome) :
    ∃ ret str', strRealloc str size grant = some (ret, str') ∧
      ((ret ≠ 0 ∧ str' = str ∧ str.capacity = 0) ∨ (ret = 0 ∧ Sized str' ∧
        (size ≠ 0 → str'.capacity = size ∧ (str.length < size → str'.length = str.length)))) := by
  rw [strRealloc]
  split
  · rename_i hzero
    exact ⟨0, uninit str, rfl, .inr ⟨rfl, sized_uninit h, fun hne ↦ absurd hzero hne⟩⟩
  · rename_i hne
    split
    · rename_i hcapacity
      exact ⟨-1, str, rfl, .inl ⟨by decide, rfl, hcapacity⟩⟩
    · rename_i hcapacity
      have hgrant : grant.isSome = true := by tauto
      rcases Option.isSome_iff_exists.mp hgrant with ⟨fill, rfl⟩
      obtain ⟨block, hblock⟩ : ∃ block, realloc str.data size (some fill) = some block := ⟨_, rfl⟩
      have hlength := length_realloc hblock
      simp only [hblock]
      split
      · rename_i hshort
        have hlast : u4Sub size 1 = size - 1 := u4Sub_of_le (by omega) hsize
        have hinside : size - 1 < allocated (some block) := by
          rw [allocated_some]
          omega
        rcases terminate_sized (some block) (size - 1) hinside with ⟨block', hterm, hsame⟩
        rw [hlast, hterm]
        refine ⟨0, ⟨size, size - 1, some block'⟩, rfl, .inr ⟨rfl, ⟨hsize, fun _ ↦ ?_, ?_, fun h ↦ ?_⟩, ?_⟩⟩
        · exact Nat.sub_lt (Nat.pos_of_ne_zero hne) (by decide)
        · exact hsame.trans hlength
        · cases h
        · exact fun _ ↦ ⟨rfl, fun hlong ↦ by omega⟩
      · refine ⟨0, ⟨size, str.length, some block⟩, rfl, .inr ⟨rfl, ⟨hsize, fun _ ↦ ?_, hlength, fun h ↦ ?_⟩,
          fun _ ↦ ⟨rfl, fun _ ↦ rfl⟩⟩⟩
        · dsimp only
          omega
        · cases h

/-- The growth that `lisk_string_insert` needs does not wrap and is granted. -/
def GrowsSafely (str : Text) (bufLen : ℕ) (grant : Grant) : Prop :=
  str.length + bufLen + 1 < 4294967296 ∧
    (str.capacity < str.length + bufLen + 1 →
      str.length + bufLen + 1 ≤ 2147483648 ∧ (str.capacity = 0 ∨ grant.isSome))

instance : Decidable (GrowsSafely str bufLen grant) := inferInstanceAs (Decidable (_ ∧ _))

/-- Room is made, or the string has no capacity and is left alone. -/
theorem grow_sized (h : Sized str) (hsafe : GrowsSafely str bufLen grant) :
    ∃ ret str', grow str (u4 (u4 (str.length + bufLen) + 1)) grant = some (ret, str') ∧
      ((ret ≠ 0 ∧ str' = str ∧ str.capacity = 0) ∨
        (ret = 0 ∧ Sized str' ∧ str'.length = str.length ∧
          str.length + bufLen + 1 ≤ str'.capacity)) := by
  obtain ⟨hlt, hgrowth⟩ := hsafe
  have hsum : u4 (u4 (str.length + bufLen) + 1) = str.length + bufLen + 1 := by
    rw [u4_of_lt (show str.length + bufLen < 4294967296 by omega), u4_of_lt hlt]
  rw [grow, hsum]
  split
  · rename_i hroom
    rcases hgrowth hroom with ⟨hbytes, hgrant⟩
    have hnext := nextPowOf2_le (show 0 < str.length + bufLen + 1 by omega) hbytes
    rcases nextPowOf2_spec (show 0 < str.length + bufLen + 1 by omega) hlt with ⟨-, hle, -⟩
    have hround : roundUp (str.length + bufLen + 1) = nextPowOf2 (str.length + bufLen + 1) :=
      roundUp_eq (by omega)
    rw [hround]
    rcases realloc_sized h (show nextPowOf2 (str.length + bufLen + 1) < 4294967296 by omega)
      (.inr hgrant) with ⟨ret, str', hrealloc, hrefused | ⟨hzero, hsized, hnew⟩⟩
    · exact ⟨ret, str', hrealloc, .inl hrefused⟩
    · rcases hnew (by omega) with ⟨hcapacity, hlength⟩
      exact ⟨ret, str', hrealloc, .inr ⟨hzero, hsized, hlength (by omega), by omega⟩⟩
  · rename_i hroom
    exact ⟨0, str, rfl, .inr ⟨rfl, h, rfl, by omega⟩⟩

theorem place_sized {buf : Bytes} (h : Sized str) (hpos : pos ≤ str.length)
    (hroom : str.length + bufLen + 1 ≤ str.capacity) (hbufLen : bufLen ≠ 0)
    (hbuf : bufLen ≤ buf.length) :
    ∃ str', place str str.length pos buf bufLen = some (0, str') ∧ Sized str' ∧
      str'.length < str'.capacity := by
  have hcapacity := h.capacity_lt
  have hblock := h.block
  have hmoved : u4Sub str.length pos = str.length - pos := u4Sub_of_le hpos (by omega)
  have hshift : ∃ data, openGap str str.length pos bufLen = some (0, data) ∧
      allocated data = allocated str.data := by
    rw [openGap, hmoved]
    split
    · rcases cpyWithin_sized str.data (pos + bufLen) pos (str.length - pos) (by
        rw [hblock]
        omega) with ⟨data, hcopy, hsize, -⟩
      exact ⟨data, hcopy, hsize⟩
    · exact ⟨str.data, rfl, rfl⟩
  rcases hshift with ⟨data, hshift, hdata⟩
  rcases cpyInto_sized data pos bufLen buf (by
    rw [hdata, hblock]
    omega) with ⟨data', hcopy, hdata', -⟩
  have hlength : u4 (str.length + bufLen) = str.length + bufLen := u4_of_lt (by omega)
  rcases terminate_sized data' (str.length + bufLen) (by
    rw [hdata', hdata, hblock]
    omega) with ⟨block, hterm, hsize⟩
  refine ⟨⟨str.capacity, str.length + bufLen, some block⟩, ?_,
    ⟨hcapacity, fun _ ↦ ?_, ?_, fun h ↦ ?_⟩, ?_⟩
  · rw [place, hshift]
    simp only [hcopy, hlength, hterm, Option.bind_eq_bind, Option.bind_some, ne_eq, not_true, if_false]
  · dsimp only
    omega
  · rw [allocated_some, hsize, hdata', hdata, hblock]
  · cases h
  · dsimp only
    omega

/-- `lisk_string_insert` is refused and changes nothing, or succeeds within the block. -/
theorem insert_sized (h : Sized str) (hbuf : ∀ bytes ∈ buf, bufLen ≤ bytes.length)
    (hsafe : bufLen = 0 ∨ str.length < pos ∨ GrowsSafely str bufLen grant) :
    ∃ ret str', insert str pos buf bufLen grant = some (ret, str') ∧
      ((ret ≠ 0 ∧ str' = str) ∨ (ret = 0 ∧ Sized str' ∧ str'.length < str'.capacity)) := by
  cases buf with
  | none => exact ⟨-1, str, rfl, .inl ⟨by decide, rfl⟩⟩
  | some buf =>
      rw [insert]
      split
      · exact ⟨-1, str, rfl, .inl ⟨by decide, rfl⟩⟩
      · rename_i hrefused
        have hgrows : GrowsSafely str bufLen grant := by tauto
        rcases grow_sized h hgrows with
          ⟨ret, grown, hgrow, ⟨hne, rfl, -⟩ | ⟨rfl, hsized, hlength, hroom⟩⟩
        · refine ⟨-2, grown, ?_, .inl ⟨by decide, rfl⟩⟩
          simp only [hgrow, Option.bind_eq_bind, Option.bind_some, if_pos hne]
        · rw [← hlength] at hroom
          have hpos : pos ≤ grown.length := by omega
          rcases place_sized hsized hpos hroom (fun hzero ↦ hrefused (.inl hzero)) (hbuf buf rfl) with
          ⟨str', hplace, hsized', hlt⟩
          refine ⟨0, str', ?_, .inr ⟨rfl, hsized', hlt⟩⟩
          rw [hlength] at hplace
          simp only [hgrow, Option.bind_eq_bind, Option.bind_some, ne_eq, not_true, if_false, hplace]

theorem clear_sized (h : Sized str) : ∃ str', clear str = some str' ∧ Sized str' := by
  cases hdata : str.data with
  | none => exact ⟨str, by rw [clear, hdata]; rfl, h⟩
  | some block =>
      have hblock := h.block
      have hlt := h.fits (by rw [hdata]; rfl)
      rw [hdata] at hblock
      rcases terminate_sized (some block) 0 (by omega) with ⟨block', hterm, hsize⟩
      refine ⟨⟨str.capacity, 0, some block'⟩, ?_, h.capacity_lt, fun _ ↦ ?_, hsize.trans hblock, fun hnil ↦ ?_⟩
      · rw [clear, hdata, if_neg (by simp), hterm]
        rfl
      · dsimp only
        omega
      · cases hnil

/-! ## Runs -/

/-- The calls with the answers they get to a request for memory. -/
inductive TextCall
  | insert (pos : ℕ) (buf : Option Bytes) (bufLen : ℕ) (grant : Grant)
  | append (buf : Option Bytes) (bufLen : ℕ) (grant : Grant)
  | clear
  | realloc (size : ℕ) (grant : Grant)

namespace TextCall

def exec (str : Text) : TextCall → Option (ℤ × Text)
  | .insert pos buf bufLen grant => LiskString.insert str pos buf bufLen grant
  | .append buf bufLen grant => LiskString.append str buf bufLen grant
  | .clear => (LiskString.clear str).map fun str' ↦ (0, str')
  | .realloc size grant => strRealloc str size grant

/-- The arguments are `u4`, and a buffer holds the bytes that are named. -/
def Args : TextCall → Prop
  | .insert pos buf bufLen _ =>
      pos < 4294967296 ∧ bufLen < 4294967296 ∧ ∀ bytes ∈ buf, bufLen ≤ bytes.length
  | .append buf bufLen _ => bufLen < 4294967296 ∧ ∀ bytes ∈ buf, bufLen ≤ bytes.length
  | .realloc size _ => size < 4294967296
  | .clear => True

/-- No sum of the call wraps, and the memory that it needs is granted; or it is refused before that
matters. -/
def Safe (str : Text) : TextCall → Prop
  | .insert pos _ bufLen grant => bufLen = 0 ∨ str.length < pos ∨ GrowsSafely str bufLen grant
  | .append _ bufLen grant => bufLen = 0 ∨ GrowsSafely str bufLen grant
  | .realloc size grant => size = 0 ∨ str.capacity = 0 ∨ grant.isSome
  | .clear => True

/-- The call adds text. -/
def Adds : TextCall → Prop
  | .insert _ _ _ _ | .append _ _ _ => True
  | .clear | .realloc _ _ => False

/-- The call returns an error and changes nothing, or it returns success and the sizes are right; behind
an insertion the text and its terminator fit into the capacity.  That it returns says that all its writes
stay inside of the block. -/
def Served (str : Text) (call : TextCall) : Prop :=
  ∃ ret str', call.exec str = some (ret, str') ∧
    ((ret ≠ 0 ∧ str' = str) ∨
      (ret = 0 ∧ Sized str' ∧ (call.Adds → str'.length < str'.capacity)))

theorem served_of_insert {call : TextCall} (h : Sized str)
    (hexec : call.exec str = LiskString.insert str pos buf bufLen grant)
    (hbuf : ∀ bytes ∈ buf, bufLen ≤ bytes.length)
    (hsafe : bufLen = 0 ∨ str.length < pos ∨ GrowsSafely str bufLen grant) : call.Served str := by
  rcases insert_sized h hbuf hsafe with ⟨ret, str', hinsert, hrefused | ⟨hzero, hsized, hlt⟩⟩
  · exact ⟨ret, str', hexec.trans hinsert, .inl hrefused⟩
  · exact ⟨ret, str', hexec.trans hinsert, .inr ⟨hzero, hsized, fun _ ↦ hlt⟩⟩

/-- A safe call is served. -/
theorem served (h : Sized str) {call : TextCall} (hargs : call.Args) (hsafe : call.Safe str) :
    call.Served str := by
  cases call with
  | insert pos buf bufLen grant => exact served_of_insert h rfl hargs.2.2 hsafe
  | append buf bufLen grant => exact served_of_insert h rfl hargs.2 (hsafe.imp id .inr)
  | clear =>
      rcases clear_sized h with ⟨str', hclear, hsized⟩
      refine ⟨0, str', ?_, .inr ⟨rfl, hsized, False.elim⟩⟩
      rw [exec, hclear]
      rfl
  | realloc size grant =>
      rcases realloc_sized h hargs hsafe with ⟨ret, str', hrealloc, ⟨hne, heq, -⟩ | ⟨hzero, hsized, -⟩⟩
      · exact ⟨ret, str', hrealloc, .inl ⟨hne, heq⟩⟩
      · exact ⟨ret, str', hrealloc, .inr ⟨hzero, hsized, False.elim⟩⟩

end TextCall

/-- Strings that `lisk_string_init` has made, and the calls whose arithmetic is safe. -/
def safeMachine : Machine Text TextCall ℤ where
  init str := ∃ size fill, size < 4294967296 ∧ init size (some fill) = some (0, some str)
  ok str call := call.Args ∧ call.Safe str
  exec := TextCall.exec

theorem sized_init {fill : ℕ → UInt8} (hsize : size < 4294967296)
    (h : init size (some fill) = some (0, some str)) : Sized str := by
  have hcapacity : roundUp (if size = 0 then 1 else size) < 4294967296 := by
    refine roundUp_lt ?_
    split <;> omega
  rcases Option.bind_eq_some_iff.mp h with ⟨data, hterm, hsome⟩
  cases hsome
  simp only [terminate, Option.bind_eq_bind, Option.bind_some, List.length_map, List.length_range]
    at hterm
  generalize roundUp (if size = 0 then 1 else size) = capacity at hterm hcapacity ⊢
  split at hterm
  · rename_i hpos
    cases hterm
    refine ⟨hcapacity, fun _ ↦ hpos, ?_, fun hnil ↦ ?_⟩
    · simp
    · cases hnil
  · cases hterm

theorem trace_sized {log : List (TextCall × ℤ)} (htrace : safeMachine.Trace str log) :
    Sized str ∧ ∀ call : TextCall, call.Args → call.Safe str → call.Served str := by
  have hsized : Sized str := by
    refine htrace.invariant Sized ?_ ?_
    · rintro str ⟨size, fill, hsize, hinit⟩
      exact sized_init hsize hinit
    · intro str call ret str' hinv hok hexec
      rcases TextCall.served hinv hok.1 hok.2 with ⟨ret', str'', hexec', hout⟩
      obtain ⟨-, rfl⟩ : ret' = ret ∧ str'' = str' := by
        have heq := hexec'.symm.trans hexec
        simpa using heq
      rcases hout with ⟨-, rfl⟩ | ⟨-, hsized, -⟩
      · exact hinv
      · exact hsized
  exact ⟨hsized, fun call hargs hsafe ↦ TextCall.served hsized hargs hsafe⟩

end CPractice.LiskString
