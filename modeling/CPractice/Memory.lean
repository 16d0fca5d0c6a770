import CPractice.Base
import Mathlib.Data.List.Basic

/-!
# Blocks of memory

`ALLOC` and `REALLOC` of `lisk_public.h` and `copy_data` of `lisk_public.c`, on a block that is a list of
bytes.  The answer of the system to a request is an argument; a copy that leaves its block is `none`.
-/

namespace CPractice.Memory

/-! ## Requests -/

/-- The answer to a request for memory: refused, or the bytes found in the new part of the block. -/
abbrev Grant := Option (ℕ → UInt8)

/-- `ALLOC`. -/
def malloc (size : ℕ) (grant : Grant) : Option Bytes := grant.map fun fill ↦ (List.range size).map fill

/-- `REALLOC`: the front of the old block is kept. -/
def realloc (block : Option Bytes) (size : ℕ) (grant : Grant) : Option Bytes :=
  grant.map fun fill ↦ (block.getD []).take size ++ ((List.range size).drop (block.getD []).length).map fill

theorem length_realloc {block : Option Bytes} {size : ℕ} {grant : Grant} {new : Bytes}
    (h : realloc block size grant = some new) : new.length = size := by
  rcases Option.map_eq_some_iff.mp h with ⟨fill, -, rfl⟩
  rw [List.length_append, List.length_take, List.length_map, List.length_drop, List.length_range]
  omega

theorem realloc_some (block : Bytes) (size : ℕ) (fill : ℕ → UInt8) :
    ∃ rest, realloc (some block) size (some fill) = some (block.take size ++ rest) :=
  ⟨_, rfl⟩

/-! ## Copies -/

/-- `memmove` inside of a block. -/
def moveWithin (block : Bytes) (dst src len : ℕ) : Option Bytes :=
  if dst + len ≤ block.length ∧ src + len ≤ block.length then
    some (block.take dst ++ (block.drop src).take len ++ block.drop (dst + len))
  else none

/-- `memmove` from other memory into a block. -/
def moveInto (block : Bytes) (dst : ℕ) (array : Bytes) (len : ℕ) : Option Bytes :=
  if dst + len ≤ block.length ∧ len ≤ array.length then
    some (block.take dst ++ array.take len ++ block.drop (dst + len))
  else none

/-- `CPY` between two places of the block: nothing is done for an empty range, and a source that is the
destination is an error. -/
def cpyWithin (data : Option Bytes) (dst src len : ℕ) : Option (ℤ × Option Bytes) :=
  if len ≤ 0 then some (0, data)
  else if dst ≠ src then do
    let block ← data
    let block ← moveWithin block dst src len
    some (0, some block)
  else some (-1, data)

/-- `CPY` from memory outside of the block. -/
def cpyInto (data : Option Bytes) (dst : ℕ) (array : Bytes) (len : ℕ) : Option (ℤ × Option Bytes) :=
  if len ≤ 0 then some (0, data)
  else do
    let block ← data
    let block ← moveInto block dst array len
    some (0, some block)

/-! ## What the copies do -/

section Blocks

variable {a b c e : Bytes} {array : Bytes}

/-- Bytes moved up to make room. -/
theorem moveWithin_up {gap : ℕ} (hroom : gap ≤ c.length) :
    ∃ hole, hole.length = gap ∧
      moveWithin (a ++ b ++ c) (a.length + gap) a.length b.length =
        some (a ++ hole ++ b ++ c.drop gap) := by
  refine ⟨(b ++ c).take gap, ?_, ?_⟩
  · rw [List.length_take, List.length_append]
    omega
  · rw [moveWithin, if_pos (by simp only [List.length_append]; omega)]
    congr 1
    have htake : (a ++ b ++ c).take (a.length + gap) = a ++ (b ++ c).take gap := by
      rw [List.append_assoc, List.take_length_add_append]
    have hmid : ((a ++ b ++ c).drop a.length).take b.length = b := by
      rw [List.append_assoc, List.drop_left, List.take_left]
    have hrest : (a ++ b ++ c).drop (a.length + gap + b.length) = c.drop gap := by
      rw [show a.length + gap + b.length = (a ++ b).length + gap by
        rw [List.length_append]
        omega, List.drop_length_add_append]
    rw [htake, hmid, hrest]

/-- Bytes moved down over others. -/
theorem moveWithin_down :
    ∃ rest, (b ++ rest).length = (e ++ b ++ c).length ∧
      moveWithin (a ++ (e ++ b ++ c)) a.length (a.length + e.length) b.length =
        some (a ++ (b ++ rest)) := by
  refine ⟨(e ++ b ++ c).drop b.length, ?_, ?_⟩
  · simp only [List.length_append, List.length_drop]
    omega
  · rw [moveWithin, if_pos (by simp only [List.length_append]; omega)]
    congr 1
    have hmid : ((a ++ (e ++ b ++ c)).drop (a.length + e.length)).take b.length = b := by
      rw [List.drop_length_add_append, List.append_assoc, List.drop_left, List.take_left]
    rw [List.take_left, hmid, List.drop_length_add_append, List.append_assoc]

/-- Bytes written over others. -/
theorem moveInto_eq (hlen : array.length = e.length) :
    moveInto (a ++ e ++ c) a.length array array.length = some (a ++ array ++ c) := by
  rw [moveInto, if_pos (by simp only [List.length_append]; omega), List.take_length]
  congr 1
  have htake : (a ++ e ++ c).take a.length = a := by rw [List.append_assoc, List.take_left]
  have hdrop : (a ++ e ++ c).drop (a.length + array.length) = c := by
    rw [hlen, ← List.length_append, List.drop_left]
  rw [htake, hdrop]

/-- A gap in front of bytes that stand behind others. -/
theorem cpyWithin_up {gap : ℕ} (hgap : 0 < gap) (hroom : gap ≤ c.length)
    (hb : 0 < b.length) :
    ∃ hole, hole.length = gap ∧
      cpyWithin (some (a ++ b ++ c)) (a.length + gap) a.length b.length =
        some (0, some (a ++ hole ++ b ++ c.drop gap)) := by
  rcases moveWithin_up (a := a) (b := b) hroom with ⟨hole, hhole, hmove⟩
  refine ⟨hole, hhole, ?_⟩
  rw [cpyWithin, if_neg (by omega), if_pos (by omega), Option.bind_eq_bind, Option.bind_some, hmove]
  rfl

theorem cpyInto_eq (harray : 0 < array.length) (hlen : array.length = e.length) :
    cpyInto (some (a ++ e ++ c)) a.length array array.length = some (0, some (a ++ array ++ c)) := by
  rw [cpyInto, if_neg (by omega), Option.bind_eq_bind, Option.bind_some, moveInto_eq hlen]
  rfl

/-- Bytes that stand behind others are moved over them. -/
theorem cpyWithin_down (he : 0 < e.length) (hb : 0 < b.length) :
    ∃ rest, (b ++ rest).length = (e ++ b ++ c).length ∧
      cpyWithin (some (a ++ (e ++ b ++ c))) a.length (a.length + e.length) b.length =
        some (0, some (a ++ (b ++ rest))) := by
  rcases moveWithin_down (a := a) (b := b) (c := c) (e := e) with ⟨rest, hrest, hmove⟩
  refine ⟨rest, hrest, ?_⟩
  rw [cpyWithin, if_neg (by omega), if_pos (by omega), Option.bind_eq_bind, Option.bind_some, hmove]
  rfl

end Blocks

/-! ## Sizes -/

/-- The bytes of the block behind a pointer that may be `nil`. -/
def allocated (data : Option Bytes) : ℕ := (data.getD []).length

@[simp]
theorem allocated_none : allocated none = 0 := rfl

@[simp]
theorem allocated_some (block : Bytes) : allocated (some block) = block.length := rfl

section Sizes

variable (data : Option Bytes) (dst src len : ℕ) (array : Bytes)

/-- A copy inside of the block succeeds and keeps its size. -/
theorem cpyWithin_sized
    (h : len = 0 ∨ (dst ≠ src ∧ dst + len ≤ allocated data ∧ src + len ≤ allocated data)) :
    ∃ data', cpyWithin data dst src len = some (0, data') ∧ allocated data' = allocated data ∧
      data'.isNone = data.isNone := by
  by_cases hzero : len = 0
  · exact ⟨data, by rw [cpyWithin, if_pos (by omega)], rfl, rfl⟩
  · rcases h.resolve_left hzero with ⟨hne, hdst, hsrc⟩
    cases data with
    | none =>
        rw [allocated_none] at hdst
        omega
    | some block =>
        rw [allocated_some] at hdst hsrc
        refine ⟨some (block.take dst ++ (block.drop src).take len ++ block.drop (dst + len)), ?_, ?_, rfl⟩
        · rw [cpyWithin, if_neg (by omega), if_pos hne, Option.bind_eq_bind, Option.bind_some, moveWithin,
            if_pos ⟨hdst, hsrc⟩]
          rfl
        · simp only [allocated_some, List.length_append, List.length_take, List.length_drop]
          omega

/-- A copy from other memory into the block succeeds and keeps its size. -/
theorem cpyInto_sized (h : len = 0 ∨ (dst + len ≤ allocated data ∧ len ≤ array.length)) :
    ∃ data', cpyInto data dst array len = some (0, data') ∧ allocated data' = allocated data ∧
      data'.isNone = data.isNone := by
  by_cases hzero : len = 0
  · exact ⟨data, by rw [cpyInto, if_pos (by omega)], rfl, rfl⟩
  · rcases h.resolve_left hzero with ⟨hdst, harray⟩
    cases data with
    | none =>
        rw [allocated_none] at hdst
        omega
    | some block =>
        rw [allocated_some] at hdst
        refine ⟨some (block.take dst ++ array.take len ++ block.drop (dst + len)), ?_, ?_, rfl⟩
        · rw [cpyInto, if_neg (by omega), Option.bind_eq_bind, Option.bind_some, moveInto,
            if_pos ⟨hdst, harray⟩]
          rfl
        · simp only [allocated_some, List.length_append, List.length_take, List.length_drop]
          omega

end Sizes

end CPractice.Memory
