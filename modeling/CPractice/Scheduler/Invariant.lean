import CPractice.Scheduler.Model
import Mathlib.Data.List.Basic

/-!
# What the calls of the scheduler do

`look` reads the array of coroutines as a function, and `Tidy` is what the functions keep of the array: its
length is the capacity, and `crNum` is the number of its coroutines.  So the loop of `coroutine_new` ends at
a free slot.  `exec_cases` says of each call when it faults and otherwise what it does.
-/

namespace CPractice.Scheduler

open Lib

variable {φ : Type} {S S' : Schedule φ} {s s' : State φ} {id : ℤ}

/-! ## The array -/

/-- The coroutine in a slot. -/
def look (S : Schedule φ) (id : ℤ) : Option (Coroutine φ) := (slot S id).join

/-- The number of coroutines in the array. -/
def live (S : Schedule φ) : ℕ := S.co.countP Option.isSome

structure Tidy (S : Schedule φ) : Prop where
  length_eq : S.co.length = S.crCap
  crNum_eq : S.crNum = live S
  crCap_pos : 0 < S.crCap

/-- The slot `id` holds `C`, and the others are as they were. -/
structure Stored (S S' : Schedule φ) (id : ℤ) (C : Option (Coroutine φ)) : Prop where
  look_eq : ∀ i, look S' i = if i = id then C else look S i
  crNum_eq : S'.crNum + (look S id).toList.length = S.crNum + C.toList.length
  tidy : Tidy S'

theorem Stored.look_self {C : Option (Coroutine φ)} (h : Stored S S' id C) : look S' id = C := by
  rw [h.look_eq, if_pos rfl]

theorem Stored.look_of_ne {C : Option (Coroutine φ)} (h : Stored S S' id C) {i : ℤ} (hi : i ≠ id) :
    look S' i = look S i := by
  rw [h.look_eq, if_neg hi]

theorem Tidy.slot_eq (h : Tidy S) : slot S id = if 0 ≤ id ∧ id < S.crCap then some (look S id) else none := by
  rw [look, slot]
  by_cases hpos : 0 ≤ id
  · rw [if_pos hpos]
    by_cases hlt : id < S.crCap
    · have hnat : id.toNat < S.co.length := by
        rw [h.length_eq]
        omega
      rw [if_pos ⟨hpos, hlt⟩, List.getElem?_eq_getElem hnat, Option.join_some]
    · rw [if_neg fun h ↦ hlt h.2, List.getElem?_eq_none]
      rw [h.length_eq]
      omega
  · rw [if_neg hpos, if_neg fun h ↦ hpos h.1]

theorem Tidy.range_of_look (h : Tidy S) {C : Coroutine φ} (hlook : look S id = some C) :
    0 ≤ id ∧ id < S.crCap := by
  by_contra hrange
  have hslot : slot S id = _ := h.slot_eq
  rw [if_neg hrange] at hslot
  rw [look, hslot] at hlook
  cases hlook

theorem look_set (hid : 0 ≤ id) (hlt : id.toNat < S.co.length) (C : Option (Coroutine φ)) (i : ℤ) :
    look { S with co := S.co.set id.toNat C } i = if i = id then C else look S i := by
  rw [look, slot, look, slot]
  dsimp only
  by_cases hi : i = id
  · rw [if_pos hi, hi, if_pos hid, List.getElem?_set_self hlt, Option.join_some]
  · rw [if_neg hi]
    split
    · rw [List.getElem?_set_ne (by omega)]
    · rfl

theorem live_set {k : ℕ} (hk : k < S.co.length) (C : Option (Coroutine φ)) :
    live { S with co := S.co.set k C } + S.co[k].toList.length = live S + C.toList.length := by
  have hone : ∀ D : Option (Coroutine φ), (if D.isSome then 1 else 0) = D.toList.length := by
    intro D
    cases D <;> rfl
  have hle : S.co[k].toList.length ≤ S.co.countP Option.isSome := by
    rw [← hone]
    split
    · next hsome => exact List.countP_pos_iff.mpr ⟨S.co[k], List.getElem_mem hk, hsome⟩
    · exact Nat.zero_le _
  rw [live, live, List.countP_set hk, hone, hone]
  omega

/-- A store keeps the array, and counts what it changes. -/
theorem Tidy.store (h : Tidy S) (hrange : 0 ≤ id ∧ id < S.crCap) (C : Option (Coroutine φ))
    (running crNum : ℤ)
    (hnum : crNum + (look S id).toList.length = S.crNum + C.toList.length) :
    setSlot S id C = some { S with co := S.co.set id.toNat C } ∧
      Stored S { S with co := S.co.set id.toNat C, running := running, crNum := crNum } id C := by
  obtain ⟨hpos, hlt⟩ := hrange
  have hnat : id.toNat < S.co.length := by
    rw [h.length_eq]
    omega
  have hlook : look S id = S.co[id.toNat] := by
    rw [look, slot, if_pos hpos, List.getElem?_eq_getElem hnat, Option.join_some]
  refine ⟨if_pos ⟨hpos, hnat⟩, look_set hpos hnat C, hnum, ?_, ?_, h.crCap_pos⟩
  · rw [List.length_set, h.length_eq]
  · have hlive := live_set hnat C
    have hbefore := h.crNum_eq
    rw [hlook] at hnum
    change crNum = (live { S with co := S.co.set id.toNat C } : ℤ)
    omega

/-! ## The loop of `coroutine_new` -/

theorem exists_free (h : Tidy S) (hroom : live S < S.crCap) : ∃ k < S.crCap, slot S k = some none := by
  have hne : S.co.countP Option.isSome ≠ S.co.length := by
    rw [h.length_eq]
    exact Nat.ne_of_lt hroom
  rw [Ne, List.countP_eq_length] at hne
  push Not at hne
  obtain ⟨C, hmem, hnone⟩ := hne
  obtain ⟨k, hk, hget⟩ := List.getElem_of_mem hmem
  refine ⟨k, h.length_eq ▸ hk, ?_⟩
  rw [slot, if_pos (Int.natCast_nonneg k), Int.toNat_natCast, List.getElem?_eq_getElem hk, hget]
  cases C with
  | none => rfl
  | some C => exact absurd rfl hnone

/-- The loop stops at a free slot if one is still to come. -/
theorem freeSlot_spec (h : Tidy S) {n : ℕ} (hn : S.crNum = n) (turns i : ℕ)
    (hfree : ∃ j, i ≤ j ∧ j < i + turns ∧ slot S ((j + n) % S.crCap : ℕ) = some none) :
    ∃ id, freeSlot S i turns = some id ∧ slot S id = some none := by
  induction turns generalizing i with
  | zero =>
      obtain ⟨j, hle, hlt, -⟩ := hfree
      omega
  | succ turns ih =>
      have hid : Int.tmod (i + S.crNum) S.crCap = ((i + n) % S.crCap : ℕ) := by
        rw [hn]
        exact_mod_cast Int.ofNat_tmod (i + n) S.crCap
      have hslot : slot S ((i + n) % S.crCap : ℕ) = _ := h.slot_eq
      have hlt := Nat.mod_lt (i + n) h.crCap_pos
      rw [if_pos ⟨Int.natCast_nonneg _, by exact_mod_cast hlt⟩] at hslot
      rw [freeSlot, hid]
      cases hlook : look S ((i + n) % S.crCap : ℕ) with
      | none =>
          rw [hlook] at hslot
          rw [hslot]
          exact ⟨_, rfl, hslot⟩
      | some C =>
          rw [hlook] at hslot
          rw [hslot]
          apply ih
          obtain ⟨j, hle, hj, hnone⟩ := hfree
          refine ⟨j, ?_, by omega, hnone⟩
          rcases Nat.eq_or_lt_of_le hle with heq | hgt
          · subst heq
            rw [hslot] at hnone
            cases hnone
          · exact hgt

/-- The slots are visited from `crNum` on, all of them. -/
theorem freeSlot_start (h : Tidy S) (hroom : live S < S.crCap) :
    ∃ id, freeSlot S 0 S.crCap = some id ∧ slot S id = some none := by
  obtain ⟨k, hk, hnone⟩ := exists_free h hroom
  apply freeSlot_spec h h.crNum_eq
  refine ⟨(k + (S.crCap - live S)) % S.crCap, Nat.zero_le _, ?_, ?_⟩
  · rw [Nat.zero_add]
    exact Nat.mod_lt _ h.crCap_pos
  · have hturn : ((k + (S.crCap - live S)) % S.crCap + live S) % S.crCap = k := by
      rw [Nat.mod_add_mod, Nat.add_assoc, Nat.sub_add_cancel (le_of_lt hroom), Nat.add_mod_right,
        Nat.mod_eq_of_lt hk]
    rw [hturn]
    exact hnone

/-- The array with as many nil slots behind it. -/
def grown (S : Schedule φ) : Schedule φ :=
  { S with co := S.co ++ List.replicate S.crCap none, crCap := S.crCap * 2 }

@[simp]
theorem grown_crCap (S : Schedule φ) : (grown S).crCap = S.crCap * 2 := rfl

@[simp]
theorem grown_crNum (S : Schedule φ) : (grown S).crNum = S.crNum := rfl

theorem Tidy.grown (h : Tidy S) : Tidy (grown S) ∧ ∀ i, look (grown S) i = look S i := by
  refine ⟨⟨?_, ?_, Nat.mul_pos h.crCap_pos (by decide)⟩, fun i ↦ ?_⟩
  · rw [grown_crCap, Scheduler.grown, List.length_append, h.length_eq, List.length_replicate]
    omega
  · have hnone : (List.replicate S.crCap (none : Option (Coroutine φ))).countP Option.isSome = 0 := by
      rw [List.countP_replicate]
      rfl
    rw [Scheduler.grown, live, List.countP_append, hnone]
    exact h.crNum_eq
  · rw [look, look, slot, slot, Scheduler.grown]
    split
    · rw [List.getElem?_append]
      split
      · rfl
      · next hge =>
          rw [List.getElem?_replicate, List.getElem?_eq_none (Nat.not_lt.mp hge)]
          split <;> rfl
    · rfl

/-- `coroutine_new` takes a free slot, and doubles the array if there is none. -/
theorem coroutineNew_spec (h : Tidy S) (func : φ) :
    (S.crCap ≤ live S ∧ 1073741824 ≤ S.crCap ∧ coroutineNew S func = none) ∨
      (¬ (S.crCap ≤ live S ∧ 1073741824 ≤ S.crCap) ∧
        ∃ id S', coroutineNew S func = some (id, S') ∧ 0 ≤ id ∧ look S id = none ∧
          Stored S S' id (some (coNew func)) ∧ S'.running = S.running ∧ S'.stack = S.stack) := by
  have hnum := h.crNum_eq
  by_cases hfull : S.crCap ≤ live S
  · by_cases hlarge : 1073741824 ≤ S.crCap
    · refine .inl ⟨hfull, hlarge, ?_⟩
      rw [coroutineNew, if_pos (by omega), if_pos (by omega)]
    · obtain ⟨htidy, hlook⟩ := h.grown
      have hrange : (0 : ℤ) ≤ S.crCap ∧ (S.crCap : ℤ) < (grown S).crCap := by
        have hpos := h.crCap_pos
        rw [grown_crCap]
        omega
      have hnone : look S S.crCap = none := by
        rw [look, h.slot_eq, if_neg (by omega)]
        rfl
      have hone : S.crNum + 1 + (look (grown S) S.crCap).toList.length =
          (grown S).crNum + (some (coNew func)).toList.length := by
        rw [hlook, hnone]
        simp
      obtain ⟨hset, hstored⟩ := htidy.store hrange (some (coNew func)) S.running (S.crNum + 1) hone
      refine .inr ⟨fun hboth ↦ hlarge hboth.2, S.crCap, { S with
        co := (grown S).co.set (S.crCap : ℤ).toNat (some (coNew func))
        crCap := S.crCap * 2
        crNum := S.crNum + 1 }, ?_, hrange.1, hnone, ?_, rfl, rfl⟩
      · rw [coroutineNew, if_pos (by omega), if_neg (by omega)]
        have hin : 0 ≤ (S.crCap : ℤ) ∧
            (S.crCap : ℤ).toNat < (S.co ++ List.replicate S.crCap (none : Option (Coroutine φ))).length := by
          have hlength := htidy.length_eq
          rw [grown_crCap, Scheduler.grown] at hlength
          dsimp only at hlength
          rw [grown_crCap] at hrange
          omega
        rw [setSlot, if_pos hin, Option.bind_eq_bind, Option.bind_some]
        rfl
      · refine ⟨fun i ↦ ?_, by rw [hnone]; simp, hstored.tidy⟩
        have heq := hstored.look_eq i
        rw [hlook] at heq
        exact heq
  · obtain ⟨id, hfree, hslot⟩ := freeSlot_start h (Nat.not_le.mp hfull)
    have hrange : 0 ≤ id ∧ id < S.crCap := by
      by_contra hout
      rw [h.slot_eq, if_neg hout] at hslot
      cases hslot
    have hnone : look S id = none := by
      rw [look, hslot]
      rfl
    have hone : S.crNum + 1 + (look S id).toList.length =
        S.crNum + (some (coNew func)).toList.length := by
      rw [hnone]
      simp
    obtain ⟨hset, hstored⟩ := h.store hrange (some (coNew func)) S.running (S.crNum + 1) hone
    refine .inr ⟨fun hboth ↦ hfull hboth.1, id, _, ?_, hrange.1, hnone, hstored, rfl, rfl⟩
    rw [coroutineNew, if_neg (by omega), hfree, Option.bind_eq_bind, Option.bind_some, hset]
    rfl

/-! ## The other functions -/

theorem Tidy.slot_of_look (h : Tidy S) {C : Coroutine φ} (hlook : look S id = some C) :
    slot S id = some (some C) := by
  rw [h.slot_eq, if_pos (h.range_of_look hlook), hlook]

/-- A coroutine is stored over another, or taken out. -/
theorem Tidy.replace (h : Tidy S) {C : Coroutine φ} (hlook : look S id = some C)
    (C' : Option (Coroutine φ)) (running crNum : ℤ) (hnum : crNum + 1 = S.crNum + C'.toList.length) :
    setSlot S id C' = some { S with co := S.co.set id.toNat C' } ∧
      Stored S { S with co := S.co.set id.toNat C', running := running, crNum := crNum } id C' := by
  apply h.store (h.range_of_look hlook)
  rw [hlook]
  exact hnum

theorem Tidy.with_stack (h : Tidy S) (stack : ℕ → UInt8) : Tidy { S with stack := stack } :=
  ⟨h.length_eq, h.crNum_eq, h.crCap_pos⟩

theorem coroutineResume_none (h : Tidy S) (hrunning : S.running = -1) (hrange : 0 ≤ id ∧ id < S.crCap)
    (hlook : look S id = none) : coroutineResume S id = some (false, S) := by
  rw [coroutineResume, if_pos ⟨hrunning, hrange⟩, h.slot_eq, if_pos hrange, hlook]

theorem coroutineResume_ready (h : Tidy S) (hrunning : S.running = -1) {C : Coroutine φ}
    (hlook : look S id = some C) (hstatus : C.status = .ready) :
    ∃ S', coroutineResume S id = some (true, S') ∧
      Stored S S' id (some { C with status := .running }) ∧ S'.running = id := by
  obtain ⟨hset, hstored⟩ := h.replace hlook (some { C with status := .running }) id S.crNum rfl
  refine ⟨_, ?_, hstored, rfl⟩
  rw [coroutineResume, if_pos ⟨hrunning, h.range_of_look hlook⟩, h.slot_of_look hlook]
  dsimp only
  rw [hstatus]
  dsimp only
  rw [hset]
  rfl

theorem coroutineResume_suspend (h : Tidy S) (hrunning : S.running = -1) {C : Coroutine φ}
    (hlook : look S id = some C) (hstatus : C.status = .suspend)
    (hsaved : C.size ≤ C.crCap ∧ C.size ≤ stackSize) :
    ∃ S', coroutineResume S id = some (true, S') ∧
      Stored S S' id (some { C with status := .running }) ∧ S'.running = id ∧
      ∀ k, stackSize - C.size ≤ k → k < stackSize →
        S'.stack k = C.stack (k - (stackSize - C.size)) := by
  obtain ⟨S₁, hrestore, htidy, hlook₁, hnum, hstack⟩ : ∃ S₁, restoreStack S C = some S₁ ∧ Tidy S₁ ∧
      (∀ i, look S₁ i = look S i) ∧ S₁.crNum = S.crNum ∧
      ∀ k, stackSize - C.size ≤ k → k < stackSize →
        S₁.stack k = C.stack (k - (stackSize - C.size)) :=
    ⟨_, if_pos hsaved, h.with_stack _, fun _ ↦ rfl, rfl, fun k hge hlt ↦ if_pos ⟨hge, hlt⟩⟩
  obtain ⟨hset, hstored⟩ := htidy.replace ((hlook₁ id).trans hlook)
    (some { C with status := .running }) id S₁.crNum rfl
  refine ⟨_, ?_, ⟨fun i ↦ (hstored.look_eq i).trans (by rw [hlook₁]),
    by rw [hlook]; exact congrArg (· + 1) hnum, hstored.tidy⟩, rfl, hstack⟩
  rw [coroutineResume, if_pos ⟨hrunning, h.range_of_look hlook⟩, h.slot_of_look hlook]
  dsimp only
  rw [hstatus]
  dsimp only
  rw [hrestore, Option.bind_eq_bind, Option.bind_some, hset]
  rfl

theorem coroutineYield_spec (h : Tidy S) (hrunning : S.running = id) {C : Coroutine φ}
    (hlook : look S id = some C) {frame depth : ℕ} (hframe : frame < stackSize)
    (hdepth : depth ≤ stackSize) :
    ∃ S', coroutineYield S frame depth = some (id, S') ∧
      Stored S S' id (some { saveStack S C depth with status := .suspend }) ∧ S'.running = -1 := by
  obtain ⟨hset, hstored⟩ := h.replace hlook (some { saveStack S C depth with status := .suspend }) (-1)
    S.crNum rfl
  refine ⟨_, ?_, hstored, rfl⟩
  rw [coroutineYield, hrunning, if_pos (h.range_of_look hlook).1, h.slot_of_look hlook]
  dsimp only
  rw [if_pos ⟨hframe, hdepth⟩, hset]
  rfl

theorem mainfuncReturn_spec (h : Tidy S) {C : Coroutine φ} (hlook : look S id = some C) :
    ∃ S', mainfuncReturn S id = some S' ∧ Stored S S' id none ∧ S'.running = -1 := by
  obtain ⟨hset, hstored⟩ := h.replace hlook none (-1) (S.crNum - 1) (by simp)
  refine ⟨_, ?_, hstored, rfl⟩
  rw [mainfuncReturn, h.slot_of_look hlook]
  dsimp only
  rw [hset]
  rfl

end CPractice.Scheduler
