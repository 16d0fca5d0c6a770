import CPractice.CircularList.Model
import CPractice.Lib.Doubly

/-!
# The sequences that the circular lists hold

The abstract state has, for each list, the sequence of its elements, and the elements that are
erased but still allocated.  `Rep` relates it to the nodes: every list is one cycle through its head
with `next` and `prev` inverse to each other, no node is in two lists, and the allocated nodes are
those of the lists and the erased ones.  All operations of the source are a node attached in a gap of
a list, a node detached, a node allocated and a node released.
-/

namespace CPractice.CircularList

open Lib

/-! ## The abstract state -/

/-- Sequences of elements, by the head of their list, and the erased elements, with the bytes of
every element. -/
structure Board where
  seq : ℕ → Option (List ℕ)
  erased : List ℕ
  value : ℕ → Option Bytes

namespace Board

/-- `x` before the element `cur`. -/
def insertBefore (cur x : ℕ) : List ℕ → List ℕ
  | [] => []
  | e :: es => if e = cur then x :: e :: es else e :: insertBefore cur x es

/-- `x` after the element `cur`. -/
def insertAfter (cur x : ℕ) : List ℕ → List ℕ
  | [] => []
  | e :: es => if e = cur then e :: x :: es else e :: insertAfter cur x es

/-- `x` before the position `cur`, where before the head is the end of the list. -/
def seqFront (cur x head : ℕ) (es : List ℕ) : List ℕ :=
  if cur = head then es ++ [x] else insertBefore cur x es

/-- `x` after the position `cur`, where after the head is the beginning of the list. -/
def seqBack (cur x head : ℕ) (es : List ℕ) : List ℕ :=
  if cur = head then x :: es else insertAfter cur x es

/-- An erased element is put into a list. -/
def attach (place : ℕ → List ℕ → List ℕ) (x : ℕ) (b : Board) : Board :=
  { b with seq := fun head ↦ (b.seq head).map (place head), erased := b.erased.erase x }

/-- An element is taken out of its list. -/
def detach (x : ℕ) (b : Board) : Board :=
  { b with seq := fun head ↦ (b.seq head).map (·.erase x), erased := x :: b.erased }

/-- A new element that is in no list yet. -/
def alloc (x : ℕ) (data : Bytes) (b : Board) : Board :=
  { b with erased := x :: b.erased, value := Function.update b.value x (some data) }

/-- An erased element is released. -/
def release (x : ℕ) (b : Board) : Board :=
  { b with erased := b.erased.erase x, value := Function.update b.value x none }

/-- A new, empty list. -/
def addList (head : ℕ) (word : Bytes) (b : Board) : Board :=
  { b with seq := Function.update b.seq head (some []),
           value := Function.update b.value head (some word) }

/-- `a` is the head or an element of a list. -/
def Listed (b : Board) (a : ℕ) : Prop := ∃ head es, b.seq head = some es ∧ a ∈ head :: es

end Board

/-! ## Reading the nodes -/

def nextOf (nodes : Nodes) (a : ℕ) : Option ℕ := (nodes a).map NodeT.next

def prevOf (nodes : Nodes) (a : ℕ) : Option ℕ := (nodes a).map NodeT.prev

def dataOf (nodes : Nodes) (a : ℕ) : Option Bytes := (nodes a).map NodeT.data

variable {nodes nodes' : Nodes} {b : Board} {a cur x head : ℕ} {es left right : List ℕ}

theorem isSome_dataOf (nodes : Nodes) (a : ℕ) : (dataOf nodes a).isSome = (nodes a).isSome :=
  Option.isSome_map

section Stores

variable (nodes) (node target a : ℕ)

@[simp]
theorem isSome_storeNext : (storeNext nodes node target a).isSome = (nodes a).isSome := by
  unfold storeNext
  split <;> simp

@[simp]
theorem isSome_storePrev : (storePrev nodes node target a).isSome = (nodes a).isSome := by
  unfold storePrev
  split <;> simp

@[simp]
theorem dataOf_storeNext : dataOf (storeNext nodes node target) = dataOf nodes := by
  funext a
  unfold dataOf storeNext
  split <;> simp [Function.comp_def]

@[simp]
theorem dataOf_storePrev : dataOf (storePrev nodes node target) = dataOf nodes := by
  funext a
  unfold dataOf storePrev
  split <;> simp [Function.comp_def]

@[simp]
theorem nextOf_storePrev : nextOf (storePrev nodes node target) = nextOf nodes := by
  funext a
  unfold nextOf storePrev
  split <;> simp [Function.comp_def]

@[simp]
theorem prevOf_storeNext : prevOf (storeNext nodes node target) = prevOf nodes := by
  funext a
  unfold prevOf storeNext
  split <;> simp [Function.comp_def]

end Stores

theorem nextOf_storeNext (hlive : (nodes x).isSome) (target : ℕ) :
    nextOf (storeNext nodes x target) = Function.update (nextOf nodes) x (some target) := by
  funext a
  by_cases ha : a = x
  · rcases Option.isSome_iff_exists.mp hlive with ⟨n, hn⟩
    simp [nextOf, storeNext, ha, hn]
  · simp [nextOf, storeNext, ha]

theorem prevOf_storePrev (hlive : (nodes x).isSome) (target : ℕ) :
    prevOf (storePrev nodes x target) = Function.update (prevOf nodes) x (some target) := by
  funext a
  by_cases ha : a = x
  · rcases Option.isSome_iff_exists.mp hlive with ⟨n, hn⟩
    simp [prevOf, storePrev, ha, hn]
  · simp [prevOf, storePrev, ha]

/-! ## The representation -/

structure Rep (nodes : Nodes) (b : Board) : Prop where
  cycle : ∀ head es, b.seq head = some es → Cycle (nextOf nodes) (prevOf nodes) head es
  nodup : ∀ head es, b.seq head = some es → (head :: es).Nodup
  apart : ∀ head es head' es' a, b.seq head = some es → b.seq head' = some es' →
    a ∈ head :: es → a ∈ head' :: es' → head = head'
  erased_nodup : b.erased.Nodup
  erased_apart : ∀ a ∈ b.erased, ¬ b.Listed a
  live : ∀ a, (nodes a).isSome ↔ b.Listed a ∨ a ∈ b.erased
  value : ∀ a, dataOf nodes a = b.value a
  aligned : ∀ a, (nodes a).isSome → a ≠ 0 ∧ 8 ∣ a

namespace Rep

theorem live_of_mem (h : Rep nodes b) (hseq : b.seq head = some es) (ha : a ∈ head :: es) :
    (nodes a).isSome := (h.live a).mpr (.inl ⟨head, es, hseq, ha⟩)

/-- One list and the erased elements exchange nodes; the links of all other nodes are kept. -/
theorem change_list {es' erased' : List ℕ} (h : Rep nodes b) (hseq : b.seq head = some es)
    (hcycle : Cycle (nextOf nodes') (prevOf nodes') head es') (hnodup : (head :: es').Nodup)
    (hframe : ∀ a, a ∉ b.erased → a ∉ head :: es →
      nextOf nodes' a = nextOf nodes a ∧ prevOf nodes' a = prevOf nodes a)
    (hdata : ∀ a, dataOf nodes' a = dataOf nodes a) (herased : erased'.Nodup)
    (hmem : ∀ a, (a ∈ head :: es' ∨ a ∈ erased') ↔ (a ∈ head :: es ∨ a ∈ b.erased))
    (hdisjoint : ∀ a ∈ erased', a ∉ head :: es') :
    Rep nodes' { b with seq := Function.update b.seq head (some es'), erased := erased' } := by
  have hlive : ∀ a, (nodes' a).isSome = (nodes a).isSome := by
    intro a
    rw [← isSome_dataOf, hdata, isSome_dataOf]
  -- another list of the new board is a list of the old one, apart from this one
  have hother : ∀ head' list, head' ≠ head → b.seq head' = some list → ∀ a ∈ head' :: list,
      a ∉ head :: es ∧ a ∉ b.erased := by
    intro head' list hne hlist a ha
    constructor
    · intro hmem
      exact hne (h.apart _ _ _ _ a hlist hseq ha hmem)
    · intro hmem
      exact h.erased_apart a hmem ⟨head', list, hlist, ha⟩
  have hnot : ∀ head' list, head' ≠ head → b.seq head' = some list → ∀ a ∈ head' :: list,
      a ∉ head :: es' ∧ a ∉ erased' := by
    intro head' list hne hlist a ha
    rw [← not_or, hmem a, not_or]
    exact hother head' list hne hlist a ha
  have hupdate : ∀ head' list, Function.update b.seq head (some es') head' = some list →
      (head' = head ∧ list = es') ∨ (head' ≠ head ∧ b.seq head' = some list) := by
    intro head' list hlist
    by_cases hhead : head' = head
    · left
      rw [hhead, Function.update_self, Option.some_inj] at hlist
      exact ⟨hhead, hlist.symm⟩
    · right
      rw [Function.update_of_ne hhead] at hlist
      exact ⟨hhead, hlist⟩
  constructor
  case cycle =>
    intro head' list hlist
    rcases hupdate head' list hlist with ⟨rfl, rfl⟩ | ⟨hne, hold⟩
    · exact hcycle
    · apply (h.cycle head' list hold).congr
      · intro a ha
        rcases hother head' list hne hold a ha with ⟨hes, herased⟩
        exact (hframe a herased hes).1
      · intro a ha
        rcases hother head' list hne hold a ha with ⟨hes, herased⟩
        exact (hframe a herased hes).2
  case nodup =>
    intro head' list hlist
    rcases hupdate head' list hlist with ⟨rfl, rfl⟩ | ⟨-, hold⟩
    · exact hnodup
    · exact h.nodup head' list hold
  case apart =>
    intro head₁ list₁ head₂ list₂ a h₁ h₂ ha₁ ha₂
    rcases hupdate head₁ list₁ h₁ with ⟨rfl, rfl⟩ | ⟨hne₁, hold₁⟩
    · rcases hupdate head₂ list₂ h₂ with ⟨rfl, rfl⟩ | ⟨hne₂, hold₂⟩
      · rfl
      · exact absurd ha₁ (hnot head₂ list₂ hne₂ hold₂ a ha₂).1
    · rcases hupdate head₂ list₂ h₂ with ⟨rfl, rfl⟩ | ⟨hne₂, hold₂⟩
      · exact absurd ha₂ (hnot head₁ list₁ hne₁ hold₁ a ha₁).1
      · exact h.apart _ _ _ _ a hold₁ hold₂ ha₁ ha₂
  case erased_nodup => exact herased
  case erased_apart =>
    rintro a ha ⟨head', list, hlist, hmem'⟩
    rcases hupdate head' list hlist with ⟨rfl, rfl⟩ | ⟨hne, hold⟩
    · exact hdisjoint a ha hmem'
    · exact (hnot head' list hne hold a hmem').2 ha
  case live =>
    intro a
    rw [hlive, h.live]
    have hiff := hmem a
    constructor
    · rintro (⟨head', list, hlist, ha⟩ | ha)
      · by_cases hhead : head' = head
        · subst hhead
          rw [hseq, Option.some_inj] at hlist
          subst hlist
          rcases hiff.mpr (.inl ha) with hnew | hnew
          · exact .inl ⟨head', es', Function.update_self _ _ _, hnew⟩
          · exact .inr hnew
        · exact .inl ⟨head', list, (Function.update_of_ne hhead _ _).trans hlist, ha⟩
      · rcases hiff.mpr (.inr ha) with hnew | hnew
        · exact .inl ⟨head, es', Function.update_self _ _ _, hnew⟩
        · exact .inr hnew
    · rintro (⟨head', list, hlist, ha⟩ | ha)
      · rcases hupdate head' list hlist with ⟨rfl, rfl⟩ | ⟨-, hold⟩
        · rcases hiff.mp (.inl ha) with hnew | hnew
          · exact .inl ⟨head', es, hseq, hnew⟩
          · exact .inr hnew
        · exact .inl ⟨head', list, hold, ha⟩
      · rcases hiff.mp (.inr ha) with hnew | hnew
        · exact .inl ⟨head, es, hseq, hnew⟩
        · exact .inr hnew
  case value =>
    intro a
    rw [hdata]
    exact h.value a
  case aligned =>
    intro a ha
    rw [hlive] at ha
    exact h.aligned a ha

/-- An erased element is linked into a gap of a list. -/
theorem attach_gap (h : Rep nodes b) (hseq : b.seq head = some (left ++ right)) (hx : x ∈ b.erased)
    (hnext : ∀ a, nextOf nodes' a = if a = x then some (firstOr head right)
      else if a = lastFrom head left then some x else nextOf nodes a)
    (hprev : ∀ a, prevOf nodes' a = if a = x then some (lastFrom head left)
      else if a = firstOr head right then some x else prevOf nodes a)
    (hdata : ∀ a, dataOf nodes' a = dataOf nodes a) :
    Rep nodes' { b with
      seq := Function.update b.seq head (some (left ++ x :: right)), erased := b.erased.erase x } := by
  have hnodup := h.nodup _ _ hseq
  have hxout : x ∉ head :: (left ++ right) := fun hmem ↦ h.erased_apart x hx ⟨_, _, hseq, hmem⟩
  have hne : ∀ a ∈ head :: (left ++ right), a ≠ x := by
    intro a ha heq
    exact hxout (heq ▸ ha)
  have hlast : lastFrom head left ∈ head :: (left ++ right) := Cycle.lastFrom_mem head left right
  have hfirst : firstOr head right ∈ head :: (left ++ right) := Cycle.firstOr_mem head left right
  have hperm : (x :: head :: (left ++ right)).Perm (head :: (left ++ x :: right)) :=
    (List.Perm.swap head x _).trans (List.perm_middle.symm.cons head)
  have herase : ∀ a, a ∈ b.erased.erase x ↔ a ≠ x ∧ a ∈ b.erased :=
    fun a ↦ h.erased_nodup.mem_erase_iff
  apply h.change_list hseq
  · apply (h.cycle _ _ hseq).link hnodup
    · rw [hnext, if_neg (hne _ hlast), if_pos rfl]
    · rw [hprev, if_pos rfl]
    · rw [hnext, if_pos rfl]
    · rw [hprev, if_neg (hne _ hfirst), if_pos rfl]
    · intro a ha hlastNe
      rw [hnext, if_neg (hne a ha), if_neg hlastNe]
    · intro a ha hfirstNe
      rw [hprev, if_neg (hne a ha), if_neg hfirstNe]
  · exact hperm.nodup_iff.mp (List.nodup_cons.mpr ⟨hxout, hnodup⟩)
  · intro a herased hlist
    have hax : a ≠ x := fun heq ↦ herased (heq ▸ hx)
    have halast : a ≠ lastFrom head left := fun heq ↦ hlist (heq ▸ hlast)
    have hafirst : a ≠ firstOr head right := fun heq ↦ hlist (heq ▸ hfirst)
    rw [hnext, hprev, if_neg hax, if_neg hax, if_neg halast, if_neg hafirst]
    exact ⟨rfl, rfl⟩
  · exact hdata
  · exact h.erased_nodup.erase x
  · intro a
    rw [← hperm.mem_iff, List.mem_cons, herase]
    by_cases hax : a = x
    · simp [hax, hx]
    · simp [hax]
  · intro a ha hmem
    rw [← hperm.mem_iff, List.mem_cons] at hmem
    rcases (herase a).mp ha with ⟨hax, hold⟩
    rcases hmem with heq | hlist
    · exact hax heq
    · exact h.erased_apart a hold ⟨_, _, hseq, hlist⟩

/-- An element is unlinked. -/
theorem detach_gap {onward back : ℕ} (h : Rep nodes b) (hseq : b.seq head = some (left ++ x :: right))
    (hnext : ∀ a, nextOf nodes' a = if a = x then some onward
      else if a = lastFrom head left then some (firstOr head right) else nextOf nodes a)
    (hprev : ∀ a, prevOf nodes' a = if a = x then some back
      else if a = firstOr head right then some (lastFrom head left) else prevOf nodes a)
    (hdata : ∀ a, dataOf nodes' a = dataOf nodes a) :
    Rep nodes' { b with
      seq := Function.update b.seq head (some (left ++ right)), erased := x :: b.erased } := by
  have hnodup := h.nodup _ _ hseq
  have hperm : (x :: head :: (left ++ right)).Perm (head :: (left ++ x :: right)) :=
    (List.Perm.swap head x _).trans (List.perm_middle.symm.cons head)
  have hsplit := List.nodup_cons.mp (hperm.nodup_iff.mpr hnodup)
  have hne : ∀ a ∈ head :: (left ++ right), a ≠ x := by
    intro a ha heq
    exact hsplit.1 (heq ▸ ha)
  have hlast : lastFrom head left ∈ head :: (left ++ right) := Cycle.lastFrom_mem head left right
  have hfirst : firstOr head right ∈ head :: (left ++ right) := Cycle.firstOr_mem head left right
  have hxin : x ∈ head :: (left ++ x :: right) := hperm.mem_iff.mp List.mem_cons_self
  have hxout : x ∉ b.erased := fun hx ↦ h.erased_apart x hx ⟨_, _, hseq, hxin⟩
  apply h.change_list hseq
  · apply (h.cycle _ _ hseq).unlink hnodup
    · rw [hnext, if_neg (hne _ hlast), if_pos rfl]
    · rw [hprev, if_neg (hne _ hfirst), if_pos rfl]
    · intro a ha hlastNe
      rw [hnext, if_neg (hne a ha), if_neg hlastNe]
    · intro a ha hfirstNe
      rw [hprev, if_neg (hne a ha), if_neg hfirstNe]
  · exact hsplit.2
  · intro a _ hlist
    rw [← hperm.mem_iff, List.mem_cons, not_or] at hlist
    have halast : a ≠ lastFrom head left := fun heq ↦ hlist.2 (heq ▸ hlast)
    have hafirst : a ≠ firstOr head right := fun heq ↦ hlist.2 (heq ▸ hfirst)
    rw [hnext, hprev, if_neg hlist.1, if_neg hlist.1, if_neg halast, if_neg hafirst]
    exact ⟨rfl, rfl⟩
  · exact hdata
  · exact List.nodup_cons.mpr ⟨hxout, h.erased_nodup⟩
  · intro a
    have hlist : a ∈ head :: (left ++ x :: right) ↔ a = x ∨ a ∈ head :: (left ++ right) := by
      rw [← hperm.mem_iff, List.mem_cons]
    have hcons : a ∈ x :: b.erased ↔ a = x ∨ a ∈ b.erased := List.mem_cons
    rw [hlist, hcons, or_assoc]
    exact or_left_comm
  · intro a ha hmem
    rcases List.mem_cons.mp ha with heq | hold
    · exact hsplit.1 (heq ▸ hmem)
    · exact h.erased_apart a hold ⟨_, _, hseq, hperm.mem_iff.mp (List.mem_cons_of_mem x hmem)⟩

/-- A fresh node is in no list and not erased. -/
theorem not_mem_of_fresh (h : Rep nodes b) (hfresh : (nodes x).isNone) :
    ¬ b.Listed x ∧ x ∉ b.erased := by
  have hdead : ¬ (nodes x).isSome := by
    rw [Option.isNone_iff_eq_none.mp hfresh]
    exact Bool.false_ne_true
  rw [h.live x, not_or] at hdead
  exact hdead

/-- The lists do not read a node outside them. -/
theorem cycle_update {n : Option NodeT} (h : Rep nodes b) (hlisted : ¬ b.Listed x) (head : ℕ)
    (es : List ℕ) (hseq : b.seq head = some es) :
    Cycle (nextOf (Function.update nodes x n)) (prevOf (Function.update nodes x n)) head es := by
  have hne : ∀ a ∈ head :: es, a ≠ x := by
    intro a ha heq
    exact hlisted ⟨head, es, hseq, heq ▸ ha⟩
  apply (h.cycle head es hseq).congr
  · intro a ha
    unfold nextOf
    rw [Function.update_of_ne (hne a ha)]
  · intro a ha
    unfold prevOf
    rw [Function.update_of_ne (hne a ha)]

/-- A node is allocated. -/
theorem alloc {n : NodeT} (h : Rep nodes b) (hx : x ≠ 0) (haligned : 8 ∣ x)
    (hfresh : (nodes x).isNone) :
    Rep (Function.update nodes x (some n)) (b.alloc x n.data) := by
  rcases h.not_mem_of_fresh hfresh with ⟨hlisted, herased⟩
  constructor
  case cycle => exact h.cycle_update hlisted
  case nodup => exact h.nodup
  case apart => exact h.apart
  case erased_nodup => exact List.nodup_cons.mpr ⟨herased, h.erased_nodup⟩
  case erased_apart =>
    intro a ha
    rcases List.mem_cons.mp ha with rfl | hold
    · exact hlisted
    · exact h.erased_apart a hold
  case live =>
    intro a
    have hlive := h.live a
    by_cases hax : a = x
    · simp [hax, Board.alloc]
    · rw [Function.update_of_ne hax, hlive]
      simp [Board.alloc, hax, Board.Listed]
  case value =>
    intro a
    by_cases hax : a = x
    · simp [hax, dataOf, Board.alloc]
    · have hold := h.value a
      simp only [dataOf, Board.alloc, Function.update_of_ne hax] at hold ⊢
      exact hold
  case aligned =>
    intro a ha
    by_cases hax : a = x
    · rw [hax]
      exact ⟨hx, haligned⟩
    · rw [Function.update_of_ne hax] at ha
      exact h.aligned a ha

/-- An erased node is released. -/
theorem release (h : Rep nodes b) (hx : x ∈ b.erased) :
    Rep (Function.update nodes x none) (b.release x) := by
  have hlisted := h.erased_apart x hx
  constructor
  case cycle => exact h.cycle_update hlisted
  case nodup => exact h.nodup
  case apart => exact h.apart
  case erased_nodup => exact h.erased_nodup.erase x
  case erased_apart =>
    intro a ha
    exact h.erased_apart a (List.mem_of_mem_erase ha)
  case live =>
    intro a
    have hlive := h.live a
    by_cases hax : a = x
    · have hnot : ¬ ((b.release x).Listed x ∨ x ∈ b.erased.erase x) := by
        rintro (hmem | hmem)
        · exact hlisted hmem
        · exact h.erased_nodup.not_mem_erase hmem
      simp only [hax, Function.update_self]
      constructor
      · intro hsome
        cases hsome
      · intro hor
        exact absurd hor hnot
    · rw [Function.update_of_ne hax, hlive]
      have hmem : a ∈ b.erased.erase x ↔ a ∈ b.erased := by
        rw [h.erased_nodup.mem_erase_iff]
        exact and_iff_right hax
      simp [Board.release, Board.Listed, hmem]
  case value =>
    intro a
    by_cases hax : a = x
    · simp [hax, dataOf, Board.release]
    · have hold := h.value a
      simp only [dataOf, Board.release, Function.update_of_ne hax] at hold ⊢
      exact hold
  case aligned =>
    intro a ha
    by_cases hax : a = x
    · rw [hax, Function.update_self] at ha
      cases ha
    · rw [Function.update_of_ne hax] at ha
      exact h.aligned a ha

/-- A list is made. -/
theorem addList {word : Bytes} (h : Rep nodes b) (hx : x ≠ 0) (haligned : 8 ∣ x)
    (hfresh : (nodes x).isNone) :
    Rep (Function.update nodes x (some ⟨x, x, word⟩)) (b.addList x word) := by
  rcases h.not_mem_of_fresh hfresh with ⟨hlisted, herased⟩
  have hupdate : ∀ head es, (b.addList x word).seq head = some es →
      (head = x ∧ es = []) ∨ (head ≠ x ∧ b.seq head = some es) := by
    intro head es hseq
    by_cases hhead : head = x
    · left
      simp only [Board.addList, hhead, Function.update_self, Option.some_inj] at hseq
      exact ⟨hhead, hseq.symm⟩
    · right
      simp only [Board.addList, Function.update_of_ne hhead] at hseq
      exact ⟨hhead, hseq⟩
  have hnot : ∀ head es, b.seq head = some es → x ∉ head :: es := by
    intro head es hseq hmem
    exact hlisted ⟨head, es, hseq, hmem⟩
  have hlistedIff : ∀ a, (b.addList x word).Listed a ↔ a = x ∨ b.Listed a := by
    intro a
    constructor
    · rintro ⟨head, es, hseq, ha⟩
      rcases hupdate head es hseq with ⟨rfl, rfl⟩ | ⟨-, hold⟩
      · exact .inl (List.mem_singleton.mp ha)
      · exact .inr ⟨head, es, hold, ha⟩
    · rintro (rfl | ⟨head, es, hseq, ha⟩)
      · exact ⟨a, [], Function.update_self _ _ _, List.mem_cons_self⟩
      · have hhead : head ≠ x := fun heq ↦ hnot head es hseq (heq ▸ List.mem_cons_self)
        exact ⟨head, es, (Function.update_of_ne hhead _ _).trans hseq, ha⟩
  constructor
  case cycle =>
    intro head es hseq
    rcases hupdate head es hseq with ⟨rfl, rfl⟩ | ⟨-, hold⟩
    · simp [Lib.Cycle, DoublyLinked, nextOf, prevOf]
    · exact h.cycle_update hlisted head es hold
  case nodup =>
    intro head es hseq
    rcases hupdate head es hseq with ⟨rfl, rfl⟩ | ⟨-, hold⟩
    · exact List.nodup_singleton head
    · exact h.nodup head es hold
  case apart =>
    intro head₁ es₁ head₂ es₂ a h₁ h₂ ha₁ ha₂
    rcases hupdate head₁ es₁ h₁ with ⟨rfl, rfl⟩ | ⟨hne₁, hold₁⟩
    · rcases hupdate head₂ es₂ h₂ with ⟨rfl, rfl⟩ | ⟨hne₂, hold₂⟩
      · rfl
      · exact absurd (List.mem_singleton.mp ha₁ ▸ ha₂) (hnot head₂ es₂ hold₂)
    · rcases hupdate head₂ es₂ h₂ with ⟨rfl, rfl⟩ | ⟨hne₂, hold₂⟩
      · exact absurd (List.mem_singleton.mp ha₂ ▸ ha₁) (hnot head₁ es₁ hold₁)
      · exact h.apart _ _ _ _ a hold₁ hold₂ ha₁ ha₂
  case erased_nodup => exact h.erased_nodup
  case erased_apart =>
    intro a ha hmem
    rcases (hlistedIff a).mp hmem with rfl | hold
    · exact herased ha
    · exact h.erased_apart a ha hold
  case live =>
    intro a
    have hlive := h.live a
    rw [hlistedIff, or_assoc]
    by_cases hax : a = x
    · simp [hax]
    · rw [Function.update_of_ne hax, hlive]
      simp [hax, Board.addList]
  case value =>
    intro a
    by_cases hax : a = x
    · simp [hax, dataOf, Board.addList]
    · have hold := h.value a
      simp only [dataOf, Board.addList, Function.update_of_ne hax] at hold ⊢
      exact hold
  case aligned =>
    intro a ha
    by_cases hax : a = x
    · rw [hax]
      exact ⟨hx, haligned⟩
    · rw [Function.update_of_ne hax] at ha
      exact h.aligned a ha

end Rep

/-! ## Positions -/

namespace Board

theorem insertBefore_of_notMem (h : cur ∉ es) : insertBefore cur x es = es := by
  induction es with
  | nil => rfl
  | cons e es ih =>
      rw [List.mem_cons, not_or] at h
      rw [insertBefore, if_neg (Ne.symm h.1), ih h.2]

theorem insertAfter_of_notMem (h : cur ∉ es) : insertAfter cur x es = es := by
  induction es with
  | nil => rfl
  | cons e es ih =>
      rw [List.mem_cons, not_or] at h
      rw [insertAfter, if_neg (Ne.symm h.1), ih h.2]

theorem insertBefore_append (h : cur ∉ left) :
    insertBefore cur x (left ++ cur :: right) = left ++ x :: cur :: right := by
  induction left with
  | nil => simp [insertBefore]
  | cons e left ih =>
      rw [List.mem_cons, not_or] at h
      rw [List.cons_append, insertBefore, if_neg (Ne.symm h.1), ih h.2, List.cons_append]

theorem insertAfter_append (h : cur ∉ left) :
    insertAfter cur x (left ++ cur :: right) = left ++ cur :: x :: right := by
  induction left with
  | nil => simp [insertAfter]
  | cons e left ih =>
      rw [List.mem_cons, not_or] at h
      rw [List.cons_append, insertAfter, if_neg (Ne.symm h.1), ih h.2, List.cons_append]

theorem seqFront_of_notMem (h : cur ∉ head :: es) : seqFront cur x head es = es := by
  rw [List.mem_cons, not_or] at h
  rw [seqFront, if_neg h.1, insertBefore_of_notMem h.2]

theorem seqBack_of_notMem (h : cur ∉ head :: es) : seqBack cur x head es = es := by
  rw [List.mem_cons, not_or] at h
  rw [seqBack, if_neg h.1, insertAfter_of_notMem h.2]

/-- The gap before a position. -/
theorem seqFront_gap (hmem : cur ∈ head :: es) (hnodup : (head :: es).Nodup) (x : ℕ) :
    ∃ left right, es = left ++ right ∧ firstOr head right = cur ∧
      seqFront cur x head es = left ++ x :: right := by
  rcases List.mem_cons.mp hmem with rfl | hes
  · exact ⟨es, [], (List.append_nil es).symm, rfl, if_pos rfl⟩
  · have hne : cur ≠ head := fun heq ↦ (List.nodup_cons.mp hnodup).1 (heq ▸ hes)
    rcases List.append_of_mem hes with ⟨left, right, rfl⟩
    refine ⟨left, cur :: right, rfl, rfl, ?_⟩
    have hleft : cur ∉ left := by
      intro hin
      exact (List.nodup_append.mp (List.nodup_cons.mp hnodup).2).2.2 cur hin cur
        List.mem_cons_self rfl
    rw [seqFront, if_neg hne, insertBefore_append hleft]

/-- The gap after a position. -/
theorem seqBack_gap (hmem : cur ∈ head :: es) (hnodup : (head :: es).Nodup) (x : ℕ) :
    ∃ left right, es = left ++ right ∧ lastFrom head left = cur ∧
      seqBack cur x head es = left ++ x :: right := by
  rcases List.mem_cons.mp hmem with rfl | hes
  · exact ⟨[], es, rfl, rfl, if_pos rfl⟩
  · have hne : cur ≠ head := fun heq ↦ (List.nodup_cons.mp hnodup).1 (heq ▸ hes)
    rcases List.append_of_mem hes with ⟨left, right, rfl⟩
    refine ⟨left ++ [cur], right, by simp, by simp, ?_⟩
    have hleft : cur ∉ left := by
      intro hin
      exact (List.nodup_append.mp (List.nodup_cons.mp hnodup).2).2.2 cur hin cur
        List.mem_cons_self rfl
    rw [seqBack, if_neg hne, insertAfter_append hleft, List.append_assoc]
    rfl

/-- A board whose sequences are changed at one head only. -/
theorem map_seq_eq {place : ℕ → List ℕ → List ℕ} {es' : List ℕ} (hseq : b.seq head = some es)
    (hplace : place head es = es')
    (hother : ∀ head' list, head' ≠ head → b.seq head' = some list → place head' list = list) :
    (fun head ↦ (b.seq head).map (place head)) = Function.update b.seq head (some es') := by
  funext head'
  by_cases hhead : head' = head
  · rw [hhead, Function.update_self, hseq, Option.map_some, hplace]
  · rw [Function.update_of_ne hhead]
    cases hlist : b.seq head' with
    | none => rfl
    | some list => rw [Option.map_some, hother head' list hhead hlist]

end Board

end CPractice.CircularList
