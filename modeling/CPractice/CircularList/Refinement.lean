import CPractice.CircularList.Stores
import Mathlib.Data.List.Perm.Subperm

/-!
# The circular lists refine sequences

For every run of the operations on any number of lists: each list is a cycle that holds its
sequence, and every call does to the sequences what its name says.  Three inputs are left out.
`list_insert_back` takes a negative length, which `list_insert_front` rejects, and then allocates
less than the links need; the two magic words before a buffer that is not an erased element make an
insertion link that buffer; and `list_size` counts in 32 bits.
-/

namespace CPractice.CircularList

open Lib

variable {s : Lists} {nodes nodes' : Nodes} {b : Board} {a cur x head : ℕ} {es left right : List ℕ}

/-! ## The abstract calls -/

namespace Board

/-- The bytes that an insertion copies. -/
def bytes (b : Board) (elemLen : ℤ) : Elem → Bytes
  | .node addr => ((b.value addr).getD []).take elemLen.toNat
  | .buffer _ _ data => data.take elemLen.toNat

/-- The element at `ptr`, which is an erased one or new. -/
def obtain (b : Board) (elem : Elem) (elemLen : ℤ) (ptr : ℕ) : Board :=
  if ptr ∈ b.erased then b else b.alloc ptr (b.bytes elemLen elem)

/-- The insertion of the element at `ptr`, if there is one. -/
def insert (place : ℕ → ℕ → ℕ → List ℕ → List ℕ) (b : Board) (cur : ℕ) (elem : Elem) (elemLen : ℤ)
    (ptr : ℕ) : Board :=
  if ptr = 0 then b else (b.obtain elem elemLen ptr).attach (place cur ptr) ptr

/-- `src` is moved to the place next to `dst`. -/
def move (place : ℕ → ℕ → ℕ → List ℕ → List ℕ) (b : Board) (dst src : ℕ) : Board :=
  if src = 0 ∨ dst = 0 then b else (b.detach src).attach (place dst src) src

/-- An element is removed, and released where the flag says so; an erased one is in no list. -/
def remove (b : Board) (elem : ℕ) (flag : ℤ) : Board :=
  if elem = 0 then b
  else
    let b := if elem ∈ b.erased then b else b.detach elem
    if flag = eraseFull then b.release elem else b

/-- All elements of a list are removed and released. -/
def clear (b : Board) (list : ℕ) : Board :=
  match b.seq list with
  | none => b
  | some es =>
      { b with seq := Function.update b.seq list (some []),
               value := fun a ↦ if a ∈ es then none else b.value a }

/-- The board after a call with its result. -/
def step (b : Board) : Call → Ret → Board
  | .init (some head) word, _ => b.addList head word
  | .insertFront cur elem elemLen _, .elem ptr => b.insert seqFront cur elem elemLen ptr
  | .insertBack cur elem elemLen _, .elem ptr => b.insert seqBack cur elem elemLen ptr
  | .moveFront dst src, _ => b.move seqFront dst src
  | .moveBack dst src, _ => b.move seqBack dst src
  | .erase _ elem flag, _ => b.remove elem flag
  | .clear list, _ => b.clear list
  | _, _ => b

/-- An insertion returns `nil` if it refuses its arguments or gets no memory, an erased element
itself, and else the new node. -/
def inserted (b : Board) (rejected : ℤ → Bool) (cur : ℕ) (elem : Elem) (elemLen : ℤ)
    (alloc : Option ℕ) : ℕ :=
  if cur = 0 ∨ elem.isNil ∨ rejected elemLen then 0
  else match elem with
    | .node addr => if addr ∈ b.erased then addr
        else if n4 (nodeSize + elemLen) < 0 then 0 else alloc.getD 0
    | .buffer _ _ _ => if n4 (nodeSize + elemLen) < 0 then 0 else alloc.getD 0

/-- What a call may return. -/
def allows (b : Board) : Call → Ret → Prop
  | .init alloc _, r => r = .code (if alloc.isSome then 0 else -2)
  | .insertFront cur elem elemLen alloc, r =>
      r = .elem (b.inserted (fun elemLen ↦ elemLen ≤ 0) cur elem elemLen alloc)
  | .insertBack cur elem elemLen alloc, r =>
      r = .elem (b.inserted (fun elemLen ↦ elemLen = 0) cur elem elemLen alloc)
  | .moveFront dst src, r | .moveBack dst src, r =>
      r = .code (if src = 0 ∨ dst = 0 then -1 else 0)
  | .erase _ elem _, r => ∃ ptr, r = .elem ptr ∧ ∀ head left right,
      b.seq head = some (left ++ elem :: right) → ptr = lastFrom head left
  | .clear _, r => r = .void
  | .size list, r => ∀ es, b.seq list = some es → es.length < 2147483648 → r = .code es.length

end Board

/-! ## The relation -/

/-- The erased elements carry the magic words. -/
def Marks (nodes : Nodes) (list : List ℕ) : Prop :=
  ∀ a ∈ list, prevOf nodes a = some prevMagic ∧ nextOf nodes a = some nextMagic

/-- The lists hold the board. -/
structure Holds (s : Lists) (b : Board) : Prop where
  rep : Rep s.nodes b
  marks : Marks s.nodes b.erased
  heads : ∀ head, head ∈ s.heads ↔ (b.seq head).isSome
  bound : ∃ granted : List ℕ, granted.length = s.allocs ∧ ∀ a, (s.nodes a).isSome → a ∈ granted

theorem SameLinks.marks {list list' : List ℕ} (h : Marks nodes list)
    (hsame : SameLinks nodes nodes' list') (hsub : ∀ a ∈ list', a ∈ list) : Marks nodes' list' := by
  intro a ha
  rw [(hsame a ha).1, (hsame a ha).2]
  exact h a (hsub a ha)

/-- A new node changes no mark. -/
theorem Marks.of_fresh {list : List ℕ} {n : NodeT} (h : Marks nodes list)
    (hfresh : (nodes x).isNone) : Marks (Function.update nodes x (some n)) list := by
  intro a ha
  have hne : a ≠ x := by
    rintro rfl
    have hnone := Option.isNone_iff_eq_none.mp hfresh
    have hmark := (h a ha).1
    rw [prevOf, hnone] at hmark
    cases hmark
  unfold prevOf nextOf
  rw [Function.update_of_ne hne]
  exact h a ha

namespace Holds

/-- The bound on the allocated nodes after one more. -/
theorem bound_succ (h : Holds s b) (hvalue : ∀ a, a ≠ x → dataOf nodes' a = b.value a) :
    ∃ granted : List ℕ, granted.length = s.allocs + 1 ∧ ∀ a, (nodes' a).isSome → a ∈ granted := by
  rcases h.bound with ⟨granted, hlength, hgranted⟩
  refine ⟨x :: granted, by rw [List.length_cons, hlength], fun a ha ↦ ?_⟩
  by_cases hax : a = x
  · rw [hax]
    exact List.mem_cons_self
  · apply List.mem_cons_of_mem
    apply hgranted a
    rw [← isSome_dataOf, h.rep.value, ← hvalue a hax, isSome_dataOf]
    exact ha

/-- A list is at most as long as the number of nodes allocated. -/
theorem length_le (h : Holds s b) (hseq : b.seq head = some es) : es.length < s.allocs := by
  rcases h.bound with ⟨granted, hlength, hgranted⟩
  have hsub : head :: es ⊆ granted := fun a ha ↦ hgranted a (h.rep.live_of_mem hseq ha)
  have hle := (List.subperm_of_subset (h.rep.nodup _ _ hseq) hsub).length_le
  rw [List.length_cons, hlength] at hle
  exact hle

/-- A node of a list is not marked: its neighbour is aligned. -/
theorem not_marked (h : Holds s b) (hlisted : b.Listed a) {n : NodeT} (hn : s.nodes a = some n) :
    ¬ marked n := by
  rcases hlisted with ⟨head, es, hseq, ha⟩
  rcases Board.seqFront_gap ha (h.rep.nodup _ _ hseq) 0 with ⟨left, right, rfl, hfirst, -⟩
  have hgap := ((h.rep.cycle _ _ hseq).gap).2
  rw [hfirst, prevOf, hn] at hgap
  have hprev : n.prev = lastFrom head left := Option.some_inj.mp hgap
  intro hmarked
  have haligned := h.rep.aligned _ (h.rep.live_of_mem hseq (Cycle.lastFrom_mem head left right))
  rw [← hprev, hmarked.1] at haligned
  exact not_dvd_prevMagic haligned.2

theorem marked_of_erased (h : Holds s b) (ha : a ∈ b.erased) :
    ∃ n, s.nodes a = some n ∧ marked n := by
  rcases h.marks a ha with ⟨hprev, hnext⟩
  rcases isSome_of_prevOf hprev with ⟨n, hn, hp⟩
  rw [nextOf, hn] at hnext
  exact ⟨n, hn, hp, Option.some_inj.mp hnext⟩

theorem listed_of_inList (h : Holds s b) (hin : inList s.nodes a) : b.Listed a := by
  rcases hin with ⟨n, hn, hnot⟩
  rcases (h.rep.live a).mp (isSome_of_eq hn) with hlisted | herased
  · exact hlisted
  · rcases h.marked_of_erased herased with ⟨n', hn', hmarked⟩
    rw [hn, Option.some_inj] at hn'
    exact absurd (hn' ▸ hmarked) hnot

/-- A node that is no head and in a list is an element of one. -/
theorem split_of_listed (h : Holds s b) (hlisted : b.Listed a) (hhead : a ∉ s.heads) :
    ∃ head left right, b.seq head = some (left ++ a :: right) := by
  rcases hlisted with ⟨head, es, hseq, ha⟩
  rcases List.mem_cons.mp ha with heq | hes
  · refine absurd ((h.heads a).mpr ?_) hhead
    rw [heq, hseq]
    rfl
  · rcases List.append_of_mem hes with ⟨left, right, rfl⟩
    exact ⟨head, left, right, hseq⟩

/-- The part of the relation that the sequences are not about. -/
theorem of_rep {b' : Board} (h : Holds s b) (hrep : Rep nodes' b') (hmarks : Marks nodes' b'.erased)
    (hheads : ∀ head, (b'.seq head).isSome = (b.seq head).isSome)
    (hvalue : ∀ a, (b'.value a).isSome → (b.value a).isSome) :
    Holds { s with nodes := nodes' } b' := by
  refine ⟨hrep, hmarks, ?_, ?_⟩
  · intro head
    rw [hheads]
    exact h.heads head
  · rcases h.bound with ⟨granted, hlength, hgranted⟩
    refine ⟨granted, hlength, fun a ha ↦ hgranted a ?_⟩
    rw [← isSome_dataOf, h.rep.value]
    apply hvalue
    rw [← hrep.value, isSome_dataOf]
    exact ha

end Holds

theorem isSome_attach (b : Board) (place : ℕ → List ℕ → List ℕ) (x head : ℕ) :
    ((b.attach place x).seq head).isSome = (b.seq head).isSome := Option.isSome_map

theorem isSome_detach (b : Board) (x head : ℕ) :
    ((b.detach x).seq head).isSome = (b.seq head).isSome := Option.isSome_map

/-! ## The calls the results are about -/

/-- A caller's buffer is not preceded by the two magic words. -/
def plainBuffer : Elem → Prop
  | .node _ => True
  | .buffer prev next _ => ¬ (prev = prevMagic ∧ next = nextMagic)

/-- An insertion gets memory that is too short for the two links. -/
def tooShort (s : Lists) (cur : ℕ) (elem : Elem) (elemLen : ℤ) (alloc : Option ℕ) : Prop :=
  elemLen < 0 ∧ 0 ≤ n4 (nodeSize + elemLen) ∧ alloc.isSome ∧ cur ≠ 0 ∧ ¬ elem.isNil ∧
    listCheckMagic s.nodes elem ≠ some 0

def sound (s : Lists) : Call → Prop
  | .insertFront _ elem _ _ => plainBuffer elem
  | .insertBack cur elem elemLen alloc => plainBuffer elem ∧ ¬ tooShort s cur elem elemLen alloc
  | _ => True

/-- The runs in which no insertion gets memory that is too short, or a buffer that looks like an
erased element. -/
def soundMachine : Machine Lists Call Ret where
  init := machine.init
  ok s call := callOk s call ∧ sound s call
  exec := callExec

/-- A call does what the board says. -/
def Simulated (s : Lists) (b : Board) (call : Call) : Prop :=
  ∃ r s', callExec s call = some (r, s') ∧ b.allows call r ∧ Holds s' (b.step call r)

/-! ## Insertions -/

theorem n4_nodeSize {elemLen : ℤ} (hpos : 0 ≤ elemLen) (hlt : elemLen < 2147483648)
    (hlen : ¬ n4 (nodeSize + elemLen) < 0) : ¬ n4 (nodeSize + elemLen) < nodeSize := by
  unfold n4 nodeSize at *
  rw [Int.bmod_def] at *
  split at hlen
  all_goals split
  all_goals omega

/-- The element of an insertion: an erased one, or one whose bytes can be copied. -/
theorem Holds.element_cases (h : Holds s b) {elem : Elem} {elemLen : ℤ}
    (hnil : ¬ elem.isNil) (helem : insertable s.nodes elemLen elem)
    (hplain : plainBuffer elem) :
    (∃ addr, elem = .node addr ∧ addr ∈ b.erased ∧ addr ≠ 0 ∧
        listCheckMagic s.nodes elem = some 0) ∨
      ((∀ addr, elem = .node addr → addr ∉ b.erased) ∧ listCheckMagic s.nodes elem = some (-1) ∧
        (0 ≤ elemLen → readElem s.nodes elemLen.toNat elem = some (b.bytes elemLen elem))) := by
  cases elem with
  | node addr =>
      have haddr : addr ≠ 0 := by
        intro hzero
        exact hnil (decide_eq_true hzero)
      rcases helem with hzero | ⟨n, hn, hcases⟩
      · exact absurd hzero haddr
      have hn' : s.nodes addr = some n := hn
      by_cases hmarked : marked n
      · left
        refine ⟨addr, rfl, ?_, haddr, ?_⟩
        · rcases (h.rep.live addr).mp (isSome_of_eq hn') with hlisted | herased
          · exact absurd hmarked (h.not_marked hlisted hn')
          · exact herased
        · rw [listCheckMagic, hn', Option.map_some]
          exact congrArg some (if_pos hmarked)
      · right
        have hlength : elemLen ≤ n.data.length := hcases.resolve_left hmarked
        refine ⟨?_, ?_, ?_⟩
        · rintro addr' heq herased
          obtain rfl : addr = addr' := Elem.node.inj heq
          rcases h.marked_of_erased herased with ⟨n', hn'', hmark⟩
          rw [hn', Option.some_inj] at hn''
          exact hmarked (hn'' ▸ hmark)
        · rw [listCheckMagic, hn', Option.map_some]
          exact congrArg some (if_neg hmarked)
        · intro hpos
          have hvalue := h.rep.value addr
          rw [dataOf, hn'] at hvalue
          have hle : elemLen.toNat ≤ n.data.length := by omega
          simp only [readElem, Board.bytes, hn', ← hvalue, Option.bind_eq_bind, Option.bind_some,
            if_pos hle, Option.map_some, Option.getD_some]
  | buffer prev next data =>
      right
      refine ⟨?_, ?_, ?_⟩
      · intro addr heq
        cases heq
      · exact congrArg some (if_neg hplain)
      · intro hpos
        have hlength : elemLen ≤ data.length := helem
        have hle : elemLen.toNat ≤ data.length := by omega
        simp only [readElem, Board.bytes, if_pos hle]

/-- An insertion, by the stores that link the node. -/
theorem listInsert_simulated (rejected : ℤ → Bool) {link : Nodes → ℕ → ℕ → Option Nodes}
    {place : ℕ → ℕ → ℕ → List ℕ → List ℕ} {elem : Elem} {elemLen : ℤ} {alloc : Option ℕ}
    (hlink : Attaches link place) (h : Holds s b) (hcur : cur = 0 ∨ inList s.nodes cur)
    (helem : insertable s.nodes elemLen elem) (hbound : elemLen < 2147483648)
    (hfresh : freshAlloc s.nodes alloc) (hplain : plainBuffer elem)
    (hlong : ¬ rejected elemLen → ¬ tooShort s cur elem elemLen alloc) :
    ∃ s', listInsert rejected link s cur elem elemLen alloc =
        some (b.inserted rejected cur elem elemLen alloc, s') ∧
      Holds s' (b.insert place cur elem elemLen (b.inserted rejected cur elem elemLen alloc)) := by
  by_cases hrefused : cur = 0 ∨ elem.isNil ∨ rejected elemLen
  · refine ⟨s, ?_, ?_⟩
    · simp only [listInsert, Board.inserted, if_pos hrefused]
    · simp only [Board.inserted, if_pos hrefused, Board.insert]
      exact h
  simp only [not_or] at hrefused
  rcases hrefused with ⟨hcur0, hnil, hrejected⟩
  have hguard : ¬ (cur = 0 ∨ elem.isNil ∨ rejected elemLen) := by
    simp only [not_or]
    exact ⟨hcur0, hnil, hrejected⟩
  have hlisted : b.Listed cur := h.listed_of_inList (hcur.resolve_left hcur0)
  rcases h.element_cases hnil helem hplain with ⟨addr, rfl, herased, haddr, hmagic⟩ |
      ⟨hnew, hmagic, hread⟩
  · -- an erased element is linked again
    rcases hlink s.nodes b cur addr h.rep hlisted herased with ⟨nodes', hstores, hrep, hsame⟩
    have hret : b.inserted rejected cur (.node addr) elemLen alloc = addr := by
      simp only [Board.inserted, if_neg hguard, if_pos herased]
    rw [hret]
    refine ⟨{ s with nodes := nodes' }, ?_, ?_⟩
    · simp only [listInsert, if_neg hguard, hmagic, Option.bind_eq_bind, Option.bind_some, if_true,
        hstores]
    · simp only [Board.insert, if_neg haddr, Board.obtain, if_pos herased]
      apply h.of_rep hrep
      · exact hsame.marks h.marks fun a ha ↦ List.mem_of_mem_erase ha
      · exact isSome_attach b _ addr
      · exact fun a ha ↦ ha
  · -- the element is copied into a new node
    have hret : b.inserted rejected cur elem elemLen alloc =
        if n4 (nodeSize + elemLen) < 0 then 0 else alloc.getD 0 := by
      unfold Board.inserted
      rw [if_neg hguard]
      cases elem with
      | node addr => exact if_neg (hnew addr rfl)
      | buffer prev next data => rfl
    by_cases hfail : alloc = none ∨ n4 (nodeSize + elemLen) < 0
    · have hzero : b.inserted rejected cur elem elemLen alloc = 0 := by
        rw [hret]
        rcases hfail with rfl | hneg
        · simp
        · rw [if_pos hneg]
      rw [hzero]
      refine ⟨s, ?_, h⟩
      have halloc : listNodeAlloc s.nodes elem elemLen alloc = some none := by
        cases alloc with
        | none => rfl
        | some node => simp only [listNodeAlloc, if_pos (hfail.resolve_left (by simp))]
      simp [listInsert, hguard, hmagic, halloc]
    · rcases not_or.mp hfail with ⟨hsome, hneg⟩
      rcases Option.ne_none_iff_exists'.mp hsome with ⟨node, rfl⟩
      rcases hfresh node rfl with ⟨hnode, haligned, hnone⟩
      rw [if_neg hneg, Option.getD_some] at hret
      rw [hret]
      have hpos : 0 ≤ elemLen := by
        by_contra hlt
        apply hlong hrejected
        refine ⟨Int.not_le.mp hlt, Int.not_lt.mp hneg, rfl, hcur0, hnil, ?_⟩
        rw [hmagic]
        decide
      have halloc : listNodeAlloc s.nodes elem elemLen (some node) = some (some (node,
          Function.update s.nodes node (some ⟨node, node, b.bytes elemLen elem⟩))) := by
        simp only [listNodeAlloc, if_neg hneg, if_neg (n4_nodeSize hpos hbound hneg), hread hpos,
          Option.bind_eq_bind, Option.bind_some]
      have hrep := h.rep.alloc (n := ⟨node, node, b.bytes elemLen elem⟩) hnode haligned hnone
      rcases hlink _ _ cur node hrep hlisted List.mem_cons_self with ⟨nodes', hstores, hrep', hsame⟩
      have herased := (h.rep.not_mem_of_fresh hnone).2
      refine ⟨{ s with nodes := nodes', allocs := s.allocs + 1 }, ?_, ?_⟩
      · simp [listInsert, hguard, hmagic, halloc, hstores]
      · simp only [Board.insert, if_neg hnode, Board.obtain, if_neg herased]
        refine ⟨hrep', ?_, ?_, ?_⟩
        · apply hsame.marks (h.marks.of_fresh hnone)
          intro a ha
          simpa [Board.alloc] using ha
        · intro head
          rw [isSome_attach]
          exact h.heads head
        · exact h.bound_succ fun a ha ↦ (hrep'.value a).trans (Function.update_of_ne ha _ _)

/-! ## `list_init` and the moves -/

theorem init_simulated {alloc : Option ℕ} {word : Bytes} (h : Holds s b)
    (hok : callOk s (.init alloc word)) : Simulated s b (.init alloc word) := by
  cases alloc with
  | none => exact ⟨.code (-2), s, rfl, rfl, h⟩
  | some head =>
      rcases hok.1 head rfl with ⟨hhead, haligned, hnone⟩
      have hrep : Rep _ (b.addList head word) := h.rep.addList hhead haligned hnone
      refine ⟨.code 0, _, rfl, rfl, ⟨hrep, h.marks.of_fresh hnone, ?_, ?_⟩⟩
      · intro head'
        by_cases heq : head' = head
        · simp [Board.step, Board.addList, heq, listInit]
        · simp [Board.step, Board.addList, heq, listInit, h.heads head']
      · exact h.bound_succ fun a ha ↦ (hrep.value a).trans (Function.update_of_ne ha _ _)

theorem listed_detach (hlisted : b.Listed a) (hne : a ≠ x) : (b.detach x).Listed a := by
  rcases hlisted with ⟨head, es, hseq, ha⟩
  refine ⟨head, es.erase x, ?_, ?_⟩
  · simp [Board.detach, hseq]
  · rcases List.mem_cons.mp ha with heq | hes
    · rw [heq]
      exact List.mem_cons_self
    · exact List.mem_cons_of_mem _ ((List.mem_erase_of_ne hne).mpr hes)

theorem listMove_simulated {put : Nodes → ℕ → ℕ → Option Nodes}
    {place : ℕ → ℕ → ℕ → List ℕ → List ℕ} {dst src : ℕ} (hput : Attaches put place)
    (h : Holds s b) (hok : src = 0 ∨ dst = 0 ∨
      inList s.nodes dst ∧ inList s.nodes src ∧ src ∉ s.heads ∧ dst ≠ src) :
    ∃ s', listMove put s dst src = some (if src = 0 ∨ dst = 0 then -1 else 0, s') ∧
      Holds s' (b.move place dst src) := by
  by_cases hnil : src = 0 ∨ dst = 0
  · refine ⟨s, ?_, ?_⟩
    · simp only [listMove, if_pos hnil]
    · simp only [Board.move, if_pos hnil]
      exact h
  · rcases (or_assoc.mpr hok).resolve_left hnil with ⟨hdst, hsrc, hhead, hne⟩
    rcases h.split_of_listed (h.listed_of_inList hsrc) hhead with ⟨head, left, right, hseq⟩
    rcases h.rep.takeOut hseq with ⟨nodes₁, hout, hrep₁, hsame₁⟩
    have hlisted := listed_detach (h.listed_of_inList hdst) hne
    rcases hput nodes₁ _ dst src hrep₁ hlisted List.mem_cons_self with
      ⟨nodes₂, hstores, hrep₂, hsame₂⟩
    refine ⟨{ s with nodes := nodes₂ }, ?_, ?_⟩
    · simp only [listMove, if_neg hnil, hout, Option.bind_eq_bind, Option.bind_some, hstores]
    · simp only [Board.move, if_neg hnil]
      apply h.of_rep hrep₂
      · apply hsame₂.marks (hsame₁.marks h.marks fun a ha ↦ ha)
        intro a ha
        simpa [Board.detach] using ha
      · intro head
        rw [isSome_attach, isSome_detach]
      · exact fun a ha ↦ ha

/-! ## `list_erase` -/

theorem Marks.of_release {list : List ℕ} (h : Marks nodes list) (hnodup : list.Nodup) :
    Marks (Function.update nodes x none) (list.erase x) := by
  intro a ha
  have hne : a ≠ x := fun heq ↦ hnodup.not_mem_erase (heq ▸ ha)
  unfold prevOf nextOf
  rw [Function.update_of_ne hne]
  exact h a (List.mem_of_mem_erase ha)

/-- The release that ends `list_erase`, for an erased element. -/
theorem release_erased {list ret : ℕ} (flag : ℤ) (hrep : Rep nodes' b)
    (hmarks : Marks nodes' b.erased) (hx : x ∈ b.erased) (hlist : list ≠ x) (hunlink : unlinkMarked nodes x = some (ret, nodes')) :
    ∃ nodes'', listErase nodes list x flag = some (ret, nodes'') ∧
      Rep nodes'' (if flag = eraseFull then b.release x else b) ∧
      Marks nodes'' (if flag = eraseFull then b.release x else b).erased := by
  have hlive := (hrep.live x).mpr (.inr hx)
  have hx0 := (hrep.aligned x hlive).1
  by_cases hflag : flag = eraseFull
  · refine ⟨Function.update nodes' x none, ?_, ?_, ?_⟩
    · simp [listErase, hx0, hlist, hunlink, hflag, dealloc, hlive]
    · rw [if_pos hflag]
      exact hrep.release hx
    · rw [if_pos hflag]
      exact hmarks.of_release hrep.erased_nodup
  · refine ⟨nodes', ?_, ?_, ?_⟩
    · simp [listErase, hx0, hlist, hunlink, hflag]
    · rw [if_neg hflag]
      exact hrep
    · rw [if_neg hflag]
      exact hmarks

theorem Rep.ne_zero (h : Rep nodes b) (hseq : b.seq head = some es) (ha : a ∈ head :: es) : a ≠ 0 :=
  (h.aligned a (h.live_of_mem hseq ha)).1

/-- `list_erase` of an element of a list. -/
theorem listErase_listed {list : ℕ} (flag : ℤ) (h : Rep nodes b) (hmarks : Marks nodes b.erased)
    (hseq : b.seq head = some (left ++ x :: right)) (hlist : list ≠ x) :
    ∃ nodes', listErase nodes list x flag = some (lastFrom head left, nodes') ∧
      Rep nodes' (b.remove x flag) ∧ Marks nodes' (b.remove x flag).erased := by
  have hmem : x ∈ head :: (left ++ x :: right) := by simp
  have hnot : x ∉ b.erased := fun hx ↦ h.erased_apart x hx ⟨_, _, hseq, hmem⟩
  rcases h.unlinkMarked hseq with ⟨nodes₁, hunlink, hrep, hsame, hprev, hnext⟩
  have hmarks₁ : Marks nodes₁ (b.detach x).erased := by
    intro a ha
    rcases List.mem_cons.mp ha with rfl | hold
    · exact ⟨hprev, hnext⟩
    · exact hsame.marks hmarks (fun a ha ↦ ha) a hold
  simp only [Board.remove, if_neg (h.ne_zero hseq hmem), if_neg hnot]
  exact release_erased flag hrep hmarks₁ List.mem_cons_self hlist hunlink

theorem erase_simulated {list elem : ℕ} {flag : ℤ} (h : Holds s b)
    (hok : callOk s (.erase list elem flag)) : Simulated s b (.erase list elem flag) := by
  rcases hok with ⟨hlist, helem, hlive⟩
  have hne : list ≠ elem := fun heq ↦ helem (heq ▸ hlist)
  have hheads : ∀ head, ((b.remove elem flag).seq head).isSome = (b.seq head).isSome := by
    intro head
    unfold Board.remove
    split
    · rfl
    · split <;> split <;> simp [Board.release, isSome_detach]
  have hvalue : ∀ a, ((b.remove elem flag).value a).isSome → (b.value a).isSome := by
    intro a ha
    unfold Board.remove at ha
    split at ha
    · exact ha
    · by_cases hae : a = elem
      · rw [← h.rep.value, isSome_dataOf, hae]
        exact hlive.resolve_left (by assumption)
      · split at ha <;> split at ha <;>
          simpa [Board.release, Board.detach, Function.update_of_ne hae] using ha
  by_cases hzero : elem = 0
  · refine ⟨.elem 0, s, ?_, ⟨0, rfl, ?_⟩, ?_⟩
    · simp [callExec, listErase, hzero]
    · intro head left right hseq
      exact absurd hzero (h.rep.ne_zero hseq (by simp))
    · simp only [Board.step, Board.remove, if_pos hzero]
      exact h
  rcases (h.rep.live elem).mp (hlive.resolve_left hzero) with hlisted | herased
  · rcases h.split_of_listed hlisted helem with ⟨head, left, right, hseq⟩
    rcases listErase_listed flag h.rep h.marks hseq hne with ⟨nodes', herase, hrep, hmarks⟩
    refine ⟨.elem (lastFrom head left), { s with nodes := nodes' }, ?_, ⟨_, rfl, ?_⟩,
      h.of_rep hrep hmarks hheads hvalue⟩
    · simp [callExec, herase]
    · intro head' left' right' hseq'
      have hprev := (h.rep.neighbours hseq).1
      rw [(h.rep.neighbours hseq').1, Option.some_inj] at hprev
      exact hprev.symm
  · rcases h.marked_of_erased herased with ⟨n, hn, hmarked⟩
    have hunlink : unlinkMarked s.nodes elem = some (0, s.nodes) := by
      simp [unlinkMarked, listCheckMagic, hn, hmarked.1, hmarked.2]
    rcases release_erased flag h.rep h.marks herased hne hunlink with
      ⟨nodes', herase, hrep, hmarks⟩
    have hremove : b.remove elem flag = if flag = eraseFull then b.release elem else b := by
      simp only [Board.remove, if_neg hzero, if_pos herased]
    refine ⟨.elem 0, { s with nodes := nodes' }, ?_, ⟨_, rfl, ?_⟩, ?_⟩
    · simp [callExec, herase]
    · intro head left right hseq
      exact absurd ⟨head, _, hseq, by simp⟩ (h.rep.erased_apart elem herased)
    · rw [← hremove] at hrep hmarks
      exact h.of_rep hrep hmarks hheads hvalue

/-! ## `list_clear` and `list_size` -/

/-- The board after the first element of a list is removed. -/
theorem remove_first (h : Rep nodes b) (hseq : b.seq head = some (x :: es)) :
    b.remove x eraseFull = { b with
      seq := Function.update b.seq head (some es), value := Function.update b.value x none } := by
  have hmem : x ∈ head :: x :: es := by simp
  have hnot : x ∉ b.erased := fun hx ↦ h.erased_apart x hx ⟨_, _, hseq, hmem⟩
  have hseqs : (fun head ↦ (b.seq head).map fun es ↦ es.erase x) =
      Function.update b.seq head (some es) := by
    apply Board.map_seq_eq hseq (List.erase_cons_head x es)
    intro head' list hne hlist
    apply List.erase_of_not_mem
    intro hin
    exact hne (h.apart _ _ _ _ x hlist hseq (List.mem_cons_of_mem _ hin) hmem)
  simp only [Board.remove, if_neg (h.ne_zero hseq hmem), if_neg hnot, if_true, Board.detach,
    Board.release, hseqs, List.erase_cons_head]

theorem clear_remove (h : Rep nodes b) (hseq : b.seq head = some (x :: es)) :
    (b.remove x eraseFull).clear head = b.clear head := by
  rw [remove_first h hseq]
  simp only [Board.clear, hseq, Function.update_self, Function.update_idem]
  congr 1
  funext a
  by_cases hax : a = x
  · simp [hax]
  · simp [hax]

/-- The loop of `list_clear` removes the elements from the front. -/
theorem clearLoop_spec (turns : ℕ) (h : Rep nodes b) (hmarks : Marks nodes b.erased)
    (hseq : b.seq head = some es) (hturns : es.length < turns) :
    ∃ nodes', clearLoop head turns nodes (firstOr head es) = some nodes' ∧
      Rep nodes' (b.clear head) ∧ Marks nodes' (b.clear head).erased := by
  induction turns generalizing nodes b es with
  | zero => exact absurd hturns (Nat.not_lt_zero _)
  | succ turns ih =>
      cases es with
      | nil =>
          have hclear : b.clear head = b := by
            have hsame : Function.update b.seq head (some []) = b.seq := by
              rw [← hseq, Function.update_eq_self]
            simp [Board.clear, hseq, hsame]
          rw [hclear]
          exact ⟨nodes, by simp [clearLoop], h, hmarks⟩
      | cons e es =>
          have hne : head ≠ e := by
            intro heq
            exact (List.nodup_cons.mp (h.nodup _ _ hseq)).1 (heq ▸ List.mem_cons_self)
          have he0 : e ≠ 0 := h.ne_zero hseq (by simp)
          have hfront : b.seq head = some ([] ++ e :: es) := hseq
          rcases listErase_listed eraseFull h hmarks hfront hne with
            ⟨nodes₁, herase, hrep, hmarks₁⟩
          have hseq₁ : (b.remove e eraseFull).seq head = some es := by
            rw [remove_first h hseq]
            exact Function.update_self _ _ _
          rcases isSome_of_nextOf (hrep.cycle _ _ hseq₁).next_head with ⟨n, hn, hfirst⟩
          rcases ih hrep hmarks₁ hseq₁ (by simpa using hturns) with ⟨nodes', hloop, hrep', hmarks'⟩
          rw [clear_remove h hseq] at hrep' hmarks'
          refine ⟨nodes', ?_, hrep', hmarks'⟩
          simp [clearLoop, he0, hne, herase, hn, hfirst, hloop]

theorem clear_simulated {list : ℕ} (h : Holds s b) (hok : callOk s (.clear list)) :
    Simulated s b (.clear list) := by
  by_cases hzero : list = 0
  · refine ⟨.void, s, ?_, rfl, ?_⟩
    · simp [callExec, listClear, hzero]
    · have hnone : b.seq list = none := by
        by_contra hsome
        rcases Option.ne_none_iff_exists'.mp hsome with ⟨es, hseq⟩
        exact h.rep.ne_zero hseq List.mem_cons_self hzero
      simp only [Board.step, Board.clear, hnone]
      exact h
  · have hhead := (h.heads list).mp (hok.resolve_left hzero)
    rcases Option.isSome_iff_exists.mp hhead with ⟨es, hseq⟩
    rcases isSome_of_nextOf (h.rep.cycle _ _ hseq).next_head with ⟨n, hn, hfirst⟩
    have hturns : es.length < s.allocs + 1 := (h.length_le hseq).trans (Nat.lt_succ_self _)
    rcases clearLoop_spec (s.allocs + 1) h.rep h.marks hseq hturns with
      ⟨nodes', hloop, hrep, hmarks⟩
    refine ⟨.void, { s with nodes := nodes' }, ?_, rfl, h.of_rep hrep hmarks ?_ ?_⟩
    · simp [callExec, listClear, hzero, hn, hfirst, hloop]
    · intro head
      simp only [Board.step, Board.clear, hseq]
      by_cases hheads : head = list
      · rw [hheads, Function.update_self, hseq]
        rfl
      · rw [Function.update_of_ne hheads]
    · intro a ha
      simp only [Board.step, Board.clear, hseq] at ha
      split at ha
      · cases ha
      · exact ha

theorem n4_succ (count : ℤ) : n4 (n4 count + 1) = n4 (count + 1) := Int.bmod_add_bmod

theorem sizeLoop_spec (turns : ℕ) (count : ℤ) (h : Rep nodes b)
    (hseq : b.seq head = some (left ++ right)) (hturns : right.length < turns) :
    sizeLoop nodes head turns (firstOr head right) (n4 count) =
      some (n4 (count + right.length)) := by
  induction turns generalizing left right count with
  | zero => exact absurd hturns (Nat.not_lt_zero _)
  | succ turns ih =>
      cases right with
      | nil => simp [sizeLoop]
      | cons e right =>
          have hmem : e ∈ head :: (left ++ e :: right) := by simp
          have hne : e ≠ head := by
            intro heq
            apply (List.nodup_cons.mp (h.nodup _ _ hseq)).1
            rw [← heq]
            simp
          rcases isSome_of_nextOf (h.neighbours hseq).2.1 with ⟨n, hn, hnext⟩
          have hseq' : b.seq head = some ((left ++ [e]) ++ right) := by simpa using hseq
          have hloop := ih (count + 1) hseq' (by simpa using hturns)
          simp only [sizeLoop, firstOr_cons, ne_eq, h.ne_zero hseq hmem, hne, not_false_eq_true,
            and_self, if_true, hn, Option.bind_eq_bind, Option.bind_some, hnext, n4_succ, hloop]
          have hcount : count + 1 + (right.length : ℤ) = count + ((e :: right).length : ℤ) := by
            rw [List.length_cons]
            omega
          rw [hcount]

theorem size_simulated {list : ℕ} (h : Holds s b) (hok : callOk s (.size list)) :
    Simulated s b (.size list) := by
  by_cases hzero : list = 0
  · refine ⟨.code 0, s, ?_, ?_, h⟩
    · simp [callExec, listSize, hzero]
    · intro es hseq _
      exact absurd hzero (h.rep.ne_zero hseq List.mem_cons_self)
  · have hhead := (h.heads list).mp (hok.resolve_left hzero)
    rcases Option.isSome_iff_exists.mp hhead with ⟨es, hseq⟩
    rcases isSome_of_nextOf (h.rep.cycle _ _ hseq).next_head with ⟨n, hn, hfirst⟩
    have hturns : es.length < s.allocs + 1 := (h.length_le hseq).trans (Nat.lt_succ_self _)
    have hfront : b.seq list = some ([] ++ es) := hseq
    have hloop := sizeLoop_spec (s.allocs + 1) 0 h.rep hfront hturns
    have hstart : n4 0 = 0 := by decide
    rw [hstart, zero_add] at hloop
    refine ⟨.code (n4 es.length), s, ?_, ?_, h⟩
    · simp [callExec, listSize, hzero, hn, hfirst, hloop]
    · intro es' hseq' hlt
      rw [hseq, Option.some_inj] at hseq'
      subst hseq'
      have hn4 : n4 es.length = es.length := by
        unfold n4
        apply Int.bmod_eq_of_le_mul_two
        all_goals omega
      rw [hn4]

/-! ## Runs -/

/-- The board after a log of calls. -/
def board (log : List (Call × Ret)) : Board :=
  Machine.replay Board.step ⟨fun _ ↦ none, [], fun _ ↦ none⟩ log

theorem holds_init : Holds ⟨fun _ ↦ none, [], 0⟩ ⟨fun _ ↦ none, [], fun _ ↦ none⟩ := by
  refine ⟨?_, ?_, ?_, ⟨[], rfl, ?_⟩⟩
  · constructor <;> simp [Board.Listed, dataOf]
  · simp [Marks]
  · simp
  · simp

theorem call_simulates :
    Machine.Simulates soundMachine Board.step Board.allows Holds := by
  rintro s b call h ⟨hok, hsound⟩
  cases call with
  | init alloc word => exact init_simulated h hok
  | insertFront cur elem elemLen alloc =>
      rcases hok with ⟨hcur, helem, -, hbound, hfresh⟩
      have hlong : ¬ (decide (elemLen ≤ 0)) → ¬ tooShort s cur elem elemLen alloc := by
        intro hpos hshort
        have hneg := hshort.1
        simp only [decide_eq_true_eq] at hpos
        omega
      rcases listInsert_simulated (fun elemLen ↦ elemLen ≤ 0) linkFront_attaches h hcur helem hbound
        hfresh hsound hlong with ⟨s', hinsert, hholds⟩
      refine ⟨_, s', ?_, rfl, hholds⟩
      simp only [soundMachine, callExec, listInsertFront, hinsert, Option.map_some]
  | insertBack cur elem elemLen alloc =>
      rcases hok with ⟨hcur, helem, -, hbound, hfresh⟩
      rcases listInsert_simulated (fun elemLen ↦ elemLen = 0) linkBack_attaches h hcur helem
        hbound hfresh hsound.1 (fun _ ↦ hsound.2) with ⟨s', hinsert, hholds⟩
      refine ⟨_, s', ?_, rfl, hholds⟩
      simp only [soundMachine, callExec, listInsertBack, hinsert, Option.map_some]
  | moveFront dst src =>
      rcases listMove_simulated putFront_attaches h hok with ⟨s', hmove, hholds⟩
      refine ⟨_, s', ?_, rfl, hholds⟩
      simp only [soundMachine, callExec, listMoveFront, hmove, Option.map_some]
  | moveBack dst src =>
      rcases listMove_simulated putBack_attaches h hok with ⟨s', hmove, hholds⟩
      refine ⟨_, s', ?_, rfl, hholds⟩
      simp only [soundMachine, callExec, listMoveBack, hmove, Option.map_some]
  | erase list elem flag => exact erase_simulated h hok
  | clear list => exact clear_simulated h hok
  | size list => exact size_simulated h hok

theorem holds_trace {log : List (Call × Ret)} (htrace : soundMachine.Trace s log) :
    Holds s (board log) := by
  apply htrace.related _ _ call_simulates
  rintro s rfl
  exact holds_init

/-- Erasing an element that is erased already changes nothing. -/
theorem Holds.erase_again (h : Holds s b) {list elem : ℕ} {flag : ℤ} (herased : elem ∈ b.erased)
    (hflag : flag ≠ eraseFull) (hok : callOk s (.erase list elem flag)) :
    callExec s (.erase list elem flag) = some (.elem 0, s) := by
  rcases h.marked_of_erased herased with ⟨n, hn, hmarked⟩
  have hne : list ≠ elem := fun heq ↦ hok.2.1 (heq ▸ hok.1)
  have hzero : elem ≠ 0 := (h.rep.aligned elem (isSome_of_eq hn)).1
  simp [callExec, listErase, hzero, hne, unlinkMarked, listCheckMagic, hn, hmarked.1, hmarked.2,
    hflag]

/-- In every run: each list is a single cycle through its head, with `next` and `prev` inverse to
each other, that holds its sequence; each allocated node that is not erased is in exactly one list,
and keeps its bytes; every further call succeeds or fails as the sequences say, and they change as
`Board.step` says; and erasing an erased element changes nothing. -/
theorem lists_hold_sequences {log : List (Call × Ret)} (htrace : soundMachine.Trace s log) :
    (∀ head es, (board log).seq head = some es →
      Cycle (nextOf s.nodes) (prevOf s.nodes) head es ∧ (head :: es).Nodup) ∧
    (∀ a, (s.nodes a).isSome → a ∉ (board log).erased →
      ∃! head, ∃ es, (board log).seq head = some es ∧ a ∈ head :: es) ∧
    (∀ a, dataOf s.nodes a = (board log).value a) ∧
    (∀ call, callOk s call → sound s call → ∃ r s', callExec s call = some (r, s') ∧
      (board log).allows call r ∧ soundMachine.Trace s' (log ++ [(call, r)])) ∧
    ∀ list elem flag, elem ∈ (board log).erased → flag ≠ eraseFull →
      callOk s (.erase list elem flag) →
      callExec s (.erase list elem flag) = some (.elem 0, s) := by
  have h := holds_trace htrace
  refine ⟨?_, ?_, h.rep.value, ?_, ?_⟩
  · intro head es hseq
    exact ⟨h.rep.cycle head es hseq, h.rep.nodup head es hseq⟩
  · intro a hlive herased
    rcases ((h.rep.live a).mp hlive).resolve_right herased with ⟨head, es, hseq, ha⟩
    refine ⟨head, ⟨es, hseq, ha⟩, ?_⟩
    rintro head' ⟨es', hseq', ha'⟩
    exact h.rep.apart _ _ _ _ a hseq' hseq ha' ha
  · intro call hok hsound
    rcases call_simulates s _ call h ⟨hok, hsound⟩ with ⟨r, s', hexec, hallows, -⟩
    exact ⟨r, s', hexec, hallows, htrace.call ⟨hok, hsound⟩ hexec⟩
  · intro list elem flag herased hflag hok
    exact h.erase_again herased hflag hok

instance (nodes : Nodes) (alloc : Option ℕ) : Decidable (freshAlloc nodes alloc) :=
  inferInstanceAs (Decidable (∀ _ ∈ _, _))

instance (nodes : Nodes) (a : ℕ) : Decidable (inList nodes a) :=
  inferInstanceAs (Decidable (∃ _ ∈ _, _))

instance (nodes : Nodes) (elemLen : ℤ) : (elem : Elem) → Decidable (insertable nodes elemLen elem)
  | .node _ => inferInstanceAs (Decidable (_ ∨ ∃ _ ∈ _, _))
  | .buffer _ _ _ => inferInstanceAs (Decidable (_ ≤ _))

instance (s : Lists) : (call : Call) → Decidable (callOk s call)
  | .init _ _ => inferInstanceAs (Decidable (_ ∧ _))
  | .insertFront _ _ _ _ => inferInstanceAs (Decidable ((_ ∨ _) ∧ _ ∧ _ ∧ _ ∧ _))
  | .insertBack _ _ _ _ => inferInstanceAs (Decidable ((_ ∨ _) ∧ _ ∧ _ ∧ _ ∧ _))
  | .moveFront _ _ => inferInstanceAs (Decidable (_ ∨ _ ∨ _ ∧ _ ∧ _ ∧ _))
  | .moveBack _ _ => inferInstanceAs (Decidable (_ ∨ _ ∨ _ ∧ _ ∧ _ ∧ _))
  | .erase _ _ _ => inferInstanceAs (Decidable (_ ∧ _ ∧ _))
  | .clear _ => inferInstanceAs (Decidable (_ ∨ _))
  | .size _ => inferInstanceAs (Decidable (_ ∨ _))

instance : (elem : Elem) → Decidable (plainBuffer elem)
  | .node _ => inferInstanceAs (Decidable True)
  | .buffer _ _ _ => inferInstanceAs (Decidable (¬ _))

instance (s : Lists) (cur : ℕ) (elem : Elem) (elemLen : ℤ) (alloc : Option ℕ) :
    Decidable (tooShort s cur elem elemLen alloc) := inferInstanceAs (Decidable (_ ∧ _))

instance (s : Lists) : (call : Call) → Decidable (sound s call)
  | .init _ _ => inferInstanceAs (Decidable True)
  | .insertFront _ elem _ _ => inferInstanceAs (Decidable (plainBuffer elem))
  | .insertBack _ elem _ _ => inferInstanceAs (Decidable (plainBuffer elem ∧ _))
  | .moveFront _ _ => inferInstanceAs (Decidable True)
  | .moveBack _ _ => inferInstanceAs (Decidable True)
  | .erase _ _ _ => inferInstanceAs (Decidable True)
  | .clear _ => inferInstanceAs (Decidable True)
  | .size _ => inferInstanceAs (Decidable True)

instance (s : Lists) (call : Call) : Decidable (soundMachine.ok s call) :=
  inferInstanceAs (Decidable (callOk s call ∧ sound s call))

instance (s : Lists) (call : Call) : Decidable (machine.ok s call) :=
  inferInstanceAs (Decidable (callOk s call))

def noLists : Lists := ⟨fun _ ↦ none, [], 0⟩

/-- Two lists: an element moves from one to the other next to its neighbour, and an erased one is
inserted again. -/
def smallCalls : List Call :=
  [.init (some 8) [0, 0, 0, 0, 0, 0, 0, 0], .init (some 16) [0, 0, 0, 0, 0, 0, 0, 0],
    .insertFront 8 (.buffer 0 0 [1]) 1 (some 24), .insertBack 24 (.buffer 0 0 [2]) 1 (some 32),
    .insertFront 16 (.buffer 0 0 [3]) 1 (some 40), .moveFront 24 32, .moveBack 40 24,
    .erase 8 32 1, .insertBack 40 (.node 32) 1 none]

theorem smallCalls_run : (soundMachine.execAll noLists smallCalls).isSome := by decide

theorem lists_hold_sequences_small :
    ∃ s log, soundMachine.Trace s log ∧ (board log).seq 16 = some [40, 32, 24] ∧
      Cycle (nextOf s.nodes) (prevOf s.nodes) 16 [40, 32, 24] := by
  have hinit : soundMachine.init noLists := rfl
  have htrace := Machine.trace_execAll hinit (by decide) (Option.some_get smallCalls_run).symm
  have hseq : (board ((soundMachine.execAll noLists smallCalls).get smallCalls_run).1).seq 16 =
      some [40, 32, 24] := by decide
  exact ⟨_, _, htrace, hseq, ((lists_hold_sequences htrace).1 16 _ hseq).1⟩

/-- One empty list. -/
def oneList : List Call := [.init (some 8) [0, 0, 0, 0, 0, 0, 0, 0]]

theorem oneList_runs : (machine.execAll noLists oneList).isSome := by decide

/-- `list_insert_back` with the length `-1`: 15 bytes are allocated for two links of 16. -/
theorem insertBack_negative_faults :
    ∃ s log, machine.Trace s log ∧ (board log).seq 8 = some [] ∧
      callOk s (.insertBack 8 (.buffer 0 0 [1]) (-1) (some 24)) ∧
      callExec s (.insertBack 8 (.buffer 0 0 [1]) (-1) (some 24)) = none := by
  have hinit : machine.init noLists := rfl
  have htrace := Machine.trace_execAll hinit (by decide) (Option.some_get oneList_runs).symm
  have hfault : (callExec ((machine.execAll noLists oneList).get oneList_runs).2
      (.insertBack 8 (.buffer 0 0 [1]) (-1) (some 24))).isNone := by decide
  exact ⟨_, _, htrace, by decide, by decide, Option.isNone_iff_eq_none.mp hfault⟩

end CPractice.CircularList
