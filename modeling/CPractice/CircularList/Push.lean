import CPractice.CircularList.Refinement

/-!
# `list_push_front` and `list_push_back`

Both are `RET_PTR(call, nil_str)` with an insertion next to the head for `call`.  The macro puts its
argument into a test and into the `return`, so the insertion is made twice: a push of a caller's buffer
adds two copies of it, and a push of an erased element adds the element and a copy.
-/

namespace CPractice.CircularList

open Lib

variable {s : Lists} {nodes : Nodes} {b : Board} {a list head : ℕ} {xs left right : List ℕ} {elem : Elem}
  {elemLen : ℤ}

/-- `RET_PTR` with the empty format: the call in the test, then the call in the `return`.  The two
allocations are what `ALLOC` returns in the one and in the other. -/
def retPtr (call : Lists → Option ℕ → Option (ℕ × Lists)) (s : Lists)
    (alloc : Option ℕ × Option ℕ) : Option (ℕ × Lists) := do
  let (_, s) ← call s alloc.1
  call s alloc.2

/-- `list_push_front`. -/
def listPushFront (s : Lists) (list : ℕ) (elem : Elem) (elemLen : ℤ)
    (alloc : Option ℕ × Option ℕ) : Option (ℕ × Lists) :=
  retPtr (fun s alloc ↦ listInsertBack s list elem elemLen alloc) s alloc

/-- `list_push_back`. -/
def listPushBack (s : Lists) (list : ℕ) (elem : Elem) (elemLen : ℤ)
    (alloc : Option ℕ × Option ℕ) : Option (ℕ × Lists) :=
  retPtr (fun s alloc ↦ listInsertFront s list elem elemLen alloc) s alloc

/-! ## The elements of a list -/

/-- The elements from `node` on, up to the head. -/
def elemsFrom (nodes : Nodes) (list : ℕ) : ℕ → ℕ → Option (List ℕ)
  | 0, _ => none
  | turns + 1, node =>
      if node = list then some []
      else do
        let n ← nodes node
        let rest ← elemsFrom nodes list turns n.next
        some (node :: rest)

/-- The elements of a list in their order. -/
def elems (s : Lists) (list : ℕ) : Option (List ℕ) := do
  let head ← s.nodes list
  elemsFrom s.nodes list (s.allocs + 1) head.next

theorem elemsFrom_eq (turns : ℕ) (h : Rep nodes b) (hseq : b.seq head = some (left ++ right))
    (hturns : right.length < turns) :
    elemsFrom nodes head turns (firstOr head right) = some right := by
  induction turns generalizing left right with
  | zero => exact absurd hturns (Nat.not_lt_zero _)
  | succ turns ih =>
      cases right with
      | nil => simp [elemsFrom]
      | cons e right =>
          have hne : e ≠ head := by
            intro heq
            apply (List.nodup_cons.mp (h.nodup _ _ hseq)).1
            rw [← heq]
            simp
          rcases isSome_of_nextOf (h.neighbours hseq).2.1 with ⟨n, hn, hnext⟩
          have hseq' : b.seq head = some ((left ++ [e]) ++ right) := by simpa using hseq
          have hrest := ih hseq' (by simpa using hturns)
          simp [elemsFrom, hne, hn, hnext, hrest]

theorem Holds.elems_eq (h : Holds s b) (hseq : b.seq list = some xs) : elems s list = some xs := by
  rcases isSome_of_nextOf (h.rep.cycle _ _ hseq).next_head with ⟨n, hn, hfirst⟩
  have hturns : xs.length < s.allocs + 1 := (h.length_le hseq).trans (Nat.lt_succ_self _)
  have hfront : b.seq list = some ([] ++ xs) := hseq
  have hloop := elemsFrom_eq (s.allocs + 1) h.rep hfront hturns
  simp [elems, hn, hfirst, hloop]

/-! ## Two insertions -/

/-- An element of this length that is in no list: an erased one, or a caller's buffer. -/
def freeElem (nodes : Nodes) (elemLen : ℤ) : Elem → Prop
  | .node addr => ∃ n ∈ nodes addr, marked n ∧ elemLen ≤ n.data.length
  | .buffer prev next data => ¬ (prev = prevMagic ∧ next = nextMagic) ∧ elemLen ≤ data.length

/-- Both allocations are granted: the length is not negative as an `n4`, and the nodes are new. -/
structure Grants (s : Lists) (elemLen : ℤ) (alloc : Option ℕ × Option ℕ) : Prop where
  len : 0 ≤ n4 (nodeSize + elemLen)
  some : alloc.1.isSome ∧ alloc.2.isSome
  fresh : freshAlloc s.nodes alloc.1 ∧ freshAlloc s.nodes alloc.2
  ne : alloc.1 ≠ alloc.2

theorem Holds.inList_head (h : Holds s b) (hseq : b.seq list = some xs) : inList s.nodes list := by
  rcases Option.isSome_iff_exists.mp (h.rep.live_of_mem hseq List.mem_cons_self) with ⟨n, hn⟩
  exact ⟨n, hn, h.not_marked ⟨list, xs, hseq, List.mem_cons_self⟩ hn⟩

/-- Only the element inserted gets other bytes. -/
theorem Board.value_insert (b : Board) (place : ℕ → ℕ → ℕ → List ℕ → List ℕ) {ptr : ℕ}
    (ha : a ≠ ptr) : (b.insert place list elem elemLen ptr).value a = b.value a := by
  unfold Board.insert Board.obtain
  split
  · rfl
  · split
    · rfl
    · exact Function.update_of_ne ha _ _

theorem freeElem.insertable (h : freeElem nodes elemLen elem) : insertable nodes elemLen elem := by
  cases elem with
  | node addr =>
      rcases h with ⟨n, hn, hmarked, -⟩
      exact .inr ⟨n, hn, .inl hmarked⟩
  | buffer prev next data => exact h.2

theorem freeElem.plainBuffer (h : freeElem nodes elemLen elem) : plainBuffer elem := by
  cases elem with
  | node addr => trivial
  | buffer prev next data => exact h.1

section Inserts

variable {rejected : ℤ → Bool} {link : Nodes → ℕ → ℕ → Option Nodes}
  {place : ℕ → ℕ → ℕ → List ℕ → List ℕ} {alloc : Option ℕ × Option ℕ}

/-- An insertion next to the head, by the pointer it returns. -/
theorem Holds.insert_head {node : ℕ} (hlink : Attaches link place) (h : Holds s b)
    (hseq : b.seq list = some xs) (hpos : 0 < elemLen) (hbound : elemLen < 2147483648) (helem : insertable s.nodes elemLen elem)
    (hplain : plainBuffer elem) (hfresh : freshAlloc s.nodes (some node)) {ptr : ℕ}
    (hptr : b.inserted rejected list elem elemLen (some node) = ptr) (hptr0 : ptr ≠ 0) :
    ∃ s', listInsert rejected link s list elem elemLen (some node) = some (ptr, s') ∧
      Holds s' (b.insert place list elem elemLen ptr) ∧
      (b.insert place list elem elemLen ptr).seq list = some (place list ptr list xs) := by
  have hlong : ¬ rejected elemLen → ¬ tooShort s list elem elemLen (some node) := by
    intro _ hshort
    have := hshort.1
    omega
  rcases listInsert_simulated rejected hlink h (.inr (h.inList_head hseq)) helem hbound hfresh hplain
    hlong with ⟨s', hinsert, hholds⟩
  rw [hptr] at hinsert hholds
  refine ⟨s', hinsert, hholds, ?_⟩
  have hobtain : (b.obtain elem elemLen ptr).seq = b.seq := by
    unfold Board.obtain
    split <;> rfl
  simp only [Board.insert, if_neg hptr0, Board.attach, hobtain, hseq, Option.map_some]

/-- What an insertion next to the head returns: an erased element, or the new node. -/
theorem Holds.inserted_cases (h : Holds s b) (hrejected : rejected elemLen = false)
    (hseq : b.seq list = some xs) (hlen : 0 ≤ n4 (nodeSize + elemLen))
    (hfree : freeElem s.nodes elemLen elem) (node : ℕ) :
    (∃ addr n, elem = .node addr ∧ addr ∈ b.erased ∧ addr ≠ 0 ∧ s.nodes addr = some n ∧
      elemLen ≤ n.data.length ∧ b.inserted rejected list elem elemLen (some node) = addr) ∨
    (∃ prev next data, elem = .buffer prev next data ∧
      b.inserted rejected list elem elemLen (some node) = node) := by
  have hhead : list ≠ 0 := h.rep.ne_zero hseq List.mem_cons_self
  cases elem with
  | node addr =>
      rcases hfree with ⟨n, hn, hmarked, hlength⟩
      have hn' : s.nodes addr = some n := hn
      have haddr : addr ≠ 0 := (h.rep.aligned addr (isSome_of_eq hn')).1
      have herased : addr ∈ b.erased := by
        rcases (h.rep.live addr).mp (isSome_of_eq hn') with hlisted | herased
        · exact absurd hmarked (h.not_marked hlisted hn')
        · exact herased
      refine .inl ⟨addr, n, rfl, herased, haddr, hn', hlength, ?_⟩
      simp [Board.inserted, hhead, Elem.isNil, haddr, hrejected, herased]
  | buffer prev next data =>
      refine .inr ⟨prev, next, data, rfl, ?_⟩
      simp [Board.inserted, hhead, Elem.isNil, hrejected, Int.not_lt.mpr hlen]

/-- An address that was free stays free, unless the insertion took it. -/
theorem Holds.fresh_insert {s' : Lists} {ptr node : ℕ} (h : Holds s b)
    (h' : Holds s' (b.insert place list elem elemLen ptr)) (hne : node ≠ ptr)
    (hfresh : freshAlloc s.nodes (some node)) : freshAlloc s'.nodes (some node) := by
  rintro _ ⟨⟩
  rcases hfresh node rfl with ⟨hnode, haligned, hnone⟩
  refine ⟨hnode, haligned, ?_⟩
  rw [Option.isNone_iff_eq_none, ← Option.not_isSome_iff_eq_none, ← isSome_dataOf, h'.rep.value,
    b.value_insert place hne, ← h.rep.value, isSome_dataOf]
  simpa using hnone

/-- The second insertion of a buffer copies it again, and that of an element now in the list copies
the element. -/
theorem Holds.inserted_again {s' : Lists} {ptr node : ℕ} (h : Holds s b)
    (hrejected : rejected elemLen = false) (hseq : b.seq list = some xs)
    (hlen : 0 ≤ n4 (nodeSize + elemLen)) (hfree : freeElem s.nodes elemLen elem)
    (hptr : b.inserted rejected list elem elemLen (some node) = ptr) (hptr0 : ptr ≠ 0)
    (h' : Holds s' (b.insert place list elem elemLen ptr)) (node' : ℕ) :
    insertable s'.nodes elemLen elem ∧
      (b.insert place list elem elemLen ptr).inserted rejected list elem elemLen (some node') =
        node' := by
  have hhead : list ≠ 0 := h.rep.ne_zero hseq List.mem_cons_self
  rcases h.inserted_cases hrejected hseq hlen hfree node with
    ⟨addr, n, rfl, herased, haddr, hn, hlength, hptr'⟩ | ⟨prev, next, data, rfl, -⟩
  · obtain rfl : addr = ptr := hptr'.symm.trans hptr
    have hboard : b.insert place list (.node addr) elemLen addr = b.attach (place list addr) addr := by
      rw [Board.insert, if_neg haddr, Board.obtain, if_pos herased]
    have hgone : addr ∉ (b.attach (place list addr) addr).erased :=
      h.rep.erased_nodup.not_mem_erase
    rw [hboard] at h' ⊢
    constructor
    · -- the bytes of the element are still there
      have hdata : dataOf s'.nodes addr = some n.data := by
        have hvalue := h.rep.value addr
        rw [dataOf, hn, Option.map_some] at hvalue
        rw [h'.rep.value, hvalue]
        rfl
      rcases Option.map_eq_some_iff.mp hdata with ⟨n', hn', heq⟩
      refine .inr ⟨n', hn', .inr ?_⟩
      rw [heq]
      exact hlength
    · simp [Board.inserted, hhead, Elem.isNil, haddr, hrejected, hgone, Int.not_lt.mpr hlen]
  · refine ⟨hfree.2, ?_⟩
    simp [Board.inserted, hhead, Elem.isNil, hrejected, Int.not_lt.mpr hlen]

/-- Two insertions of the same element next to the head add two elements. -/
theorem Holds.insert_twice (rejected : ℤ → Bool) (hlink : Attaches link place)
    (hrejected : rejected elemLen = false) (h : Holds s b) (hseq : b.seq list = some xs) (hpos : 0 < elemLen)
    (hbound : elemLen < 2147483648) (hfree : freeElem s.nodes elemLen elem)
    (hgrants : Grants s elemLen alloc) :
    ∃ x y s', retPtr (fun s alloc ↦ listInsert rejected link s list elem elemLen alloc) s alloc =
        some (y, s') ∧ elems s' list = some (place list y list (place list x list xs)) := by
  rcases alloc with ⟨alloc₁, alloc₂⟩
  rcases Option.isSome_iff_exists.mp hgrants.some.1 with ⟨node₁, rfl⟩
  rcases Option.isSome_iff_exists.mp hgrants.some.2 with ⟨node₂, rfl⟩
  have hfresh₂ := hgrants.fresh.2 node₂ rfl
  have hptr : ∃ ptr, b.inserted rejected list elem elemLen (some node₁) = ptr ∧ ptr ≠ 0 ∧
      node₂ ≠ ptr := by
    rcases h.inserted_cases hrejected hseq hgrants.len hfree node₁ with
      ⟨addr, n, rfl, -, haddr, hn, -, hptr⟩ | ⟨prev, next, data, rfl, hptr⟩
    · refine ⟨addr, hptr, haddr, ?_⟩
      rintro rfl
      rw [hn] at hfresh₂
      exact absurd hfresh₂.2.2 (by simp)
    · exact ⟨node₁, hptr, (hgrants.fresh.1 node₁ rfl).1, fun heq ↦ hgrants.ne (congrArg some heq.symm)⟩
  rcases hptr with ⟨ptr, hptr, hptr0, hne⟩
  rcases h.insert_head hlink hseq hpos hbound hfree.insertable hfree.plainBuffer hgrants.fresh.1 hptr
    hptr0 with ⟨s₁, hfirst, h₁, hseq₁⟩
  rcases h.inserted_again hrejected hseq hgrants.len hfree hptr hptr0 h₁ node₂ with
    ⟨helem₁, hptr₂⟩
  rcases h₁.insert_head hlink hseq₁ hpos hbound helem₁ hfree.plainBuffer
    (h.fresh_insert h₁ hne hgrants.fresh.2) hptr₂ hfresh₂.1 with ⟨s₂, hsecond, h₂, hseq₂⟩
  refine ⟨ptr, node₂, s₂, ?_, h₂.elems_eq hseq₂⟩
  simp [retPtr, hfirst, hsecond]

end Inserts

/-! ## Pushes -/

/-- A push adds the element it returns, with the bytes of the one it was given, and nothing else. -/
def AddsOne (s : Lists) (list : ℕ) (elem : Elem) (elemLen : ℤ) (push : Option (ℕ × Lists))
    (place : ℕ → List ℕ) : Prop :=
  ∃ ptr s', push = some (ptr, s') ∧ elems s' list = some (place ptr) ∧
    (dataOf s'.nodes ptr).map (·.take elemLen.toNat) = readElem s.nodes elemLen.toNat elem

theorem pushFront_adds_two {alloc : Option ℕ × Option ℕ} (h : Holds s b)
    (hseq : b.seq list = some xs) (hpos : 0 < elemLen) (hbound : elemLen < 2147483648)
    (hfree : freeElem s.nodes elemLen elem) (hgrants : Grants s elemLen alloc) :
    ∃ x y s', listPushFront s list elem elemLen alloc = some (y, s') ∧
      elems s' list = some (y :: x :: xs) := by
  have hrejected : decide (elemLen = 0) = false := decide_eq_false (Int.ne_of_gt hpos)
  rcases h.insert_twice (fun elemLen ↦ elemLen = 0) linkBack_attaches hrejected hseq hpos hbound hfree
    hgrants with ⟨x, y, s', hpush, helems⟩
  refine ⟨x, y, s', hpush, ?_⟩
  rw [helems, Board.seqBack, if_pos rfl, Board.seqBack, if_pos rfl]

theorem pushBack_adds_two {alloc : Option ℕ × Option ℕ} (h : Holds s b)
    (hseq : b.seq list = some xs) (hpos : 0 < elemLen) (hbound : elemLen < 2147483648)
    (hfree : freeElem s.nodes elemLen elem) (hgrants : Grants s elemLen alloc) :
    ∃ x y s', listPushBack s list elem elemLen alloc = some (y, s') ∧
      elems s' list = some (xs ++ [x] ++ [y]) := by
  have hrejected : decide (elemLen ≤ 0) = false := decide_eq_false (Int.not_le.mpr hpos)
  rcases h.insert_twice (fun elemLen ↦ elemLen ≤ 0) linkFront_attaches hrejected hseq hpos hbound hfree
    hgrants with ⟨x, y, s', hpush, helems⟩
  refine ⟨x, y, s', hpush, ?_⟩
  rw [helems, Board.seqFront, if_pos rfl, Board.seqFront, if_pos rfl]

/-- On no well-formed list does a push add exactly one element. -/
theorem push_never_adds_one {alloc : Option ℕ × Option ℕ} (h : Holds s b)
    (hseq : b.seq list = some xs) (hpos : 0 < elemLen) (hbound : elemLen < 2147483648)
    (hfree : freeElem s.nodes elemLen elem) (hgrants : Grants s elemLen alloc) :
    ¬ AddsOne s list elem elemLen (listPushFront s list elem elemLen alloc) (fun ptr ↦ ptr :: xs) ∧
    ¬ AddsOne s list elem elemLen (listPushBack s list elem elemLen alloc)
      (fun ptr ↦ xs ++ [ptr]) := by
  constructor
  · rintro ⟨ptr, s', hpush, helems, -⟩
    rcases pushFront_adds_two h hseq hpos hbound hfree hgrants with ⟨x, y, s₂, hpush₂, helems₂⟩
    rw [hpush] at hpush₂
    cases hpush₂
    rw [helems, Option.some_inj] at helems₂
    have hlength := congrArg List.length helems₂
    simp at hlength
  · rintro ⟨ptr, s', hpush, helems, -⟩
    rcases pushBack_adds_two h hseq hpos hbound hfree hgrants with ⟨x, y, s₂, hpush₂, helems₂⟩
    rw [hpush] at hpush₂
    cases hpush₂
    rw [helems, Option.some_inj] at helems₂
    have hlength := congrArg List.length helems₂
    simp at hlength

/-- A list with an element, and an erased one. -/
def erasedCalls : List Call :=
  [.init (some 8) [0, 0, 0, 0, 0, 0, 0, 0], .insertFront 8 (.buffer 0 0 [1]) 1 (some 24),
    .insertFront 8 (.buffer 0 0 [2]) 1 (some 32), .erase 8 32 1]

theorem erasedCalls_run : (soundMachine.execAll noLists erasedCalls).isSome := by decide

/-- The lists after these calls. -/
def erasedLists : Lists := ((soundMachine.execAll noLists erasedCalls).get erasedCalls_run).2

theorem erasedLists_trace :
    ∃ log, soundMachine.Trace erasedLists log ∧ (board log).seq 8 = some [24] :=
  ⟨_, Machine.trace_execAll (M := soundMachine) rfl (by decide) (Option.some_get erasedCalls_run).symm,
    by decide⟩

/-- A push of the erased element. -/
theorem push_never_adds_one_erased :
    ¬ AddsOne erasedLists 8 (.node 32) 1
      (listPushFront erasedLists 8 (.node 32) 1 (some 40, some 48)) (fun ptr ↦ ptr :: [24]) ∧
    ¬ AddsOne erasedLists 8 (.node 32) 1
      (listPushBack erasedLists 8 (.node 32) 1 (some 40, some 48)) (fun ptr ↦ [24] ++ [ptr]) := by
  rcases erasedLists_trace with ⟨log, htrace, hseq⟩
  have hgrants : Grants erasedLists 1 (some 40, some 48) :=
    ⟨by decide, by decide, by decide, by decide⟩
  have hfree : freeElem erasedLists.nodes 1 (.node 32) :=
    ⟨⟨prevMagic, nextMagic, [2]⟩, by decide, by decide, by decide⟩
  exact push_never_adds_one (holds_trace htrace) hseq (by decide) (by decide) hfree hgrants

/-- A push of a buffer adds it at `40` and at `48`. -/
theorem push_back_twice :
    (∃ log, soundMachine.Trace erasedLists log ∧ (board log).seq 8 = some [24]) ∧
      (listPushBack erasedLists 8 (.buffer 0 0 [3]) 1 (some 40, some 48)).bind
        (fun out ↦ elems out.2 8) = some [24, 40, 48] ∧
      ¬ AddsOne erasedLists 8 (.buffer 0 0 [3]) 1
        (listPushBack erasedLists 8 (.buffer 0 0 [3]) 1 (some 40, some 48))
        (fun ptr ↦ [24] ++ [ptr]) := by
  have htwice : (listPushBack erasedLists 8 (.buffer 0 0 [3]) 1 (some 40, some 48)).bind
      (fun out ↦ elems out.2 8) = some [24, 40, 48] := by decide
  refine ⟨erasedLists_trace, htwice, ?_⟩
  rintro ⟨ptr, s', hpush, helems, -⟩
  rw [hpush, Option.bind_some, helems, Option.some_inj] at htwice
  have hlength := congrArg List.length htwice
  simp at hlength

end CPractice.CircularList
