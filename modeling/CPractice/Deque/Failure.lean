import CPractice.Deque.Size

/-!
# Pushes that fail

A push may fail for want of a larger map or of a block.  By then `deque_push_back` has stored its
element and advanced `end.cur`, and the map may have been laid out anew.  The element is taken back
and the new layout kept: the sequence, and every pointer into it, is the same as before.

The new layout is not quite invisible.  A later push whose map allocation is refused fails in the old
layout and needs no allocation in the new one.
-/

namespace CPractice.Deque

open Lib

variable {α : Type} {d d' e e' : DequeT α} {xs : List α} {call : Call α} {r : ℤ × Option α}

/-- Deques with a map of two slots or more, driven by any calls. -/
def growingMachine (α : Type) : Machine (DequeT α) (Call α) (ℤ × Option α) where
  init d := ∃ unitSize mapSize blockSize block, 2 ≤ mapSize ∧ mapSize < 4294967296 ∧
    blockSize < 4294967296 ∧ block ≠ 0 ∧ dequeInit unitSize mapSize blockSize block = some d
  ok := (anyMachine α).ok
  exec := exec

instance (d : DequeT α) (call : Call α) : Decidable ((growingMachine α).ok d call) :=
  inferInstanceAs (Decidable ((anyMachine α).ok d call))

/-! ## What a failed push leaves -/

/-- The elements, read through their addresses. -/
def elements (d : DequeT α) : List (Option α) :=
  (List.range (span d * d.unitNum + d.stop.cur - d.start.cur)).map fun i ↦
    (elemPtr d i).bind (loadUnit d)

theorem Repr.elements_eq (h : Repr d xs) : elements d = xs.map some := by
  have hlen : span d * d.unitNum + d.stop.cur - d.start.cur = xs.length := by
    rw [← h.length_eq, Nat.add_sub_cancel_left]
  apply List.ext_getElem?
  intro i
  rw [elements, hlen, List.getElem?_map, List.getElem?_map]
  rcases Nat.lt_or_ge i xs.length with hi | hi
  · rw [List.getElem?_range hi, Option.map_some, elemPtr_load h hi, List.getElem?_eq_getElem hi,
      Option.map_some]
  · rw [List.getElem?_eq_none (by rw [List.length_range]; exact hi), List.getElem?_eq_none hi]
    rfl

/-- No query tells `d'` from `d`. -/
structure Unchanged (d d' : DequeT α) : Prop where
  elements_eq : elements d' = elements d
  empty_eq : dequeEmpty d' = dequeEmpty d
  size_eq : dequeSize d' = dequeSize d
  front_eq : dequeFront d' = dequeFront d
  back_eq : dequeBack d' = dequeBack d
  at_eq : ∀ i < (elements d).length, dequeAt d' i = dequeAt d i

/-- The block indices of a deque that was laid out anew. -/
theorem Relayout.index_iff (h : Wf d) (hrel : Relayout d d') :
    d'.start.index = d'.stop.index ↔ d.start.index = d.stop.index := by
  have hspan := hrel.span_eq
  have hle := h.index_le
  have hle' := hrel.wf.index_le
  simp only [span] at hspan
  omega

theorem Relayout.mapData_eq (h : Wf d) (hrel : Relayout d d') {k : ℕ} (hk : k ≤ span d) :
    mapData d' (d'.start.index + k) = mapData d (d.start.index + k) := by
  have hk' : k ≤ span d' := hk.trans_eq hrel.span_eq.symm
  rw [mapData_of_wf hrel.wf hk', mapData_of_wf h hk, hrel.map_eq k hk]

theorem Relayout.isNil_iff (h : Wf d) (hrel : Relayout d d') : isNil d' ↔ isNil d := by
  rw [isNil, isNil, hrel.index_iff h, hrel.start_cur_eq, hrel.stop_cur_eq]

theorem Relayout.dequeEmpty_eq (h : Wf d) (hrel : Relayout d d') : dequeEmpty d' = dequeEmpty d := by
  simp only [dequeEmpty, ne_eq, hrel.index_iff h, hrel.start_cur_eq, hrel.stop_cur_eq]

theorem Relayout.dequeSize_eq (h : Wf d) (hrel : Relayout d d') : dequeSize d' = dequeSize d := by
  have hdist (c : DequeT α) (hc : Wf c) : u4Sub c.stop.index c.start.index = span c := by
    have hlt := hc.stop_index_lt
    have hsize := hc.mapSize_lt
    exact u4Sub_of_le hc.index_le (by omega)
  simp only [dequeSize, hrel.index_iff h, hrel.start_cur_eq, hrel.stop_cur_eq, hrel.unitNum_eq,
    hdist d' hrel.wf, hdist d h, hrel.span_eq]

theorem Relayout.dequeFront_eq (h : Wf d) (hrel : Relayout d d') : dequeFront d' = dequeFront d := by
  have hdata := hrel.mapData_eq h (Nat.zero_le _)
  rw [Nat.add_zero, Nat.add_zero] at hdata
  simp only [dequeFront, hrel.isNil_iff h, hdata, hrel.start_cur_eq, hrel.unitSize_eq]

theorem Relayout.dequeBack_eq (h : Repr d xs) (hrel : Relayout d d') :
    dequeBack d' = dequeBack d := by
  have hstop (c : DequeT α) (hc : Wf c) : c.stop.index = c.start.index + span c :=
    (Nat.add_sub_cancel' hc.index_le).symm
  by_cases hnil : isNil d
  · rw [dequeBack, dequeBack, if_pos hnil, if_pos ((hrel.isNil_iff h.toWf).mpr hnil)]
  have hnil' : ¬ isNil d' := fun hn ↦ hnil ((hrel.isNil_iff h.toWf).mp hn)
  rw [dequeBack, dequeBack, if_neg hnil, if_neg hnil', hrel.stop_cur_eq, hrel.unitSize_eq,
    hrel.unitNum_eq]
  by_cases hcur : d.stop.cur = 0
  · -- The last element is the last unit of the block before.
    have hne : xs ≠ [] := fun hxs ↦ hnil ((Deque.isNil_iff h).mpr hxs)
    have hspan := h.one_le_span hne (.inl hcur)
    have hprev (c : DequeT α) (hc : Wf c) (hsame : span c = span d) :
        u4Sub c.stop.index 1 = c.start.index + (span d - 1) := by
      have hlt := hc.stop_index_lt
      have hsize := hc.mapSize_lt
      have heq := hstop c hc
      rw [u4Sub_of_le (by omega) (by omega)]
      omega
    rw [if_neg (not_not.mpr hcur), if_neg (not_not.mpr hcur), hprev d' hrel.wf hrel.span_eq,
      hprev d h.toWf rfl, hrel.mapData_eq h.toWf (Nat.sub_le _ _)]
  · rw [if_pos hcur, if_pos hcur, hstop d' hrel.wf, hstop d h.toWf, hrel.span_eq,
      hrel.mapData_eq h.toWf le_rfl]

theorem Relayout.dequeAt_eq (h : Repr d xs) (hrel : Relayout d d') {i : ℕ} (hi : i < xs.length) :
    dequeAt d' i = dequeAt d i := by
  have hlt := h.position_lt_succ hi
  have hle : u4 (i + d.start.cur) ≤ d.start.cur + i := by
    unfold u4
    omega
  have hpos : u4 (i + d.start.cur) < (span d + 1) * d.unitNum := by omega
  have hpos' : u4 (i + d'.start.cur) < (span d' + 1) * d'.unitNum := by
    rw [hrel.start_cur_eq, hrel.span_eq, hrel.unitNum_eq]
    exact hpos
  rw [Deque.dequeAt_eq hrel.wf hpos', Deque.dequeAt_eq h.toWf hpos, hrel.start_cur_eq, ptrAt, ptrAt,
    hrel.unitNum_eq, hrel.unitSize_eq, hrel.map_eq _ ((div_le_span h.toWf).mpr hpos)]

/-- A deque with another unit behind its sequence, laid out anew, answers every query as before. -/
theorem Rewound.unchanged (h : Repr d xs) (h' : Repr d' xs) (hrewound : Rewound d d') :
    Unchanged d d' := by
  rcases hrewound with ⟨blocks', hwf, hrel⟩
  have hd : Repr { d with blocks := blocks' } xs := by
    have hcells : ∀ i < xs.length, cellAt { d with blocks := blocks' } (d.start.cur + i) = xs[i]? := by
      intro i hi
      rw [← hrel.cellAt_eq hwf (h.position_lt_succ hi), ← h'.elems i hi, hrel.start_cur_eq]
    exact { hwf with
      start_cur_lt := h.start_cur_lt
      stop_cur_lt := h.stop_cur_lt
      length_eq := h.length_eq
      elems := hcells }
  -- The queries read the map and the cursors, which the stored unit leaves alone.
  have hempty := hrel.dequeEmpty_eq hwf
  have hsize := hrel.dequeSize_eq hwf
  have hfront := hrel.dequeFront_eq hwf
  have hback := hrel.dequeBack_eq hd
  refine ⟨?_, hempty, hsize, hfront, hback, ?_⟩
  · rw [h.elements_eq, h'.elements_eq]
  · intro i hi
    rw [h.elements_eq, List.length_map] at hi
    have hat := hrel.dequeAt_eq hd hi
    exact hat

/-! ## Runs -/

theorem repr_growing (hinit : (growingMachine α).init d) : Repr d [] := by
  rcases hinit with ⟨unitSize, mapSize, blockSize, block, htwo, hmap, hblock, hnz, heq⟩
  exact repr_dequeInit hblock htwo (mapSize_lt_of_init hmap heq) hnz heq

/-- The call is one of the two pushes. -/
def Call.isPush : Call α → Bool
  | .pushFront _ _ _ | .pushBack _ _ _ => true
  | .popFront | .popBack => false

/-- One call that does not fault: a push stores its element or changes nothing, a pop does what the
sequence says. -/
theorem exec_cases (h : Repr d xs) (hok : (growingMachine α).ok d call)
    (hexec : exec d call = some (r, d')) :
    Repr d' (keptStep xs call r) ∧
      (call.isPush = true → r.2 = none ∧ (r.1 ≠ 0 → Rewound d d')) ∧
      (call.isPush = false → r = listResult xs call) := by
  have hstored {r₁ : ℤ} {d₁ : DequeT α} {call : Call α} (hzero : r₁ = 0)
      (h₁ : Repr d₁ (listStep xs call)) : Repr d₁ (keptStep xs call (r₁, none)) := by
    rw [keptStep, if_pos hzero]
    exact h₁
  have hrelayout {d₁ : DequeT α} (hrel : Relayout d d₁) : Rewound d d₁ := ⟨d.blocks, h.toWf, hrel⟩
  cases call with
  | pushFront front granted ptr =>
      rcases Option.map_eq_some_iff.mp hexec with ⟨out, hout, heq⟩
      cases heq
      rcases dequePushFront_cases h front granted hok with ⟨d₁, hexec₁, hrepr⟩ |
          ⟨d₁, hexec₁, hrel, -⟩ | ⟨hexec₁, -⟩
      · obtain rfl : out = (0, d₁) := Option.some.inj (hout.symm.trans hexec₁)
        exact ⟨hstored rfl hrepr, fun _ ↦ ⟨rfl, fun hne ↦ absurd rfl hne⟩, fun hpop ↦ by cases hpop⟩
      · obtain rfl : out = (-2, d₁) := Option.some.inj (hout.symm.trans hexec₁)
        exact ⟨hrel.repr h, fun _ ↦ ⟨rfl, fun _ ↦ hrelayout hrel⟩, fun hpop ↦ by cases hpop⟩
      · rw [hexec₁] at hout
        cases hout
  | pushBack back granted ptr =>
      rcases Option.map_eq_some_iff.mp hexec with ⟨out, hout, heq⟩
      cases heq
      rcases dequePushBack_cases h back granted hok with ⟨d₁, hexec₁, hrepr⟩ |
          ⟨d₁, hexec₁, hrewound, hrepr, -⟩ | ⟨hexec₁, -⟩
      · obtain rfl : out = (0, d₁) := Option.some.inj (hout.symm.trans hexec₁)
        exact ⟨hstored rfl hrepr, fun _ ↦ ⟨rfl, fun hne ↦ absurd rfl hne⟩, fun hpop ↦ by cases hpop⟩
      · obtain rfl : out = (-2, d₁) := Option.some.inj (hout.symm.trans hexec₁)
        exact ⟨hrepr, fun _ ↦ ⟨rfl, fun _ ↦ hrewound⟩, fun hpop ↦ by cases hpop⟩
      · rw [hexec₁] at hout
        cases hout
  | popFront =>
      cases xs with
      | nil =>
          obtain ⟨rfl, rfl⟩ := Prod.mk.inj (Option.some.inj (hexec.symm.trans (dequePopFront_nil h)))
          exact ⟨h, fun hpush ↦ (by cases hpush), fun _ ↦ rfl⟩
      | cons x xs =>
          obtain ⟨d₁, hexec₁, hrepr⟩ := dequePopFront_cons h
          obtain ⟨rfl, rfl⟩ := Prod.mk.inj (Option.some.inj (hexec.symm.trans hexec₁))
          refine ⟨hrepr, fun hpush ↦ (by cases hpush), fun _ ↦ ?_⟩
          simp [listResult]
  | popBack =>
      rcases List.eq_nil_or_concat xs with rfl | ⟨ys, y, rfl⟩
      · obtain ⟨rfl, rfl⟩ := Prod.mk.inj (Option.some.inj (hexec.symm.trans (dequePopBack_nil h)))
        exact ⟨h, fun hpush ↦ (by cases hpush), fun _ ↦ rfl⟩
      · rw [List.concat_eq_append] at h ⊢
        obtain ⟨d₁, hexec₁, hrepr⟩ := dequePopBack_append h
        obtain ⟨rfl, rfl⟩ := Prod.mk.inj (Option.some.inj (hexec.symm.trans hexec₁))
        refine ⟨?_, fun hpush ↦ (by cases hpush), fun _ ↦ ?_⟩
        · simpa [keptStep, listStep] using hrepr
        · simp [listResult]

theorem repr_trace {log : List (Call α × (ℤ × Option α))} (htrace : (growingMachine α).Trace d log) :
    Repr d (kept log) := by
  induction htrace with
  | init hinit => exact repr_growing hinit
  | call _ hok hexec ih =>
      rw [kept, Machine.replay_append_singleton]
      exact (exec_cases ih hok hexec).1

/-- The return values of the pushes of a log. -/
def pushCodes (log : List (Call α × (ℤ × Option α))) : List ℤ :=
  (log.filter fun entry ↦ entry.1.isPush).map fun entry ↦ entry.2.1

theorem pushCodes_cons (call : Call α) (r : ℤ × Option α) (log : List (Call α × (ℤ × Option α))) :
    pushCodes ((call, r) :: log) =
      if call.isPush then r.1 :: pushCodes log else pushCodes log := by
  rw [pushCodes, List.filter_cons]
  split
  · rfl
  · rfl

/-- Two deques with one sequence give the same results as long as the same pushes succeed. -/
theorem execAll_agree (calls : List (Call α)) {xs : List α} (h : Repr d xs) (h' : Repr d' xs)
    (hok : (growingMachine α).AllOk d calls) (hok' : (growingMachine α).AllOk d' calls)
    {log log' : List (Call α × (ℤ × Option α))}
    (hexec : (growingMachine α).execAll d calls = some (log, e))
    (hexec' : (growingMachine α).execAll d' calls = some (log', e'))
    (hcodes : pushCodes log = pushCodes log') : log = log' ∧ elements e = elements e' := by
  induction calls generalizing d d' xs log log' with
  | nil =>
      cases hexec
      cases hexec'
      exact ⟨rfl, by rw [h.elements_eq, h'.elements_eq]⟩
  | cons call calls ih =>
      rcases Option.bind_eq_some_iff.mp hexec with ⟨⟨r, d₁⟩, hcall, hrest⟩
      rcases Option.map_eq_some_iff.mp hrest with ⟨⟨log₁, e₁⟩, htail, heq⟩
      cases heq
      rcases Option.bind_eq_some_iff.mp hexec' with ⟨⟨r', d₁'⟩, hcall', hrest'⟩
      rcases Option.map_eq_some_iff.mp hrest' with ⟨⟨log₁', e₁'⟩, htail', heq'⟩
      cases heq'
      rcases exec_cases h hok.1 hcall with ⟨h₁, hpush, hpop⟩
      rcases exec_cases h' hok'.1 hcall' with ⟨h₁', hpush', hpop'⟩
      rw [pushCodes_cons, pushCodes_cons] at hcodes
      have hsame : r = r' ∧ pushCodes log₁ = pushCodes log₁' := by
        cases hkind : call.isPush with
        | true =>
            rw [hkind, if_pos rfl, if_pos rfl, List.cons_eq_cons] at hcodes
            exact ⟨Prod.ext hcodes.1 ((hpush hkind).1.trans (hpush' hkind).1.symm), hcodes.2⟩
        | false =>
            rw [hkind, if_neg (by decide), if_neg (by decide)] at hcodes
            exact ⟨(hpop hkind).trans (hpop' hkind).symm, hcodes⟩
      rcases hsame with ⟨rfl, htailcodes⟩
      rcases ih h₁ h₁' (hok.2 _ hcall) (hok'.2 _ hcall') htail htail' htailcodes with ⟨rfl, helements⟩
      exact ⟨rfl, helements⟩

/-- Two deques with one sequence give the same results while the allocations are granted. -/
theorem execAll_granted (calls : List (Call α)) {xs : List α} (h : Repr d xs) (h' : Repr d' xs)
    (hok : (machine α).AllOk d calls) (hok' : (machine α).AllOk d' calls) :
    ∃ log e e', (machine α).execAll d calls = some (log, e) ∧
      (machine α).execAll d' calls = some (log, e') ∧ elements e = elements e' := by
  induction calls generalizing d d' xs with
  | nil => exact ⟨[], d, d', rfl, rfl, by rw [h.elements_eq, h'.elements_eq]⟩
  | cons call calls ih =>
      obtain ⟨r, d₁, hcall, rfl, h₁⟩ := exec_simulates d xs call h hok.1
      obtain ⟨r', d₁', hcall', rfl, h₁'⟩ := exec_simulates d' xs call h' hok'.1
      rcases ih h₁ h₁' (hok.2 _ hcall) (hok'.2 _ hcall') with ⟨log, e, e', htail, htail', helements⟩
      refine ⟨(call, listResult xs call) :: log, e, e', ?_, ?_, helements⟩
      · rw [Machine.execAll, hcall, Option.bind_some, htail, Option.map_some]
      · rw [Machine.execAll, hcall', Option.bind_some, htail', Option.map_some]

theorem pairInit_growing : (growingMachine ℕ).init pairInit :=
  ⟨1, 2, 2, 1, by decide, by decide, by decide, by decide, (Option.some_get _).symm⟩

theorem firstPush_run :
    ((growingMachine ℕ).execAll pairInit [.pushBack 7 true 2]).isSome := by with_unfolding_all decide

/-- The deque with one element in its block of two units. -/
def oneElement : DequeT ℕ := (((growingMachine ℕ).execAll pairInit [.pushBack 7 true 2]).get
  firstPush_run).2

theorem oneElement_trace :
    (growingMachine ℕ).Trace oneElement (((growingMachine ℕ).execAll pairInit
      [.pushBack 7 true 2]).get firstPush_run).1 :=
  Machine.trace_execAll pairInit_growing (by with_unfolding_all decide)
    (Option.some_get firstPush_run).symm

theorem refusedBlock_run : (exec oneElement (.pushBack 8 true 0)).isSome := by
  with_unfolding_all decide

end CPractice.Deque
