import CPractice.RbMap.Iteration

/-!
# What an erase leaves alone

An erase by key is the erase of the value that a search for the key returns.  It relinks nodes but
moves none: every other node keeps its address, key and value, so an iterator at any other node stays
valid, and only the two neighbours of the erased node see a difference.
-/

namespace CPractice.RbMap

open Lib

variable {κ : Type} {root root' : RbRoot κ}

/-- What a node holds for its user. -/
def entryAt (root : RbRoot κ) (p : Ptr) : Option (κ × ValueT) :=
  (root.mem p).map fun n ↦ (n.key, n.value)

theorem Represents.entryAt_eq {t : Tree κ} {entries : List (Entry κ)} (h : Represents root t entries)
    {entry : Entry κ} (hentry : entry ∈ entries) :
    entryAt root entry.addr = some (entry.key, entry.value) := by
  rw [← h.settled.inorder] at hentry
  rcases h.settled.holds.load_entry hentry with ⟨n, hload, hkey, hvalue⟩
  rw [entryAt, hload, Option.map_some, hkey, hvalue]

theorem Represents.mem_eq_none {t : Tree κ} {entries : List (Entry κ)} (h : Represents root t entries)
    {p : Ptr} (hp : ∀ entry ∈ entries, entry.addr.1 ≠ p) : root.mem p = none := by
  by_contra hsome
  rcases h.live p (Option.isSome_iff_ne_none.mpr hsome) with ⟨entry, hentry, heq⟩
  exact hp entry hentry heq

/-- The other entries of a sequence in memory have other addresses. -/
theorem Represents.addr_ne {t : Tree κ} {before after : List (Entry κ)} {entry : Entry κ}
    (h : Represents root t (before ++ entry :: after)) :
    ∀ other ∈ before ++ after, other.addr.1 ≠ entry.addr := by
  have hnodup := h.settled.holds.nodup
  rw [h.settled.inorder, List.map_append, List.map_cons, List.nodup_append, List.nodup_cons] at hnodup
  intro other hother
  rcases List.mem_append.mp hother with hmem | hmem
  · exact hnodup.2.2 _ (List.mem_map.mpr ⟨other, hmem, rfl⟩) _ List.mem_cons_self
  · intro heq
    exact hnodup.2.1.1 (List.mem_map.mpr ⟨other, hmem, heq⟩)

section Erased

variable {t t' : Tree κ} {before after : List (Entry κ)} {entry : Entry κ}

/-- Taking one entry out changes no other node. -/
theorem entryAt_of_erased (h : Represents root t (before ++ entry :: after))
    (h' : Represents root' t' (before ++ after)) {p : Ptr} (hp : p ≠ entry.addr) :
    entryAt root' p = entryAt root p := by
  by_cases hlive : ∃ other ∈ before ++ after, other.addr.1 = p
  · rcases hlive with ⟨other, hother, rfl⟩
    have hmem : other ∈ before ++ entry :: after := by
      rcases List.mem_append.mp hother with hin | hin
      · exact List.mem_append_left _ hin
      · exact List.mem_append_right _ (List.mem_cons_of_mem _ hin)
    rw [h.entryAt_eq hmem, h'.entryAt_eq hother]
  · have hother : ∀ other ∈ before ++ after, other.addr.1 ≠ p := by
      intro other hin heq
      exact hlive ⟨other, hin, heq⟩
    have hall : ∀ other ∈ before ++ entry :: after, other.addr.1 ≠ p := by
      intro other hin
      rcases List.mem_append.mp hin with hin | hin
      · exact hother other (List.mem_append_left _ hin)
      · rcases List.mem_cons.mp hin with rfl | hin
        · exact hp.symm
        · exact hother other (List.mem_append_right _ hin)
    rw [entryAt, entryAt, h.mem_eq_none hall, h'.mem_eq_none hother]

/-- One entry taken out of a sequence, in the direction of a side. -/
theorem towards_erased (side : Side) (before after : List (Entry κ)) (entry : Entry κ) :
    ∃ front rest, towards side (before ++ entry :: after) = front ++ entry :: rest ∧
      towards side (before ++ after) = front ++ rest := by
  cases side with
  | left => exact ⟨after.reverse, before.reverse, by simp [towards], by simp [towards]⟩
  | right => exact ⟨before, after, rfl, rfl⟩

/-- An iterator at another node moves as before, past the erased node. -/
theorem moveIn_of_erased (side : Side) (h : Represents root t (before ++ entry :: after))
    (h' : Represents root' t' (before ++ after)) {other : Entry κ}
    (hother : other ∈ before ++ after) :
    ∃ next, moveIn side root other.addr = some (0, next) ∧
      moveIn side root' other.addr =
        if next = entry.addr then moveIn side root entry.addr else some (0, next) := by
  rcases towards_erased side before after entry with ⟨front, rest, hwhole, hleft⟩
  have hne : ∀ other ∈ front ++ rest, other.addr.1 ≠ entry.addr := by
    intro other hin
    apply h.addr_ne other
    rwa [← mem_towards side, hleft]
  rw [← mem_towards side, hleft] at hother
  rcases List.mem_append.mp hother with hin | hin
  · rcases List.append_of_mem hin with ⟨left, right, rfl⟩
    have hmove : moveIn side root other.addr = some (0, firstPtr (right ++ entry :: rest)) := by
      apply moveIn_eq side h
      rw [hwhole, List.append_assoc, List.cons_append]
    have hmove' : moveIn side root' other.addr = some (0, firstPtr (right ++ rest)) := by
      apply moveIn_eq side h'
      rw [hleft, List.append_assoc, List.cons_append]
    refine ⟨_, hmove, ?_⟩
    rw [hmove']
    cases right with
    | nil =>
        -- the predecessor: it moves on to what came behind the erased node
        rw [List.nil_append, List.nil_append, firstPtr, if_pos rfl, moveIn_eq side h hwhole]
    | cons next right =>
        have hnext : next.addr.1 ≠ entry.addr := hne next (by simp)
        rw [List.cons_append, List.cons_append, firstPtr, firstPtr, if_neg hnext]
  · rcases List.append_of_mem hin with ⟨left, right, rfl⟩
    have hmove : moveIn side root other.addr = some (0, firstPtr right) := by
      apply moveIn_eq side h
      rw [hwhole, ← List.cons_append, ← List.append_assoc]
    have hmove' : moveIn side root' other.addr = some (0, firstPtr right) := by
      apply moveIn_eq side h'
      rw [hleft, ← List.append_assoc]
    refine ⟨_, hmove, ?_⟩
    have hnext : firstPtr right ≠ entry.addr := by
      cases right with
      | nil => exact entry.addr.2.1.symm
      | cons next right => exact hne next (by simp)
    rw [hmove', if_neg hnext]

end Erased

variable [LinearOrder κ] {cmp : κ → κ → ℤ}

/-- For every run and every bound key: erasing by the key and erasing by the value found for it leave
the same map; every other node keeps its address, key and value; and an iterator at any other node
moves forwards and backwards as before, except that it goes on from the erased node where it would
have come to it. -/
theorem erase_disturbs_no_other_node (hcmp : TotalOrderCmp cmp) {log : List (Call κ × Ret κ)}
    (htrace : (machine cmp).Trace root log) {key : κ} (hbound : contents log key ≠ none) :
    ∃ node root', rbFind cmp root key = some node ∧ (entryAt root node).map Prod.fst = some key ∧
      mapErase cmp root key = some (0, root') ∧ mapEraseEx root node = some (0, root') ∧
      root'.mem node = none ∧ (∀ p, p ≠ node → entryAt root' p = entryAt root p) ∧
      ∀ p, p ≠ node → (root.mem p).isSome →
        (∃ next, mapNext root p = some (0, next) ∧
          mapNext root' p = if next = node then mapNext root node else some (0, next)) ∧
        ∃ prev, mapRnext root p = some (0, prev) ∧
          mapRnext root' p = if prev = node then mapRnext root node else some (0, prev) := by
  have hrelated := htrace.related (fun _ ↦ none) (fun _ hinit ↦ hinit ▸ refines_init)
    (call_simulates hcmp)
  rcases hrelated with ⟨t, entries, h⟩
  rcases h.search hcmp key with ⟨path, color, entry, left, right, parent, -, hentry, rfl, -,
    hsearch⟩ | ⟨path, -, -, hunbound, -⟩
  · rcases eraseNode_represents h.represents hentry with
      ⟨root', t', before, after, rfl, herase, hrepresents⟩
    have hnonempty : root.node ≠ 0 ∧ root.size ≠ 0 := by
      refine ⟨?_, ?_⟩
      · rw [ne_eq, node_eq_zero_iff h.represents.settled]
        simp
      · rw [h.represents.size]
        simp
    have heraseEx : mapEraseEx root entry.addr = some (0, root') := by
      rw [mapEraseEx, if_neg (not_or.mpr ⟨hnonempty.1, entry.addr.2.1⟩), if_neg hnonempty.2, herase]
      rfl
    refine ⟨entry.addr, root', ?_, ?_, ?_, heraseEx, ?_, ?_, ?_⟩
    · rw [rbFind, hsearch]
      rfl
    · rw [h.represents.entryAt_eq hentry]
      rfl
    · simp only [mapErase, if_neg (not_or.mpr hnonempty), hsearch, Option.bind_eq_bind,
        Option.bind_some, if_neg entry.addr.2.1, heraseEx]
    · exact hrepresents.mem_eq_none h.represents.addr_ne
    · intro p hp
      exact entryAt_of_erased h.represents hrepresents hp
    · intro p hp hlive
      rcases h.represents.live p hlive with ⟨other, hother, rfl⟩
      have hin : other ∈ before ++ after := by
        rcases List.mem_append.mp hother with hin | hin
        · exact List.mem_append_left _ hin
        · rcases List.mem_cons.mp hin with rfl | hin
          · exact absurd rfl hp
          · exact List.mem_append_right _ hin
      exact ⟨moveIn_of_erased .right h.represents hrepresents hin,
        moveIn_of_erased .left h.represents hrepresents hin⟩
  · exact absurd hunbound hbound

theorem erase_disturbs_no_other_node_small :
    ∃ root log, (machine numCmp).Trace root log ∧ contents log 7 = some [70] ∧
      ∃ root', mapErase numCmp root 7 = some (0, root') ∧ root'.mem 8 = none := by
  have hseven : contents (((machine numCmp).execAll rbInit smallCalls).get smallCalls_run).1 7 =
      some [70] := by with_unfolding_all decide
  rcases erase_disturbs_no_other_node numCmp_total smallCalls_trace
    (show contents _ 7 ≠ none by rw [hseven]; exact Option.some_ne_none _) with
    ⟨node, root', hfind, -, herase, -, hnone, -⟩
  have hnode : rbFind numCmp (((machine numCmp).execAll rbInit smallCalls).get smallCalls_run).2 7 =
      some 8 := by with_unfolding_all decide
  obtain rfl : node = 8 := Option.some.inj (hfind.symm.trans hnode)
  exact ⟨_, _, smallCalls_trace, hseven, root', herase, hnone⟩

end CPractice.RbMap
