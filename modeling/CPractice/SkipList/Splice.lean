import CPractice.SkipList.Chains

/-!
# Splicing and unlinking on all levels

The splice of an insert and the unlinking of an erase are described by what they do to the pointers,
level by level (`splice_spec`, `unlinkLevels_spec`).  With the rules for paths this gives the chains
after each operation (`Repr.insert`, `Repr.erase`).
-/

namespace CPractice.SkipList

open Lib

variable {κ ν : Type} {s s' : SkipListT κ ν}

/-! ## Stores -/

/-- What stores to `next` pointers leave alone. -/
structure SameNodes (s s' : SkipListT κ ν) : Prop where
  level : s'.level = s.level
  tail : s'.tail = s.tail
  header : s'.header = s.header
  allocs : s'.allocs = s.allocs
  nodes : ∀ a, (s'.nodes a).map (fun n ↦ (n.entry, n.level)) =
    (s.nodes a).map fun n ↦ (n.entry, n.level)

namespace SameNodes

theorem refl (s : SkipListT κ ν) : SameNodes s s := ⟨rfl, rfl, rfl, rfl, fun _ ↦ rfl⟩

theorem trans {s'' : SkipListT κ ν} (h : SameNodes s s') (h' : SameNodes s' s'') :
    SameNodes s s'' :=
  ⟨h'.level.trans h.level, h'.tail.trans h.tail, h'.header.trans h.header,
    h'.allocs.trans h.allocs, fun a ↦ (h'.nodes a).trans (h.nodes a)⟩

/-- A node keeps its entry and level. -/
theorem exists_node (h : SameNodes s s') {a : ℕ} {n : NodeT κ ν} (hn : s.nodes a = some n) :
    ∃ n', s'.nodes a = some n' ∧ n'.entry = n.entry ∧ n'.level = n.level := by
  have hmap := h.nodes a
  rw [hn, Option.map_some] at hmap
  rcases Option.map_eq_some_iff.mp hmap with ⟨n', hn', heq⟩
  exact ⟨n', hn', (Prod.mk.inj heq).1, (Prod.mk.inj heq).2⟩

end SameNodes

/-- Reads after a store. -/
theorem setNext_spec {level a : ℕ} {n : NodeT κ ν} (hn : s.nodes a = some n)
    (hle : level ≤ n.level) (target : ℕ) :
    ∃ s', setNext s level a target = some s' ∧ SameNodes s s' ∧
      nextAt s' level a = some target ∧
      ∀ i b, (i, b) ≠ (level, a) → nextAt s' i b = nextAt s i b := by
  refine ⟨{ s with nodes := Function.update s.nodes a (some (n.withNext level target)) }, ?_, ?_,
    ?_, ?_⟩
  · simp [setNext, hn, hle]
  · refine ⟨rfl, rfl, rfl, rfl, ?_⟩
    intro b
    by_cases hb : b = a
    · simp [hb, hn, NodeT.withNext]
    · simp [hb]
  · simp [nextAt, NodeT.withNext, hle]
  · intro i b hne
    by_cases hb : b = a
    · have hi : i ≠ level := fun hi ↦ hne (by rw [hi, hb])
      simp [nextAt, hb, hn, NodeT.withNext, hi]
    · simp [nextAt, hb]

/-! ## The splice loop -/

/-- What the splice of `cur` does on the levels up to `top`. -/
structure Spliced (s s' : SkipListT κ ν) (pre : ℕ → ℕ) (cur top : ℕ) : Prop where
  same : SameNodes s s'
  next_cur : ∀ i ≤ top, nextAt s' i cur = nextAt s i (pre i)
  next_pre : ∀ i ≤ top, nextAt s' i (pre i) = some cur
  other : ∀ i a, a ≠ cur → a ≠ pre i → nextAt s' i a = nextAt s i a
  above : ∀ i a, top < i → nextAt s' i a = nextAt s i a

/-- One iteration: `cur` goes behind `pre` on one level. -/
theorem spliceLevel_spec {level pre cur : ℕ} (succ : ℕ) {npre ncur : NodeT κ ν}
    (hpre : s.nodes pre = some npre) (hpreLe : level ≤ npre.level)
    (hcur : s.nodes cur = some ncur) (hcurLe : level ≤ ncur.level) (hne : pre ≠ cur) :
    ∃ s₁ s₂, setNext s level cur succ = some s₁ ∧ setNext s₁ level pre cur = some s₂ ∧
      SameNodes s s₂ ∧ nextAt s₂ level cur = some succ ∧ nextAt s₂ level pre = some cur ∧
      (∀ a, a ≠ cur → a ≠ pre → nextAt s₂ level a = nextAt s level a) ∧
      ∀ i a, i ≠ level → nextAt s₂ i a = nextAt s i a := by
  rcases setNext_spec hcur hcurLe succ with ⟨s₁, hset₁, hsame₁, hnext₁, hother₁⟩
  rcases hsame₁.exists_node hpre with ⟨npre₁, hpre₁, -, hlevel₁⟩
  rcases setNext_spec hpre₁ (hlevel₁ ▸ hpreLe) cur with
    ⟨s₂, hset₂, hsame₂, hnext₂, hother₂⟩
  refine ⟨s₁, s₂, hset₁, hset₂, hsame₁.trans hsame₂, ?_, hnext₂, ?_, ?_⟩
  · rw [hother₂ level cur (by simpa using hne.symm), hnext₁]
  · intro a hacur hapre
    rw [hother₂ level a (by simpa using hapre), hother₁ level a (by simpa using hacur)]
  · intro i a hi
    rw [hother₂ i a (by simp [hi]), hother₁ i a (by simp [hi])]

/-- A predecessor the splice can use on `level`. -/
structure Usable (s : SkipListT κ ν) (pre cur level : ℕ) : Prop where
  ne : pre ≠ cur
  node : ∃ n, s.nodes pre = some n ∧ level ≤ n.level
  next : ∃ succ, nextAt s level pre = some succ

theorem Usable.transfer {pre cur level : ℕ} (h : Usable s pre cur level) (hsame : SameNodes s s')
    (hnext : nextAt s' level pre = nextAt s level pre) : Usable s' pre cur level := by
  rcases h.node with ⟨n, hn, hle⟩
  rcases hsame.exists_node hn with ⟨n', hn', -, hlevel⟩
  exact ⟨h.ne, ⟨n', hn', hlevel ▸ hle⟩, by rw [hnext]; exact h.next⟩

theorem splice_spec {update : ℕ → Option ℕ} {pre : ℕ → ℕ} {cur top : ℕ} {ncur : NodeT κ ν}
    (hupdate : ∀ i ≤ top, update i = some (pre i)) (husable : ∀ i ≤ top, Usable s (pre i) cur i)
    (hcur : s.nodes cur = some ncur) (htop : top ≤ ncur.level) :
    ∃ s', splice update cur top s = some s' ∧ Spliced s s' pre cur top := by
  induction top generalizing s ncur with
  | zero =>
      rcases husable 0 le_rfl with ⟨hne, ⟨npre, hpre, hpreLe⟩, succ, hsucc⟩
      rcases spliceLevel_spec succ hpre hpreLe hcur htop hne with
        ⟨s₁, s₂, hset₁, hset₂, hsame, hnextCur, hnextPre, hother, habove⟩
      refine ⟨s₂, by simp [splice, hupdate 0 le_rfl, hsucc, hset₁, hset₂], hsame, ?_, ?_, ?_, ?_⟩
      · intro i hi
        obtain rfl : i = 0 := Nat.le_zero.mp hi
        rw [hnextCur, hsucc]
      · intro i hi
        obtain rfl : i = 0 := Nat.le_zero.mp hi
        exact hnextPre
      · intro i a hacur hapre
        by_cases hi : i = 0
        · subst hi
          exact hother a hacur hapre
        · exact habove i a hi
      · intro i a hi
        exact habove i a hi.ne'
  | succ top ih =>
      rcases husable (top + 1) le_rfl with ⟨hne, ⟨npre, hpre, hpreLe⟩, succ, hsucc⟩
      rcases spliceLevel_spec succ hpre hpreLe hcur htop hne with
        ⟨s₁, s₂, hset₁, hset₂, hsame, hnextCur, hnextPre, hother, habove⟩
      rcases hsame.exists_node hcur with ⟨ncur₂, hcur₂, -, hlevel₂⟩
      have husable₂ : ∀ i ≤ top, Usable s₂ (pre i) cur i := by
        intro i hi
        apply (husable i (hi.trans (Nat.le_succ top))).transfer hsame
        exact habove i (pre i) (by omega)
      rcases ih (fun i hi ↦ hupdate i (hi.trans (Nat.le_succ top))) husable₂ hcur₂
        (by rw [hlevel₂]; omega) with ⟨s', hsplice, hspliced⟩
      refine ⟨s', ?_, hsame.trans hspliced.same, ?_, ?_, ?_, ?_⟩
      · simp [splice, hupdate (top + 1) le_rfl, hsucc, hset₁, hset₂, hsplice]
      · intro i hi
        by_cases hlast : i = top + 1
        · subst hlast
          rw [hspliced.above _ _ (Nat.lt_succ_self top), hnextCur, hsucc]
        · rw [hspliced.next_cur i (by omega), habove i _ hlast]
      · intro i hi
        by_cases hlast : i = top + 1
        · subst hlast
          rw [hspliced.above _ _ (Nat.lt_succ_self top), hnextPre]
        · exact hspliced.next_pre i (by omega)
      · intro i a hacur hapre
        rw [hspliced.other i a hacur hapre]
        by_cases hlast : i = top + 1
        · subst hlast
          exact hother a hacur hapre
        · exact habove i a hlast
      · intro i a hi
        rw [hspliced.above i a (by omega), habove i a (by omega)]

/-! ## The unlinking loop -/

/-- What unlinking `cur` does on the levels from `bottom` to its own level `top`. -/
structure Unlinked (s s' : SkipListT κ ν) (pre : ℕ → ℕ) (cur bottom top : ℕ) : Prop where
  same : SameNodes s s'
  next_pre : ∀ i, bottom ≤ i → i ≤ top → nextAt s' i (pre i) = nextAt s i cur
  other : ∀ i a, a ≠ pre i → nextAt s' i a = nextAt s i a
  outside : ∀ i a, i < bottom ∨ top < i → nextAt s' i a = nextAt s i a

/-- What the loop finds on the levels from `bottom` to the list's level `listTop`. -/
structure Unlinkable (s : SkipListT κ ν) (pre : ℕ → ℕ) (cur bottom top listTop : ℕ) : Prop where
  top_le : top ≤ listTop
  usable : ∀ i ≤ listTop, bottom ≤ i → Usable s (pre i) cur i
  next_pre_iff : ∀ i ≤ listTop, bottom ≤ i → (nextAt s i (pre i) = some cur ↔ i ≤ top)
  next_cur : ∀ i ≤ top, bottom ≤ i → ∃ succ, nextAt s i cur = some succ

/-- One round of the loop, up to the level of `cur`. -/
theorem Unlinkable.step {pre : ℕ → ℕ} {cur level top listTop : ℕ}
    (h : Unlinkable s pre cur level top listTop) (hlevel : level ≤ top) :
    ∃ succ s₁, nextAt s level (pre level) = some cur ∧ nextAt s level cur = some succ ∧
      setNext s level (pre level) succ = some s₁ ∧ SameNodes s s₁ ∧
      nextAt s₁ level (pre level) = some succ ∧
      (∀ i a, (i, a) ≠ (level, pre level) → nextAt s₁ i a = nextAt s i a) ∧
      Unlinkable s₁ pre cur (level + 1) top listTop := by
  have hle := hlevel.trans h.top_le
  rcases h.usable level hle le_rfl with ⟨-, ⟨npre, hpre, hpreLe⟩, -⟩
  rcases h.next_cur level hlevel le_rfl with ⟨succ, hnextCur⟩
  rcases setNext_spec hpre hpreLe succ with ⟨s₁, hset, hsame, hnext, hother⟩
  have hfar : ∀ i a, level + 1 ≤ i → nextAt s₁ i a = nextAt s i a := by
    intro i a hi
    exact hother i a (by simp [Nat.ne_of_gt hi])
  refine ⟨succ, s₁, (h.next_pre_iff level hle le_rfl).mpr hlevel, hnextCur, hset, hsame, hnext,
    hother, h.top_le, ?_, ?_, ?_⟩
  · intro i hi hlo
    exact (h.usable i hi (by omega)).transfer hsame (hfar i _ hlo)
  · intro i hi hlo
    rw [hfar i _ hlo]
    exact h.next_pre_iff i hi (by omega)
  · intro i hi hlo
    rw [hfar i _ hlo]
    exact h.next_cur i hi (by omega)

/-- Above the level of `cur` the loop ends. -/
theorem Unlinkable.stop {pre : ℕ → ℕ} {cur level top listTop : ℕ}
    (h : Unlinkable s pre cur level top listTop) (hle : level ≤ listTop) (hlevel : ¬ level ≤ top) :
    ∃ target, nextAt s level (pre level) = some target ∧ target ≠ cur := by
  rcases h.usable level hle le_rfl with ⟨-, -, target, htarget⟩
  refine ⟨target, htarget, ?_⟩
  rintro rfl
  exact hlevel ((h.next_pre_iff level hle le_rfl).mp htarget)

theorem unlinkLevels_spec {update : ℕ → Option ℕ} {pre : ℕ → ℕ} {cur top listTop : ℕ}
    (hupdate : ∀ i ≤ listTop, update i = some (pre i))
    {remaining level : ℕ} (hremaining : remaining + level = listTop + 1)
    (hlevel : level ≤ top + 1) (h : Unlinkable s pre cur level top listTop) :
    ∃ s', unlinkLevels update cur remaining level s = some s' ∧
      Unlinked s s' pre cur level top := by
  induction remaining generalizing s level with
  | zero =>
      have htop := h.top_le
      refine ⟨s, rfl, SameNodes.refl s, ?_, fun _ _ _ ↦ rfl, fun _ _ _ ↦ rfl⟩
      intro i hlo hhi
      omega
  | succ remaining ih =>
      have hle : level ≤ listTop := by omega
      by_cases hin : level ≤ top
      · rcases h.step hin with ⟨succ, s₁, heq, hnextCur, hset, hsame, hnext, hother, hrest⟩
        have hfar : ∀ i a, i ≠ level → nextAt s₁ i a = nextAt s i a :=
          fun i a hi ↦ hother i a (by simp [hi])
        rcases ih (by omega) (by omega) hrest with ⟨s', hunlink, hspec⟩
        refine ⟨s', ?_, hsame.trans hspec.same, ?_, ?_, ?_⟩
        · simp [unlinkLevels, hupdate level hle, heq, hnextCur, hset, hunlink]
        · intro i hlo hhi
          by_cases hi : i = level
          · subst hi
            rw [hspec.outside _ _ (.inl (Nat.lt_succ_self _)), hnext, hnextCur]
          · rw [hspec.next_pre i (by omega) hhi, hfar i _ hi]
        · intro i a hapre
          rw [hspec.other i a hapre]
          by_cases hi : i = level
          · subst hi
            exact hother _ _ (by simpa using hapre)
          · exact hfar i a hi
        · intro i a hout
          rw [hspec.outside i a (by omega), hfar i a (by omega)]
      · rcases h.stop hle hin with ⟨target, htarget, hneq⟩
        refine ⟨s, by simp [unlinkLevels, hupdate level hle, htarget, hneq], SameNodes.refl s, ?_,
          fun _ _ _ ↦ rfl, fun _ _ _ ↦ rfl⟩
        intro i hlo hhi
        omega

/-! ## Raising the list -/

theorem raised_same (s : SkipListT κ ν) (level : ℕ) :
    (raised s level).header = s.header ∧ (raised s level).tail = s.tail ∧
      (raised s level).nodes = s.nodes := by
  unfold SkipList.raised
  split <;> exact ⟨rfl, rfl, rfl⟩

theorem insertLevel_le (s : SkipListT κ ν) (level : ℕ) :
    insertLevel s level ≤ (raised s level).level := by
  unfold insertLevel SkipList.raised
  split
  · exact le_rfl
  · rename_i hle
    exact Nat.not_lt.mp hle

theorem nextAt_addNode (s : SkipListT κ ν) {x a : ℕ} (hne : a ≠ x) (i level : ℕ) (key : κ) (value : ν) :
    nextAt (addNode s x level key value) i a = nextAt s i a := by
  simp [nextAt, addNode, hne]

/-! ## The cut on a level -/

section Ordered

variable [LinearOrder κ] {items above rest : List (Item κ ν)} {key : κ}

/-- On each level the path goes through the predecessor found and the node after it. -/
theorem path_split (s : SkipListT κ ν) (hcut : Cut items above rest key) (i : ℕ) :
    ∃ before after, s.header :: addrs above i = before ++ [lastAbove s above i] ∧
      addrs rest i ++ [s.tail] = firstRest s rest i :: after ∧
      pathAt s items i = before ++ lastAbove s above i :: firstRest s rest i :: after := by
  rcases exists_concat_lastFrom s.header (addrs above i) with ⟨before, hbefore⟩
  rcases exists_cons_firstOr s.tail (addrs rest i) with ⟨after, hafter⟩
  refine ⟨before, after, hbefore, hafter, ?_⟩
  calc
    pathAt s items i = (s.header :: addrs above i) ++ (addrs rest i ++ [s.tail]) := by
      rw [pathAt, hcut.eq, addrs_append, List.append_assoc, List.cons_append]
    _ = before ++ lastAbove s above i :: firstRest s rest i :: after := by
      rw [hbefore, hafter, lastAbove, firstRest, List.append_assoc, List.singleton_append]

theorem Repr.next_lastAbove (h : Repr s items) (hcut : Cut items above rest key) {i : ℕ}
    (hi : i < skipListMaxLevel) :
    nextAt s i (lastAbove s above i) = some (firstRest s rest i) := by
  rcases path_split s hcut i with ⟨before, after, -, -, hsplit⟩
  have hpath := h.paths i hi
  rw [hsplit] at hpath
  exact hpath.next_eq

theorem Repr.node_lastAbove (h : Repr s items) (hcut : Cut items above rest key) {i : ℕ}
    (hi : i < skipListMaxLevel) :
    ∃ n, s.nodes (lastAbove s above i) = some n ∧ i ≤ n.level := by
  rcases lastFrom_mem s.header (addrs above i) with heq | hmem
  · rcases h.header_node with ⟨n, hn, hlevel⟩
    exact ⟨n, by rw [lastAbove, heq, hn], by omega⟩
  · rcases mem_addrs.mp hmem with ⟨it, hit, hle, haddr⟩
    rcases h.item_node it (hcut.eq ▸ List.mem_append_left _ hit) with ⟨n, hn, -, hlevel⟩
    exact ⟨n, by rw [lastAbove, ← haddr, hn], by omega⟩

/-- The node behind the first item that is not above the key. -/
theorem Repr.next_first (h : Repr s items) {cur : Item κ ν}
    (hcut : Cut items above (cur :: rest) key) {i : ℕ} (hi : i < skipListMaxLevel)
    (hreach : i ≤ cur.level) :
    nextAt s i cur.addr = some (firstOr s.tail (addrs rest i)) := by
  rcases exists_cons_firstOr s.tail (addrs rest i) with ⟨after, hafter⟩
  have hpath := h.paths i hi
  rw [pathAt, hcut.eq, addrs_append, addrs_cons_of_le hreach, List.append_assoc, List.cons_append,
    hafter, ← List.cons_append] at hpath
  exact (Path.drop _ hpath).next_head

/-- Every node of a path is allocated. -/
theorem Repr.path_alloc (h : Repr s items) {i a : ℕ} (ha : a ∈ pathAt s items i) :
    (s.nodes a).isSome := by
  rcases List.mem_cons.mp ha with rfl | hmem
  · rcases h.header_node with ⟨n, hn, -⟩
    simp [hn]
  · rcases List.mem_append.mp hmem with hmem | hmem
    · rcases mem_addrs.mp hmem with ⟨it, hit, -, rfl⟩
      rcases h.item_node it hit with ⟨n, hn, -⟩
      simp [hn]
    · rw [List.mem_singleton.mp hmem]
      exact h.tail_node

/-! ## Insert -/

theorem Repr.raised (h : Repr s items) {level : ℕ} (hlevel : level < skipListMaxLevel) :
    Repr (raised s level) items := by
  unfold SkipList.raised
  split
  · rename_i hlt
    refine { h with item_level := ?_, level_lt := ?_ }
    · intro it hit
      exact (h.item_level it hit).trans (Nat.le_succ _)
    · have hbound : s.level + 1 < skipListMaxLevel := by omega
      exact hbound
  · exact h

theorem raisedUpdate_spec (h : Repr s items) (hcut : Cut items above rest key) {level : ℕ}
    {update : ℕ → Option ℕ} (hupdate : ∀ i ≤ s.level, update i = some (lastAbove s above i)) :
    ∀ i ≤ insertLevel s level, raisedUpdate s level update i = some (lastAbove s above i) := by
  intro i hi
  unfold insertLevel at hi
  unfold raisedUpdate
  split at hi
  · rename_i hlt
    rw [if_pos hlt]
    by_cases hraised : i = s.level + 1
    · -- The level is new: nothing of the list reaches it.
      have hempty : addrs above i = [] := by
        have hall := h.addrs_above (hraised ▸ Nat.lt_succ_self s.level : s.level < i)
        rw [hcut.eq, addrs_append] at hall
        exact (List.append_eq_nil_iff.mp hall).1
      simp [hraised, lastAbove, hraised ▸ hempty]
    · rw [Function.update_of_ne hraised]
      exact hupdate i (by omega)
  · rename_i hle
    rw [if_neg hle]
    exact hupdate i (by omega)

/-- One level after the new node is spliced in: the node is there if it reaches the level. -/
theorem Repr.path_spliced (h : Repr s items) (hcut : Cut items above rest key) {x level : ℕ} {value : ν}
    (hfresh : s.nodes x = none)
    (hspliced : Spliced (addNode s x level key value) s' (lastAbove s above) x level) {i : ℕ}
    (hi : i < skipListMaxLevel) :
    Path (nextAt s' i) (pathAt s' (above ++ ⟨x, key, value, level⟩ :: rest) i) := by
  have hheader : s'.header = s.header := hspliced.same.header
  have htail : s'.tail = s.tail := hspliced.same.tail
  have hmemNe : ∀ a ∈ pathAt s items i, a ≠ x := by
    rintro a ha rfl
    have halloc := h.path_alloc ha
    simp [hfresh] at halloc
  have hpath := h.paths i hi
  by_cases hreach : i ≤ level
  · have hnodup := h.path_nodup i
    rcases path_split s hcut i with ⟨before, after, hbefore, hafter, hsplit⟩
    have hgoal : pathAt s' (above ++ ⟨x, key, value, level⟩ :: rest) i =
        before ++ lastAbove s above i :: x :: firstRest s rest i :: after := by
      calc
        pathAt s' (above ++ ⟨x, key, value, level⟩ :: rest) i =
            (s.header :: addrs above i) ++ x :: (addrs rest i ++ [s.tail]) := by
          simp [pathAt, hheader, htail, addrs_append, addrs_cons_of_le, hreach]
        _ = before ++ lastAbove s above i :: x :: firstRest s rest i :: after := by
          rw [hbefore, hafter, List.append_assoc, List.singleton_append]
    rw [hgoal]
    rw [hsplit] at hpath hnodup hmemNe
    have hpreNe : lastAbove s above i ≠ x := hmemNe _ (by simp)
    apply hpath.splice hnodup (hspliced.next_pre i hreach)
    · rw [hspliced.next_cur i hreach, nextAt_addNode s hpreNe, hpath.next_eq]
    · intro a ha hapre
      rw [hspliced.other i a (hmemNe a ha) hapre, nextAt_addNode s (hmemNe a ha)]
  · have hskip : level < i := Nat.not_le.mp hreach
    have hgoal : pathAt s' (above ++ ⟨x, key, value, level⟩ :: rest) i = pathAt s items i := by
      simp [pathAt, hheader, htail, addrs_append, hcut.eq, addrs_cons_of_lt, hskip]
    rw [hgoal]
    apply hpath.congr
    intro a ha
    rw [hspliced.above i a hskip, nextAt_addNode s (hmemNe a ha)]

/-- The list after the new node is spliced in on all its levels. -/
theorem Repr.insert (h : Repr s items) (hcut : Cut items above rest key)
    (hlt : ∀ it ∈ rest, it.key < key) {x level : ℕ} {value : ν} (hfresh : s.nodes x = none)
    (hlevel : level ≤ s.level)
    (hspliced : Spliced (addNode s x level key value) s' (lastAbove s above) x level) :
    Repr s' (above ++ ⟨x, key, value, level⟩ :: rest) := by
  have hne : ∀ a, (s.nodes a).isSome → a ≠ x := by
    rintro a ha rfl
    simp [hfresh] at ha
  have hkeep : ∀ a n, s.nodes a = some n →
      ∃ n', s'.nodes a = some n' ∧ n'.entry = n.entry ∧ n'.level = n.level := by
    intro a n hn
    apply hspliced.same.exists_node
    have hax : a ≠ x := hne a (by simp [hn])
    simp [addNode, hax, hn]
  have hnew : ∃ n', s'.nodes x = some n' ∧ n'.entry = some (key, value) ∧ n'.level = level :=
    hspliced.same.exists_node (n := ⟨some (key, value), level, fun _ ↦ none⟩) (by simp [addNode])
  have hheader : s'.header = s.header := hspliced.same.header
  have htail : s'.tail = s.tail := hspliced.same.tail
  have hold : ∀ it ∈ above ++ rest, it ∈ items := fun it hit ↦ hcut.eq ▸ hit
  have hcases : ∀ it ∈ above ++ ⟨x, key, value, level⟩ :: rest,
      it = ⟨x, key, value, level⟩ ∨ it ∈ items := by
    intro it hit
    rcases List.mem_append.mp hit with hmem | hmem
    · exact .inr (hold it (List.mem_append_left _ hmem))
    · rcases List.mem_cons.mp hmem with heq | hmem
      · exact .inl heq
      · exact .inr (hold it (List.mem_append_right _ hmem))
  have hheaderAlloc : (s.nodes s.header).isSome := h.path_alloc (i := 0) List.mem_cons_self
  refine
    { item_node := ?_, item_level := ?_, item_header := ?_, item_tail := ?_, header_node := ?_
      tail_node := ?_, header_tail := ?_, sorted := ?_, level_lt := ?_, paths := ?_, count := ?_ }
  · intro it hit
    rcases hcases it hit with rfl | hmem
    · exact hnew
    · rcases h.item_node it hmem with ⟨n, hn, hentry, hlev⟩
      rcases hkeep _ _ hn with ⟨n', hn', hentry', hlev'⟩
      exact ⟨n', hn', hentry'.trans hentry, hlev'.trans hlev⟩
  · intro it hit
    rw [hspliced.same.level]
    rcases hcases it hit with rfl | hmem
    · exact hlevel
    · exact h.item_level it hmem
  · intro it hit
    rw [hheader]
    rcases hcases it hit with rfl | hmem
    · exact (hne _ hheaderAlloc).symm
    · exact h.item_header it hmem
  · intro it hit
    rw [htail]
    rcases hcases it hit with rfl | hmem
    · exact (hne _ h.tail_node).symm
    · exact h.item_tail it hmem
  · rcases h.header_node with ⟨n, hn, hlev⟩
    rcases hkeep _ _ hn with ⟨n', hn', -, hlev'⟩
    exact ⟨n', by rw [hheader, hn'], hlev'.trans hlev⟩
  · rcases Option.isSome_iff_exists.mp h.tail_node with ⟨n, hn⟩
    rcases hkeep _ _ hn with ⟨n', hn', -⟩
    simp [htail, hn']
  · rw [hheader, htail]
    exact h.header_tail
  · have hsorted := h.sorted
    rw [hcut.eq] at hsorted
    have hparts := List.pairwise_append.mp hsorted
    apply List.pairwise_append.mpr
    refine ⟨hparts.1, List.pairwise_cons.mpr ⟨hlt, hparts.2.1⟩, ?_⟩
    intro a ha b hb
    rcases List.mem_cons.mp hb with rfl | hmem
    · exact hcut.above_lt a ha
    · exact hparts.2.2 a ha b hmem
  · rw [hspliced.same.level]
    exact h.level_lt
  · exact fun i hi ↦ h.path_spliced hcut hfresh hspliced hi
  · have hcount := h.count
    rw [hcut.eq] at hcount
    rw [hspliced.same.allocs]
    simp only [addNode, List.length_append, List.length_cons] at hcount ⊢
    omega

/-! ## Erase -/

/-- The items next to the one that is cut out are other items of the list. -/
theorem Repr.cut_others (h : Repr s items) {cur : Item κ ν} (hcut : Cut items above (cur :: rest) key) :
    ∀ it ∈ above ++ rest, it ∈ items ∧ it.addr ≠ cur.addr := by
  intro it hit
  constructor
  · rw [hcut.eq]
    exact ((List.Sublist.refl above).append (List.sublist_cons_self cur rest)).subset hit
  · intro heq
    have hnodup := h.addr_nodup
    rw [hcut.eq, List.map_append, List.map_cons, List.nodup_middle, ← List.map_append] at hnodup
    exact (List.nodup_cons.mp hnodup).1 (heq ▸ List.mem_map_of_mem hit)

/-- The node that is cut out is on no path of the other items. -/
theorem Repr.cut_ne (h : Repr s items) {cur : Item κ ν} (hcut : Cut items above (cur :: rest) key)
    {i a : ℕ} (ha : a ∈ pathAt s (above ++ rest) i) : a ≠ cur.addr := by
  have hcur : cur ∈ items := hcut.eq ▸ List.mem_append_right _ List.mem_cons_self
  rcases List.mem_cons.mp ha with rfl | hmem
  · exact (h.item_header cur hcur).symm
  · rcases List.mem_append.mp hmem with hmem | hmem
    · rcases mem_addrs.mp hmem with ⟨it, hit, -, rfl⟩
      exact (h.cut_others hcut it hit).2
    · rw [List.mem_singleton.mp hmem]
      exact (h.item_tail cur hcur).symm

/-- One level after `cur` is unlinked. -/
theorem Repr.path_unlinked (h : Repr s items) {cur : Item κ ν} (hcut : Cut items above (cur :: rest) key)
    (hunlinked : Unlinked s s' (lastAbove s above) cur.addr 0 cur.level) {i : ℕ}
    (hi : i < skipListMaxLevel) : Path (nextAt s' i) (pathAt s (above ++ rest) i) := by
  have hpath := h.paths i hi
  by_cases hreach : i ≤ cur.level
  · -- `cur` lies between the predecessor found and some `succ`.
    have hnodup := h.path_nodup i
    rcases path_split s hcut i with ⟨before, after, hbefore, hafter, hsplit⟩
    rw [addrs_cons_of_le hreach, List.cons_append] at hafter
    have hafterEq := (List.cons.inj hafter).2
    have hfirst : firstRest s (cur :: rest) i = cur.addr := (List.cons.inj hafter).1.symm
    rcases exists_cons_firstOr s.tail (addrs rest i) with ⟨after', hafter'⟩
    rw [hsplit, hfirst, ← hafterEq, hafter'] at hpath hnodup
    have hgoal : pathAt s (above ++ rest) i =
        before ++ lastAbove s above i :: firstOr s.tail (addrs rest i) :: after' := by
      calc
        pathAt s (above ++ rest) i = (s.header :: addrs above i) ++ (addrs rest i ++ [s.tail]) := by
          simp [pathAt, addrs_append]
        _ = before ++ lastAbove s above i :: firstOr s.tail (addrs rest i) :: after' := by
          rw [hbefore, hafter', List.append_assoc, List.singleton_append]
    rw [hgoal]
    apply hpath.unlink hnodup
    · rw [hunlinked.next_pre i (Nat.zero_le i) hreach]
      exact h.next_first hcut hi hreach
    · exact fun a _ hapre ↦ hunlinked.other i a hapre
  · have hskip : cur.level < i := Nat.not_le.mp hreach
    have hgoal : pathAt s (above ++ rest) i = pathAt s items i := by
      simp [pathAt, addrs_append, hcut.eq, addrs_cons_of_lt hskip]
    rw [hgoal]
    exact hpath.congr fun a _ ↦ hunlinked.outside i a (.inr hskip)

/-- The list after `cur` is unlinked on all its levels and released. -/
theorem Repr.erase (h : Repr s items) {cur : Item κ ν}
    (hcut : Cut items above (cur :: rest) key)
    (hunlinked : Unlinked s s' (lastAbove s above) cur.addr 0 cur.level) :
    Repr { s' with nodes := Function.update s'.nodes cur.addr none } (above ++ rest) := by
  have hsub : (above ++ rest).Sublist items := by
    rw [hcut.eq]
    exact (List.Sublist.refl above).append (List.sublist_cons_self cur rest)
  have hcurMem : cur ∈ items := by
    rw [hcut.eq]
    exact List.mem_append_right _ List.mem_cons_self
  have hne : ∀ it ∈ above ++ rest, it.addr ≠ cur.addr := fun it hit ↦ (h.cut_others hcut it hit).2
  have hkeep : ∀ a n, a ≠ cur.addr → s.nodes a = some n →
      ∃ n', (Function.update s'.nodes cur.addr none) a = some n' ∧ n'.entry = n.entry ∧
        n'.level = n.level := by
    intro a n hac hn
    rw [Function.update_of_ne hac]
    exact hunlinked.same.exists_node hn
  have hheader : s'.header = s.header := hunlinked.same.header
  have htail : s'.tail = s.tail := hunlinked.same.tail
  have hheaderNe : s.header ≠ cur.addr := (h.item_header cur hcurMem).symm
  have htailNe : s.tail ≠ cur.addr := (h.item_tail cur hcurMem).symm
  set s'' : SkipListT κ ν := { s' with nodes := Function.update s'.nodes cur.addr none } with hs''
  refine
    { item_node := ?_, item_level := ?_, item_header := ?_, item_tail := ?_, header_node := ?_
      tail_node := ?_, header_tail := ?_, sorted := ?_, level_lt := ?_, paths := ?_, count := ?_ }
  · intro it hit
    rcases h.item_node it (hsub.subset hit) with ⟨n, hn, hentry, hlev⟩
    rcases hkeep _ _ (hne it hit) hn with ⟨n', hn', hentry', hlev'⟩
    exact ⟨n', hn', hentry'.trans hentry, hlev'.trans hlev⟩
  · intro it hit
    have hlevel : s''.level = s.level := hunlinked.same.level
    rw [hlevel]
    exact h.item_level it (hsub.subset hit)
  · intro it hit
    have heq : s''.header = s.header := hheader
    rw [heq]
    exact h.item_header it (hsub.subset hit)
  · intro it hit
    have heq : s''.tail = s.tail := htail
    rw [heq]
    exact h.item_tail it (hsub.subset hit)
  · rcases h.header_node with ⟨n, hn, hlev⟩
    rcases hkeep _ _ hheaderNe hn with ⟨n', hn', -, hlev'⟩
    exact ⟨n', by simpa [hs'', hheader] using hn', hlev'.trans hlev⟩
  · rcases Option.isSome_iff_exists.mp h.tail_node with ⟨n, hn⟩
    rcases hkeep _ _ htailNe hn with ⟨n', hn', -⟩
    have hsome : s''.nodes s''.tail = some n' := by simpa [hs'', htail] using hn'
    simp [hsome]
  · have heq : s''.header = s.header ∧ s''.tail = s.tail := ⟨hheader, htail⟩
    rw [heq.1, heq.2]
    exact h.header_tail
  · exact h.sorted.sublist hsub
  · have hlevel : s''.level = s.level := hunlinked.same.level
    rw [hlevel]
    exact h.level_lt
  · intro i hi
    have hgoal : pathAt s'' (above ++ rest) i = pathAt s (above ++ rest) i := by
      simp [pathAt, hs'', hheader, htail]
    rw [hgoal]
    apply (h.path_unlinked hcut hunlinked hi).congr
    intro a ha
    simp [hs'', nextAt, h.cut_ne hcut ha]
  · have hallocs : s''.allocs = s.allocs := hunlinked.same.allocs
    rw [hallocs]
    exact hsub.length_le.trans h.count

theorem Repr.lowerTop_spec (h : Repr s items) {top : ℕ} (htop : top < skipListMaxLevel)
    (hitems : ∀ it ∈ items, it.level ≤ top) :
    ∃ top', lowerTop s top = some top' ∧ top' ≤ top ∧ ∀ it ∈ items, it.level ≤ top' := by
  induction top with
  | zero => exact ⟨0, rfl, le_rfl, hitems⟩
  | succ top ih =>
      rcases exists_cons_firstOr s.tail (addrs items (top + 1)) with ⟨after, hafter⟩
      have hpath := h.paths (top + 1) htop
      rw [pathAt, hafter] at hpath
      have hnext := hpath.next_head
      by_cases hempty : addrs items (top + 1) = []
      · have hlower : ∀ it ∈ items, it.level ≤ top := by
          intro it hit
          by_contra hgt
          have hmem : it.addr ∈ addrs items (top + 1) :=
            mem_addrs.mpr ⟨it, hit, by omega, rfl⟩
          simp [hempty] at hmem
        rcases ih (by omega) hlower with ⟨top', hlow, hle, hbound⟩
        refine ⟨top', ?_, by omega, hbound⟩
        rw [hempty, firstOr_nil] at hnext
        simp [lowerTop, hnext, hlow]
      · have hne : firstOr s.tail (addrs items (top + 1)) ≠ s.tail := by
          rcases List.exists_cons_of_ne_nil hempty with ⟨a, as, heq⟩
          have hmem : a ∈ addrs items (top + 1) := heq ▸ List.mem_cons_self
          rcases mem_addrs.mp hmem with ⟨it, hit, -, rfl⟩
          rw [heq, firstOr_cons]
          exact h.item_tail it hit
        exact ⟨top + 1, by simp [lowerTop, hnext, hne], le_rfl, hitems⟩

end Ordered

end CPractice.SkipList
