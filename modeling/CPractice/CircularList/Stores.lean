import CPractice.CircularList.Sequence

/-!
# What the stores of the list operations do

The insertions and the moves attach a node in the gap before or after a position; the moves and
`list_erase` detach one.  Both leave the links of the erased elements alone.
-/

namespace CPractice.CircularList

open Lib

variable {nodes nodes' : Nodes} {b : Board} {a cur x p q head : ℕ} {es left right : List ℕ}

/-! ## The stores -/

/-- `x` stands between `p` and `q` in `nodes'`; the other links are those of `nodes`. -/
structure LinkedBetween (nodes nodes' : Nodes) (p x q : ℕ) : Prop where
  next : ∀ a, nextOf nodes' a = if a = x then some q else if a = p then some x else nextOf nodes a
  prev : ∀ a, prevOf nodes' a = if a = x then some p else if a = q then some x else prevOf nodes a
  data : ∀ a, dataOf nodes' a = dataOf nodes a

/-- `x` is taken out from between `p` and `q`; the other links are those of `nodes`. -/
structure CutBetween (nodes nodes' : Nodes) (p x q onward back : ℕ) : Prop where
  next : ∀ a, nextOf nodes' a =
    if a = x then some onward else if a = p then some q else nextOf nodes a
  prev : ∀ a, prevOf nodes' a =
    if a = x then some back else if a = q then some p else prevOf nodes a
  data : ∀ a, dataOf nodes' a = dataOf nodes a

theorem isSome_of_prevOf (h : prevOf nodes a = some p) : ∃ n, nodes a = some n ∧ n.prev = p :=
  Option.map_eq_some_iff.mp h

theorem isSome_of_nextOf (h : nextOf nodes a = some p) : ∃ n, nodes a = some n ∧ n.next = p :=
  Option.map_eq_some_iff.mp h

theorem isSome_of_eq {n : NodeT} (h : nodes a = some n) : (nodes a).isSome := by
  rw [h]
  rfl

/-- Two stores at different nodes, in either order. -/
theorem update_apart {f : ℕ → Option ℕ} {u v : Option ℕ} (h : x ≠ p) (a : ℕ) :
    Function.update (Function.update f x u) p v a =
      if a = x then u else if a = p then v else f a := by
  rw [Function.update_comm h, Function.update_apply, Function.update_apply]

theorem linkFront_between (hx : (nodes x).isSome) (hp : (nodes p).isSome)
    (hcur : prevOf nodes cur = some p) (hxp : x ≠ p) (hxcur : x ≠ cur) :
    ∃ nodes', linkFront nodes cur x = some nodes' ∧ LinkedBetween nodes nodes' p x cur := by
  rcases isSome_of_prevOf hcur with ⟨n, hn, hprev⟩
  have hlive := isSome_of_eq hn
  refine ⟨storePrev (storeNext (storePrev (storeNext nodes x cur) x p) p x) cur x, ?_, ?_⟩
  · simp [linkFront, hn, hprev, setNext, setPrev, hx, hp]
  · constructor
    · intro a
      rw [nextOf_storePrev, nextOf_storeNext (by simpa using hp), nextOf_storePrev,
        nextOf_storeNext hx, update_apart hxp]
    · intro a
      rw [prevOf_storePrev (by simpa using hlive), prevOf_storeNext,
        prevOf_storePrev (by simpa using hx), prevOf_storeNext, update_apart hxcur]
    · intro a
      simp

theorem linkBack_between (hx : (nodes x).isSome) (hq : (nodes q).isSome)
    (hcur : nextOf nodes cur = some q) (hxq : x ≠ q) (hxcur : x ≠ cur) :
    ∃ nodes', linkBack nodes cur x = some nodes' ∧ LinkedBetween nodes nodes' cur x q := by
  rcases isSome_of_nextOf hcur with ⟨n, hn, hnext⟩
  have hlive := isSome_of_eq hn
  refine ⟨storeNext (storePrev (storePrev (storeNext nodes x q) x cur) q x) cur x, ?_, ?_⟩
  · simp [linkBack, hn, hnext, setNext, setPrev, hx, hq]
  · constructor
    · intro a
      rw [nextOf_storeNext (by simpa using hlive), nextOf_storePrev, nextOf_storePrev,
        nextOf_storeNext hx, update_apart hxcur]
    · intro a
      rw [prevOf_storeNext, prevOf_storePrev (by simpa using hq),
        prevOf_storePrev (by simpa using hx), prevOf_storeNext, update_apart hxq]
    · intro a
      simp

/-- A node other than the one stored into is read as before. -/
theorem storeNext_of_ne (target : ℕ) (h : a ≠ x) : storeNext nodes x target a = nodes a := if_neg h

theorem storePrev_of_ne (target : ℕ) (h : a ≠ x) : storePrev nodes x target a = nodes a := if_neg h

theorem takeOut_between (hp : (nodes p).isSome) (hq : (nodes q).isSome)
    (hprev : prevOf nodes x = some p) (hnext : nextOf nodes x = some q) (hxp : x ≠ p) :
    ∃ nodes', takeOut nodes x = some nodes' ∧ CutBetween nodes nodes' p x q 0 0 := by
  rcases isSome_of_prevOf hprev with ⟨n, hn, hnp⟩
  have hnq : n.next = q := by
    rw [nextOf, hn] at hnext
    exact Option.some_inj.mp hnext
  have hx := isSome_of_eq hn
  refine ⟨storeNext (storePrev (storePrev (storeNext nodes p q) q p) x 0) x 0, ?_, ?_⟩
  · simp [takeOut, hn, hnp, hnq, setNext, setPrev, hp, hq, storeNext_of_ne q hxp]
  · constructor
    · intro a
      rw [nextOf_storeNext (by simpa using hx), nextOf_storePrev, nextOf_storePrev,
        nextOf_storeNext hp, Function.update_apply, Function.update_apply]
    · intro a
      rw [prevOf_storeNext, prevOf_storePrev (by simpa using hx),
        prevOf_storePrev (by simpa using hq), prevOf_storeNext, Function.update_apply,
        Function.update_apply]
    · intro a
      simp

theorem unlinkMarked_between (hp : (nodes p).isSome) (hq : (nodes q).isSome) (hp0 : p ≠ 0)
    (hq0 : q ≠ 0) (hprev : prevOf nodes x = some p) (hnext : nextOf nodes x = some q)
    (hmark : p ≠ prevMagic) :
    ∃ nodes', unlinkMarked nodes x = some (p, nodes') ∧
      CutBetween nodes nodes' p x q nextMagic prevMagic := by
  rcases isSome_of_prevOf hprev with ⟨n, hn, hnp⟩
  have hnq : n.next = q := by
    rw [nextOf, hn] at hnext
    exact Option.some_inj.mp hnext
  have hx := isSome_of_eq hn
  refine ⟨storePrev (storeNext (storePrev (storeNext nodes p q) q p) x nextMagic) x prevMagic,
    ?_, ?_⟩
  · simp [unlinkMarked, listCheckMagic, hn, hnp, hnq, hmark, hp0, hq0, setNext, setPrev, hp, hq]
  · constructor
    · intro a
      rw [nextOf_storePrev, nextOf_storeNext (by simpa using hx), nextOf_storePrev,
        nextOf_storeNext hp, Function.update_apply, Function.update_apply]
    · intro a
      rw [prevOf_storePrev (by simpa using hx), prevOf_storeNext,
        prevOf_storePrev (by simpa using hq), prevOf_storeNext, Function.update_apply,
        Function.update_apply]
    · intro a
      simp

theorem putFront_between (hx : (nodes x).isSome) (hp : (nodes p).isSome)
    (hcur : prevOf nodes cur = some p) (hxp : x ≠ p) (hxcur : x ≠ cur) :
    ∃ nodes', putFront nodes cur x = some nodes' ∧ LinkedBetween nodes nodes' p x cur := by
  rcases linkFront_between hx hp hcur hxp hxcur with ⟨nodes', hlink, hbetween⟩
  rcases isSome_of_prevOf hcur with ⟨n, hn, hprev⟩
  refine ⟨nodes', ?_, hbetween⟩
  have hread : storeNext nodes x cur cur = some n := by rw [storeNext_of_ne _ hxcur.symm, hn]
  have hread' : storePrev (storeNext nodes x cur) x p cur = some n := by
    rw [storePrev_of_ne _ hxcur.symm, hread]
  rw [← hlink]
  simp [putFront, linkFront, hn, hprev, setNext, setPrev, hx, hp, hread, hread']

theorem putBack_between (hx : (nodes x).isSome) (hq : (nodes q).isSome)
    (hcur : nextOf nodes cur = some q) (hxq : x ≠ q) (hxcur : x ≠ cur) :
    ∃ nodes', putBack nodes cur x = some nodes' ∧ LinkedBetween nodes nodes' cur x q := by
  rcases linkBack_between hx hq hcur hxq hxcur with ⟨nodes', hlink, hbetween⟩
  rcases isSome_of_nextOf hcur with ⟨n, hn, hnext⟩
  refine ⟨nodes', ?_, hbetween⟩
  have hread : storePrev (storeNext nodes x q) x cur cur = some n := by
    rw [storePrev_of_ne _ hxcur.symm, storeNext_of_ne _ hxcur.symm, hn]
  rw [← hlink]
  simp [putBack, linkBack, hn, hnext, setNext, setPrev, hx, hq, hread]

/-! ## Attaching and detaching -/

/-- The links of the nodes `list` are the same in both. -/
def SameLinks (nodes nodes' : Nodes) (list : List ℕ) : Prop :=
  ∀ a ∈ list, nextOf nodes' a = nextOf nodes a ∧ prevOf nodes' a = prevOf nodes a

/-- `link nodes cur x` puts the erased element `x` where `place` says, next to `cur`. -/
def Attaches (link : Nodes → ℕ → ℕ → Option Nodes) (place : ℕ → ℕ → ℕ → List ℕ → List ℕ) : Prop :=
  ∀ nodes b cur x, Rep nodes b → b.Listed cur → x ∈ b.erased →
    ∃ nodes', link nodes cur x = some nodes' ∧ Rep nodes' (b.attach (place cur x) x) ∧
      SameLinks nodes nodes' (b.erased.erase x)

theorem LinkedBetween.attach {place : ℕ → List ℕ → List ℕ} (h : Rep nodes b)
    (hseq : b.seq head = some (left ++ right)) (hx : x ∈ b.erased)
    (hbetween : LinkedBetween nodes nodes' (lastFrom head left) x (firstOr head right))
    (hplace : place head (left ++ right) = left ++ x :: right)
    (hother : ∀ head' list, head' ≠ head → b.seq head' = some list → place head' list = list) :
    Rep nodes' (b.attach place x) ∧ SameLinks nodes nodes' (b.erased.erase x) := by
  constructor
  · unfold Board.attach
    rw [Board.map_seq_eq hseq hplace hother]
    exact h.attach_gap hseq hx hbetween.next hbetween.prev hbetween.data
  · intro a ha
    have hne : a ≠ x := fun heq ↦ h.erased_nodup.not_mem_erase (heq ▸ ha)
    have hnot : a ∉ head :: (left ++ right) := by
      intro hmem
      exact h.erased_apart a (List.mem_of_mem_erase ha) ⟨_, _, hseq, hmem⟩
    have hlast : a ≠ lastFrom head left := by
      intro heq
      exact hnot (heq ▸ Cycle.lastFrom_mem head left right)
    have hfirst : a ≠ firstOr head right := by
      intro heq
      exact hnot (heq ▸ Cycle.firstOr_mem head left right)
    rw [hbetween.next, hbetween.prev, if_neg hne, if_neg hne, if_neg hlast, if_neg hfirst]
    exact ⟨rfl, rfl⟩

theorem attaches_front {link : Nodes → ℕ → ℕ → Option Nodes}
    (hlink : ∀ nodes cur x p, (nodes x).isSome → (nodes p).isSome → prevOf nodes cur = some p →
      x ≠ p → x ≠ cur → ∃ nodes', link nodes cur x = some nodes' ∧
        LinkedBetween nodes nodes' p x cur) :
    Attaches link Board.seqFront := by
  rintro nodes b cur x h ⟨head, es, hseq, hcur⟩ hx
  rcases Board.seqFront_gap hcur (h.nodup _ _ hseq) x with ⟨left, right, rfl, hfirst, hplace⟩
  have hgap := (h.cycle _ _ hseq).gap
  rw [hfirst] at hgap
  have hlast := Cycle.lastFrom_mem head left right
  have hxne : ∀ a ∈ head :: (left ++ right), x ≠ a := by
    intro a ha heq
    exact h.erased_apart x hx ⟨_, _, hseq, heq ▸ ha⟩
  rcases hlink nodes cur x _ ((h.live x).mpr (.inr hx)) (h.live_of_mem hseq hlast) hgap.2
    (hxne _ hlast) (hxne _ hcur) with ⟨nodes', hstores, hbetween⟩
  have hbetween' : LinkedBetween nodes nodes' (lastFrom head left) x (firstOr head right) := by
    rw [hfirst]
    exact hbetween
  refine ⟨nodes', hstores, hbetween'.attach h hseq hx hplace ?_⟩
  intro head' list hne hlist
  apply Board.seqFront_of_notMem
  intro hmem
  exact hne (h.apart _ _ _ _ cur hlist hseq hmem hcur)

theorem attaches_back {link : Nodes → ℕ → ℕ → Option Nodes}
    (hlink : ∀ nodes cur x q, (nodes x).isSome → (nodes q).isSome → nextOf nodes cur = some q →
      x ≠ q → x ≠ cur → ∃ nodes', link nodes cur x = some nodes' ∧
        LinkedBetween nodes nodes' cur x q) :
    Attaches link Board.seqBack := by
  rintro nodes b cur x h ⟨head, es, hseq, hcur⟩ hx
  rcases Board.seqBack_gap hcur (h.nodup _ _ hseq) x with ⟨left, right, rfl, hlast, hplace⟩
  have hgap := (h.cycle _ _ hseq).gap
  rw [hlast] at hgap
  have hfirst := Cycle.firstOr_mem head left right
  have hxne : ∀ a ∈ head :: (left ++ right), x ≠ a := by
    intro a ha heq
    exact h.erased_apart x hx ⟨_, _, hseq, heq ▸ ha⟩
  rcases hlink nodes cur x _ ((h.live x).mpr (.inr hx)) (h.live_of_mem hseq hfirst) hgap.1
    (hxne _ hfirst) (hxne _ hcur) with ⟨nodes', hstores, hbetween⟩
  have hbetween' : LinkedBetween nodes nodes' (lastFrom head left) x (firstOr head right) := by
    rw [hlast]
    exact hbetween
  refine ⟨nodes', hstores, hbetween'.attach h hseq hx hplace ?_⟩
  intro head' list hne hlist
  apply Board.seqBack_of_notMem
  intro hmem
  exact hne (h.apart _ _ _ _ cur hlist hseq hmem hcur)

theorem linkFront_attaches : Attaches linkFront Board.seqFront :=
  attaches_front fun _ _ _ _ ↦ linkFront_between

theorem putFront_attaches : Attaches putFront Board.seqFront :=
  attaches_front fun _ _ _ _ ↦ putFront_between

theorem linkBack_attaches : Attaches linkBack Board.seqBack :=
  attaches_back fun _ _ _ _ ↦ linkBack_between

theorem putBack_attaches : Attaches putBack Board.seqBack :=
  attaches_back fun _ _ _ _ ↦ putBack_between

theorem CutBetween.detach {onward back : ℕ} (h : Rep nodes b)
    (hseq : b.seq head = some (left ++ x :: right))
    (hbetween : CutBetween nodes nodes' (lastFrom head left) x (firstOr head right) onward back) :
    Rep nodes' (b.detach x) ∧ SameLinks nodes nodes' b.erased := by
  have hnodup := h.nodup _ _ hseq
  have hmem : x ∈ head :: (left ++ x :: right) := by simp
  have hleft : x ∉ left := by
    intro hin
    exact (List.nodup_append.mp (List.nodup_cons.mp hnodup).2).2.2 x hin x List.mem_cons_self rfl
  have herase : (left ++ x :: right).erase x = left ++ right := by
    rw [List.erase_append_right _ hleft, List.erase_cons_head]
  constructor
  · unfold Board.detach
    have hseqs : (fun head ↦ (b.seq head).map fun es ↦ es.erase x) =
        Function.update b.seq head (some (left ++ right)) := by
      apply Board.map_seq_eq hseq herase
      intro head' list hne hlist
      apply List.erase_of_not_mem
      intro hin
      exact hne (h.apart _ _ _ _ x hlist hseq (List.mem_cons_of_mem _ hin) hmem)
    rw [hseqs]
    exact h.detach_gap hseq hbetween.next hbetween.prev hbetween.data
  · intro a ha
    have hnot : a ∉ head :: (left ++ x :: right) := by
      intro hin
      exact h.erased_apart a ha ⟨_, _, hseq, hin⟩
    have hne : a ≠ x := fun heq ↦ hnot (heq ▸ hmem)
    have hlast : a ≠ lastFrom head left := by
      intro heq
      exact hnot (heq ▸ Cycle.lastFrom_mem head left (x :: right))
    have hfirst : a ≠ firstOr head right := by
      intro heq
      have hin := Cycle.firstOr_mem head (left ++ [x]) right
      rw [List.append_assoc] at hin
      exact hnot (heq ▸ hin)
    rw [hbetween.next, hbetween.prev, if_neg hne, if_neg hne, if_neg hlast, if_neg hfirst]
    exact ⟨rfl, rfl⟩

/-- The neighbours of an element. -/
theorem Rep.neighbours (h : Rep nodes b) (hseq : b.seq head = some (left ++ x :: right)) :
    prevOf nodes x = some (lastFrom head left) ∧ nextOf nodes x = some (firstOr head right) ∧
      (nodes (lastFrom head left)).isSome ∧ (nodes (firstOr head right)).isSome ∧
      x ≠ lastFrom head left := by
  have hpointers := (h.cycle _ _ hseq).pointers
  have hfirst := Cycle.firstOr_mem head (left ++ [x]) right
  rw [List.append_assoc] at hfirst
  refine ⟨hpointers.2, hpointers.1, h.live_of_mem hseq (Cycle.lastFrom_mem head left (x :: right)),
    h.live_of_mem hseq hfirst, ?_⟩
  intro heq
  have hnodup := h.nodup _ _ hseq
  have hperm : (head :: (left ++ x :: right)).Perm (x :: head :: (left ++ right)) :=
    (List.perm_middle.cons head).trans (List.Perm.swap x head _)
  have hnot := (List.nodup_cons.mp (hperm.nodup_iff.mp hnodup)).1
  rw [heq] at hnot
  exact hnot (Cycle.lastFrom_mem head left right)

/-- A move takes its source out. -/
theorem Rep.takeOut (h : Rep nodes b) (hseq : b.seq head = some (left ++ x :: right)) :
    ∃ nodes', takeOut nodes x = some nodes' ∧ Rep nodes' (b.detach x) ∧
      SameLinks nodes nodes' b.erased := by
  rcases h.neighbours hseq with ⟨hprev, hnext, hlast, hfirst, hne⟩
  rcases takeOut_between hlast hfirst hprev hnext hne with ⟨nodes', hstores, hcut⟩
  exact ⟨nodes', hstores, hcut.detach h hseq⟩

theorem not_dvd_prevMagic : ¬ 8 ∣ prevMagic := by decide

/-- `list_erase` takes an element out and marks it. -/
theorem Rep.unlinkMarked (h : Rep nodes b) (hseq : b.seq head = some (left ++ x :: right)) :
    ∃ nodes', unlinkMarked nodes x = some (lastFrom head left, nodes') ∧ Rep nodes' (b.detach x) ∧
      SameLinks nodes nodes' b.erased ∧ prevOf nodes' x = some prevMagic ∧
      nextOf nodes' x = some nextMagic := by
  rcases h.neighbours hseq with ⟨hprev, hnext, hlast, hfirst, -⟩
  have haligned := h.aligned _ hlast
  have hmark : lastFrom head left ≠ prevMagic := by
    intro heq
    exact not_dvd_prevMagic (heq ▸ haligned.2)
  rcases unlinkMarked_between hlast hfirst haligned.1 (h.aligned _ hfirst).1 hprev hnext hmark with
    ⟨nodes', hstores, hcut⟩
  refine ⟨nodes', hstores, (hcut.detach h hseq).1, (hcut.detach h hseq).2, ?_, ?_⟩
  · rw [hcut.prev, if_pos rfl]
  · rw [hcut.next, if_pos rfl]

end CPractice.CircularList
