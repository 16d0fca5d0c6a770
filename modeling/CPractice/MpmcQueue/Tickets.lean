import CPractice.MpmcQueue.Model
import Mathlib.Data.Nat.ModEq
import Mathlib.Tactic.Ring

/-!
# Tickets and nodes

A node serves one ticket of each lap.  Its sequence number says how far the latest ticket drawn for it
has got: the ticket itself, one more once it is published, one lap more once it is released.  A ticket
may be drawn for a node once the ticket of the lap before is released.
-/

namespace CPractice.MpmcQueue

variable {α : Type} {q : Queue α} {h : History α} {k : ℕ}

/-- `dequeue` has copied the element of the ticket out and given its node back. -/
def History.Released (h : History α) (k : ℕ) : Prop := ∃ data, (k, data) ∈ h.released

/-- The ticket one lap before is released. -/
def History.Free (h : History α) (size k : ℕ) : Prop := ∀ prior, prior + size = k → h.Released prior

/-- The queue as its history determines it. -/
structure Shape (q : Queue α) (h : History α) : Prop where
  power : ∃ e, q.size = 2 ^ e
  two_le : 2 ≤ q.size
  mask : q.mask = q.size - 1
  bound : h.enqueued.length + q.size ≤ 9223372036854775808
  headSeq : q.headSeq = h.enqueued.length
  tailSeq : q.tailSeq = h.taken
  taken_published : ∀ k < h.taken, k ∈ h.published
  published_lt : ∀ k ∈ h.published, k < h.enqueued.length
  published_nodup : h.published.Nodup
  released_taken : ∀ k data, (k, data) ∈ h.released → k < h.taken ∧ h.enqueued[k]? = some data
  released_nodup : (h.released.map Prod.fst).Nodup
  window : ∀ k < h.enqueued.length, ¬ h.Released k → h.enqueued.length ≤ k + q.size
  seq_fresh : ∀ k < q.size, h.enqueued.length ≤ k → (q.buffer k).seq = k
  seq_claimed : ∀ k < h.enqueued.length, k ∉ h.published → (q.buffer (k % q.size)).seq = k
  seq_published : ∀ k ∈ h.published, ¬ h.Released k → (q.buffer (k % q.size)).seq = k + 1
  seq_released : ∀ k, h.Released k → h.enqueued.length ≤ k + q.size →
    (q.buffer (k % q.size)).seq = k + q.size
  data : ∀ k ∈ h.published, ¬ h.Released k → (q.buffer (k % q.size)).data = h.enqueued[k]?

/-! ## Slots -/

/-- Two tickets less than a lap apart have different nodes. -/
theorem slot_inj {size a b : ℕ} (h : a % size = b % size) (hab : a < b + size) (hba : b < a + size) :
    a = b := by
  rcases Nat.le_total a b with hle | hle
  · have hzero : b - a = 0 :=
      Nat.eq_zero_of_dvd_of_lt ((Nat.modEq_iff_dvd' hle).mp h) (by omega)
    omega
  · have hzero : a - b = 0 :=
      Nat.eq_zero_of_dvd_of_lt ((Nat.modEq_iff_dvd' hle).mp h.symm) (by omega)
    omega

/-- A node has had no ticket yet, or there is a latest one. -/
theorem exists_latest {size i : ℕ} (len : ℕ) (hi : i < size) :
    len ≤ i ∨ ∃ k < len, len ≤ k + size ∧ k % size = i := by
  rcases Nat.lt_or_ge i len with hlt | hge
  · right
    refine ⟨i + size * ((len - 1 - i) / size), ?_, ?_, ?_⟩
    · have hle := Nat.mul_div_le (len - 1 - i) size
      omega
    · have hlap := Nat.lt_mul_div_succ (len - 1 - i) (Nat.zero_lt_of_lt hi)
      rw [Nat.mul_succ] at hlap
      omega
    · rw [Nat.add_mul_mod_self_left, Nat.mod_eq_of_lt hi]
  · exact .inl hge

theorem setNode_ne {i j : ℕ} {node : NodeT α} (hne : j ≠ i) :
    (setNode q i node).buffer j = q.buffer j :=
  Function.update_of_ne hne _ _

theorem setNode_self {i : ℕ} {node : NodeT α} : (setNode q i node).buffer i = node :=
  Function.update_self _ _ _

namespace Shape

theorem size_pos (hs : Shape q h) : 0 < q.size := Nat.lt_of_lt_of_le (by decide) hs.two_le

theorem not_released (hs : Shape q h) (hpub : k ∉ h.published) : ¬ h.Released k := by
  rintro ⟨data, hmem⟩
  exact hpub (hs.taken_published k (hs.released_taken k data hmem).1)

theorem released_lt (hs : Shape q h) (hrel : h.Released k) : k < h.taken := by
  obtain ⟨data, hmem⟩ := hrel
  exact (hs.released_taken k data hmem).1

theorem taken_le (hs : Shape q h) : h.taken ≤ h.enqueued.length := by
  by_contra hlt
  exact absurd (hs.published_lt _ (hs.taken_published h.enqueued.length (by omega))) (lt_irrefl _)

theorem window_claimed (hs : Shape q h) (hk : k < h.enqueued.length) (hpub : k ∉ h.published) :
    h.enqueued.length ≤ k + q.size :=
  hs.window k hk (hs.not_released hpub)

/-- The index of the node of a ticket. -/
theorem nodeAt_eq (hs : Shape q h) (k : ℕ) :
    nodeAt q k = some (k % q.size, q.buffer (k % q.size)) := by
  obtain ⟨e, he⟩ := hs.power
  have hindex : k &&& q.mask = k % q.size := by
    rw [hs.mask, he, Nat.and_two_pow_sub_one_eq_mod]
  rw [nodeAt, hindex, if_pos (Nat.mod_lt k hs.size_pos)]

/-! ## What a load of a sequence number says -/

/-- The sequence number of a node is at least its latest ticket and less than a lap ahead of the next
one. -/
theorem seq_latest (hs : Shape q h) (hk : k < h.enqueued.length)
    (hwindow : h.enqueued.length ≤ k + q.size) :
    k ≤ (q.buffer (k % q.size)).seq ∧ (q.buffer (k % q.size)).seq ≤ k + q.size := by
  by_cases hpub : k ∈ h.published
  · by_cases hrel : h.Released k
    · rw [hs.seq_released k hrel hwindow]
      omega
    · rw [hs.seq_published k hpub hrel]
      have htwo := hs.two_le
      omega
  · rw [hs.seq_claimed k hk hpub]
    omega

theorem seq_lt (hs : Shape q h) (k : ℕ) :
    (q.buffer (k % q.size)).seq < h.enqueued.length + q.size := by
  rcases exists_latest h.enqueued.length (Nat.mod_lt k hs.size_pos) with
    hfresh | ⟨latest, hlt, hwindow, heq⟩
  · rw [hs.seq_fresh _ (Nat.mod_lt k hs.size_pos) hfresh]
    have hmod := Nat.mod_lt k hs.size_pos
    omega
  · rw [← heq]
    have hseq := (hs.seq_latest hlt hwindow).2
    omega

/-- The sequence number of a node never falls behind a ticket drawn for it. -/
theorem le_seq (hs : Shape q h) (hk : k < h.enqueued.length) :
    k ≤ (q.buffer (k % q.size)).seq ∧
      (k ∈ h.published → k + 1 ≤ (q.buffer (k % q.size)).seq) := by
  rcases exists_latest h.enqueued.length (Nat.mod_lt k hs.size_pos) with
    hfresh | ⟨latest, hlt, hwindow, heq⟩
  · have hle := Nat.mod_le k q.size
    omega
  · rw [← heq]
    have hseq := (hs.seq_latest hlt hwindow).1
    have hmod : k % q.size = latest % q.size := heq.symm
    rcases Nat.lt_trichotomy k latest with hlt' | rfl | hgt
    · omega
    · refine ⟨hseq, fun hpub ↦ ?_⟩
      by_cases hrel : h.Released k
      · rw [hs.seq_released k hrel hwindow]
        have htwo := hs.two_le
        omega
      · rw [hs.seq_published k hpub hrel]
    · have hsame := slot_inj hmod (by omega) (by omega)
      omega

/-- The node of the next ticket has it as its sequence number just if the lap before is released; before
that the number is smaller. -/
theorem seq_next (hs : Shape q h) :
    (h.Free q.size h.enqueued.length →
      (q.buffer (h.enqueued.length % q.size)).seq = h.enqueued.length) ∧
    (¬ h.Free q.size h.enqueued.length →
      (q.buffer (h.enqueued.length % q.size)).seq < h.enqueued.length) := by
  constructor
  · intro hfree
    rcases Nat.lt_or_ge h.enqueued.length q.size with hlt | hge
    · rw [Nat.mod_eq_of_lt hlt]
      exact hs.seq_fresh _ hlt le_rfl
    · have hprior : h.enqueued.length - q.size + q.size = h.enqueued.length := Nat.sub_add_cancel hge
      have hseq := hs.seq_released _ (hfree _ hprior) hprior.ge
      rwa [hprior, ← Nat.add_mod_right, hprior] at hseq
  · intro hfree
    simp only [History.Free, not_forall] at hfree
    obtain ⟨prior, hprior, hrel⟩ := hfree
    have htwo := hs.two_le
    have hmod : h.enqueued.length % q.size = prior % q.size := by
      rw [← hprior, Nat.add_mod_right]
    rw [hmod]
    by_cases hpub : prior ∈ h.published
    · rw [hs.seq_published prior hpub hrel]
      omega
    · rw [hs.seq_claimed prior (by omega) hpub]
      omega

theorem free_of_seq (hs : Shape q h)
    (hseq : (q.buffer (h.enqueued.length % q.size)).seq = h.enqueued.length) :
    h.Free q.size h.enqueued.length := by
  by_contra hfree
  exact absurd (hs.seq_next.2 hfree) (by omega)

/-- A sequence number one ahead of the next ticket to take says that it is published. -/
theorem published_of_seq (hs : Shape q h)
    (hseq : (q.buffer (h.taken % q.size)).seq = h.taken + 1) : h.taken ∈ h.published := by
  by_contra hpub
  have htwo := hs.two_le
  rcases Nat.lt_or_ge h.taken h.enqueued.length with hlt | hge
  · rw [hs.seq_claimed _ hlt hpub] at hseq
    omega
  · have heq : h.taken = h.enqueued.length := le_antisymm hs.taken_le hge
    rw [heq] at hseq
    by_cases hfree : h.Free q.size h.enqueued.length
    · have hnext := hs.seq_next.1 hfree
      omega
    · have hnext := hs.seq_next.2 hfree
      omega

/-! ## Steps -/

/-- A change of `_queue_size`. -/
theorem count (hs : Shape q h) (delta : ℤ) : Shape (MpmcQueue.count q delta) h where
  __ := hs

/-- A ticket is drawn. -/
theorem claim (hs : Shape q h) (hfree : h.Free q.size h.enqueued.length)
    (hbound : h.enqueued.length + q.size < 9223372036854775808) (data : α) :
    Shape { q with headSeq := u8 (h.enqueued.length + 1) }
      { h with enqueued := h.enqueued ++ [data] } where
  power := hs.power
  two_le := hs.two_le
  mask := hs.mask
  bound := by
    rw [List.length_append, List.length_singleton]
    dsimp only
    omega
  headSeq := by
    have hpos := hs.size_pos
    rw [List.length_append, List.length_singleton]
    exact u8_of_lt (by omega)
  tailSeq := hs.tailSeq
  taken_published := hs.taken_published
  published_lt k hk := by
    have hlt := hs.published_lt k hk
    rw [List.length_append]
    omega
  published_nodup := hs.published_nodup
  released_taken k data' hk := by
    obtain ⟨hlt, hget⟩ := hs.released_taken k data' hk
    refine ⟨hlt, ?_⟩
    rw [List.getElem?_append_left (Nat.lt_of_lt_of_le hlt hs.taken_le), hget]
  released_nodup := hs.released_nodup
  window k hk hrel := by
    rw [List.length_append, List.length_singleton] at hk ⊢
    change h.enqueued.length + 1 ≤ k + q.size
    have hpos := hs.size_pos
    rcases Nat.lt_or_ge k h.enqueued.length with hlt | hge
    · have hle := hs.window k hlt hrel
      rcases Nat.lt_or_ge h.enqueued.length (k + q.size) with hroom | hfull
      · omega
      · exact absurd (hfree k (by omega)) hrel
    · omega
  seq_fresh k hk hlen := by
    rw [List.length_append] at hlen
    exact hs.seq_fresh k hk (by omega)
  seq_claimed k hk hpub := by
    rw [List.length_append, List.length_singleton] at hk
    rcases Nat.lt_or_ge k h.enqueued.length with hlt | hge
    · exact hs.seq_claimed k hlt hpub
    · obtain rfl : k = h.enqueued.length := by omega
      exact hs.seq_next.1 hfree
  seq_published := hs.seq_published
  seq_released k hrel hlen := by
    rw [List.length_append] at hlen
    exact hs.seq_released k hrel (by dsimp only at hlen; omega)
  data k hk hrel := by
    rw [List.getElem?_append_left (hs.published_lt k hk)]
    exact hs.data k hk hrel

/-- The data of a drawn ticket is stored. -/
theorem store (hs : Shape q h) (hk : k < h.enqueued.length) (hpub : k ∉ h.published) (data : α) :
    Shape (setNode q (k % q.size) { q.buffer (k % q.size) with data := some data }) h := by
  have hseq : ∀ i, ((setNode q (k % q.size)
      { q.buffer (k % q.size) with data := some data }).buffer i).seq = (q.buffer i).seq := by
    intro i
    by_cases hi : i = k % q.size
    · rw [hi, setNode_self]
    · rw [setNode_ne hi]
  exact
    { hs with
      seq_fresh := fun i hi hlen ↦ (hseq i).trans (hs.seq_fresh i hi hlen)
      seq_claimed := fun i hi hnot ↦ (hseq _).trans (hs.seq_claimed i hi hnot)
      seq_published := fun i hi hrel ↦ (hseq _).trans (hs.seq_published i hi hrel)
      seq_released := fun i hrel hlen ↦ (hseq _).trans (hs.seq_released i hrel hlen)
      data := by
        intro i hi hrel
        have hne : i % q.size ≠ k % q.size := by
          intro heq
          have hi' := hs.published_lt i hi
          have hwi := hs.window i hi' hrel
          have hwk := hs.window_claimed hk hpub
          exact hpub (slot_inj heq (by omega) (by omega) ▸ hi)
        change ((setNode q _ _).buffer (i % q.size)).data = _
        rw [setNode_ne hne]
        exact hs.data i hi hrel }

/-- The node of a ticket in use is not that of another ticket whose state counts. -/
theorem slot_ne (hs : Shape q h) {i : ℕ} (hk : k < h.enqueued.length) (hrel : ¬ h.Released k)
    (hi : i < h.enqueued.length) (hwindow : h.enqueued.length ≤ i + q.size) (hne : i ≠ k) :
    i % q.size ≠ k % q.size := by
  intro heq
  have hwk := hs.window k hk hrel
  exact hne (slot_inj heq (by omega) (by omega))

theorem fresh_ne (hs : Shape q h) {i : ℕ} (hk : k < h.enqueued.length) (hrel : ¬ h.Released k)
    (hi : i < q.size) (hlen : h.enqueued.length ≤ i) : i ≠ k % q.size := by
  intro heq
  have hwk := hs.window k hk hrel
  have hmod : i % q.size = k % q.size := by rw [Nat.mod_eq_of_lt hi, heq]
  have hsame := slot_inj hmod (by omega) (by omega)
  omega

/-- The data of a drawn ticket is published. -/
theorem publish (hs : Shape q h) (hk : k < h.enqueued.length) (hpub : k ∉ h.published)
    (hdata : (q.buffer (k % q.size)).data = h.enqueued[k]?) :
    Shape (setNode q (k % q.size) { q.buffer (k % q.size) with seq := u8 (k + 1) })
      { h with published := h.published ++ [k] } := by
  have hrel := hs.not_released hpub
  have hbound := hs.bound
  have hu8 : u8 (k + 1) = k + 1 := u8_of_lt (by omega)
  rw [hu8]
  have hsplit : ∀ i, i ∈ h.published ++ [k] ↔ i ∈ h.published ∨ i = k := by
    intro i
    rw [List.mem_append, List.mem_singleton]
  exact
    { hs with
      taken_published := fun i hi ↦ List.mem_append_left _ (hs.taken_published i hi)
      published_lt := by
        intro i hi
        rcases (hsplit i).mp hi with hmem | rfl
        · exact hs.published_lt i hmem
        · exact hk
      published_nodup := by
        rw [List.nodup_append]
        refine ⟨hs.published_nodup, List.pairwise_singleton _ _, ?_⟩
        intro i hi j hj
        obtain rfl : j = k := List.mem_singleton.mp hj
        rintro rfl
        exact hpub hi
      seq_fresh := by
        intro i hi hlen
        rw [setNode_ne (hs.fresh_ne hk hrel hi hlen)]
        exact hs.seq_fresh i hi hlen
      seq_claimed := by
        intro i hi hnot
        have hnot' : i ∉ h.published := fun hmem ↦ hnot ((hsplit i).mpr (.inl hmem))
        have hne : i ≠ k := fun heq ↦ hnot ((hsplit i).mpr (.inr heq))
        change ((setNode q _ _).buffer (i % q.size)).seq = _
        rw [setNode_ne (hs.slot_ne hk hrel hi (hs.window_claimed hi hnot') hne)]
        exact hs.seq_claimed i hi hnot'
      seq_published := by
        intro i hi hreli
        change ((setNode q _ _).buffer (i % q.size)).seq = _
        by_cases hik : i = k
        · rw [hik, setNode_self]
        · have hmem := ((hsplit i).mp hi).resolve_right hik
          have hlt := hs.published_lt i hmem
          rw [setNode_ne (hs.slot_ne hk hrel hlt (hs.window i hlt hreli) hik)]
          exact hs.seq_published i hmem hreli
      seq_released := by
        intro i hreli hlen
        have hlt : i < h.enqueued.length := Nat.lt_of_lt_of_le (hs.released_lt hreli) hs.taken_le
        have hne : i ≠ k := fun heq ↦ hrel (heq ▸ hreli)
        change ((setNode q _ _).buffer (i % q.size)).seq = _
        rw [setNode_ne (hs.slot_ne hk hrel hlt hlen hne)]
        exact hs.seq_released i hreli hlen
      data := by
        intro i hi hreli
        change ((setNode q _ _).buffer (i % q.size)).data = _
        by_cases hik : i = k
        · rw [hik, setNode_self]
          exact hdata
        · have hmem := ((hsplit i).mp hi).resolve_right hik
          have hlt := hs.published_lt i hmem
          rw [setNode_ne (hs.slot_ne hk hrel hlt (hs.window i hlt hreli) hik)]
          exact hs.data i hmem hreli }

/-- The next published ticket is taken. -/
theorem take (hs : Shape q h) (hpub : h.taken ∈ h.published) :
    Shape { q with tailSeq := u8 (h.taken + 1) } { h with taken := h.taken + 1 } := by
  have hlt := hs.published_lt _ hpub
  have hbound := hs.bound
  exact
    { hs with
      tailSeq := u8_of_lt (by omega)
      taken_published := by
        intro i hi
        rcases Nat.lt_succ_iff_lt_or_eq.mp hi with hi' | rfl
        · exact hs.taken_published i hi'
        · exact hpub
      released_taken := by
        intro i data hmem
        obtain ⟨hi, hget⟩ := hs.released_taken i data hmem
        exact ⟨Nat.lt_succ_of_lt hi, hget⟩ }

/-- The node of a taken ticket is given back. -/
theorem release (hs : Shape q h) {data : α} (hk : k < h.taken) (hrel : ¬ h.Released k)
    (hget : h.enqueued[k]? = some data) :
    Shape (setNode q (k % q.size)
        { q.buffer (k % q.size) with seq := u8 (u8 (k + q.mask) + 1) })
      { h with released := h.released ++ [(k, data)] } := by
  have hpub := hs.taken_published k hk
  have hlt := hs.published_lt k hpub
  have hbound := hs.bound
  have hpos := hs.size_pos
  have hu8 : u8 (u8 (k + q.mask) + 1) = k + q.size := by
    rw [hs.mask, u8_of_lt (show k + (q.size - 1) < 18446744073709551616 by omega), u8_of_lt (by omega)]
    omega
  rw [hu8]
  have hsplit : ∀ i, History.Released { h with released := h.released ++ [(k, data)] } i →
      h.Released i ∨ i = k := by
    rintro i ⟨data', hmem⟩
    rcases List.mem_append.mp hmem with hmem | hmem
    · exact .inl ⟨data', hmem⟩
    · rw [List.mem_singleton, Prod.mk.injEq] at hmem
      exact .inr hmem.1
  have hkeep : ∀ i, ¬ History.Released { h with released := h.released ++ [(k, data)] } i →
      ¬ h.Released i ∧ i ≠ k := by
    intro i hnot
    constructor
    · rintro ⟨data', hmem⟩
      exact hnot ⟨data', List.mem_append_left _ hmem⟩
    · rintro rfl
      exact hnot ⟨data, List.mem_append_right _ (List.mem_singleton_self _)⟩
  exact
    { hs with
      released_taken := by
        intro i data' hmem
        rcases List.mem_append.mp hmem with hmem | hmem
        · exact hs.released_taken i data' hmem
        · rw [List.mem_singleton, Prod.mk.injEq] at hmem
          rw [hmem.1, hmem.2]
          exact ⟨hk, hget⟩
      released_nodup := by
        rw [List.map_append, List.nodup_append]
        refine ⟨hs.released_nodup, List.pairwise_singleton _ _, ?_⟩
        intro i hi j hj
        obtain ⟨⟨k', data'⟩, hmem, rfl⟩ := List.mem_map.mp hi
        obtain rfl : j = k := List.mem_singleton.mp hj
        rintro rfl
        exact hrel ⟨data', hmem⟩
      window := fun i hi hnot ↦ hs.window i hi (hkeep i hnot).1
      seq_fresh := by
        intro i hi hlen
        rw [setNode_ne (hs.fresh_ne hlt hrel hi hlen)]
        exact hs.seq_fresh i hi hlen
      seq_claimed := by
        intro i hi hnot
        have hne : i ≠ k := fun heq ↦ hnot (heq ▸ hpub)
        change ((setNode q _ _).buffer (i % q.size)).seq = _
        rw [setNode_ne (hs.slot_ne hlt hrel hi (hs.window_claimed hi hnot) hne)]
        exact hs.seq_claimed i hi hnot
      seq_published := by
        intro i hi hnot
        obtain ⟨hreli, hne⟩ := hkeep i hnot
        have hilt := hs.published_lt i hi
        change ((setNode q _ _).buffer (i % q.size)).seq = _
        rw [setNode_ne (hs.slot_ne hlt hrel hilt (hs.window i hilt hreli) hne)]
        exact hs.seq_published i hi hreli
      seq_released := by
        intro i hreli hlen
        change ((setNode q _ _).buffer (i % q.size)).seq = _
        by_cases hik : i = k
        · rw [hik, setNode_self]
          rfl
        · have hold := (hsplit i hreli).resolve_right hik
          have hilt : i < h.enqueued.length := Nat.lt_of_lt_of_le (hs.released_lt hold) hs.taken_le
          rw [setNode_ne (hs.slot_ne hlt hrel hilt hlen hik)]
          exact hs.seq_released i hold hlen
      data := by
        intro i hi hnot
        obtain ⟨hreli, hne⟩ := hkeep i hnot
        have hilt := hs.published_lt i hi
        change ((setNode q _ _).buffer (i % q.size)).data = _
        rw [setNode_ne (hs.slot_ne hlt hrel hilt (hs.window i hilt hreli) hne)]
        exact hs.data i hi hreli }

end Shape

end CPractice.MpmcQueue
