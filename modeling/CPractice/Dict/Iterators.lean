import CPractice.Dict.Lookup
import Mathlib.Data.List.TakeWhile

/-!
# One call of `dictNext`

An iterator stands at an entry of a bucket of one of the tables.  What it has yet to return is the rest of
that bucket, the buckets behind it, and from the first table also the buckets of the second.
-/

namespace CPractice.Dict

open Lib

variable {κ ν : Type} {hash : κ → ℕ} {d d' : DictT κ ν} {iter : DictIterator κ} {t t' i i' : ℕ} {k n : κ}

/-- The keys of a bucket of a table. -/
def keysAt (table : List (List (κ × ν))) (i : ℕ) : List κ := (table[i]?.getD []).map Prod.fst

/-- The keys of a bucket of one of the tables. -/
def bucketKeys (d : DictT κ ν) (t i : ℕ) : List κ :=
  keysAt (if t = 0 then d.ht0 else d.ht1).table i

theorem keysAt_of_getElem? {table : List (List (κ × ν))} {b : List (κ × ν)} (hb : table[i]? = some b) :
    keysAt table i = b.map Prod.fst := by
  rw [keysAt, hb]
  rfl

theorem keysAt_of_length_le {table : List (List (κ × ν))} (hle : table.length ≤ i) : keysAt table i = [] := by
  rw [keysAt, List.getElem?_eq_none hle]
  rfl

theorem mem_keysAt_iff {table : List (List (κ × ν))} :
    k ∈ keysAt table i ↔ ∃ b, table[i]? = some b ∧ k ∈ b.map Prod.fst := by
  rw [keysAt]
  cases table[i]? with
  | none => simp
  | some b => simp

theorem keysAt_set {table : List (List (κ × ν))} {b : List (κ × ν)} (hb : table[i]? = some b)
    (b' : List (κ × ν)) (j : ℕ) :
    keysAt (table.set i b') j = if i = j then b'.map Prod.fst else keysAt table j := by
  rw [keysAt, List.getElem?_set, keysAt]
  have hlt := (List.getElem?_eq_some_iff.mp hb).1
  rw [if_pos hlt]
  split <;> rfl

theorem keysAt_replicate (size j : ℕ) : keysAt (List.replicate size ([] : List (κ × ν))) j = [] := by
  rw [keysAt, List.getElem?_replicate]
  split <;> rfl

section
variable {ht : Dictht κ ν}

theorem HtWf.index_of_mem (h : HtWf hash ht) (hk : k ∈ keysAt ht.table i) : indexOf hash ht k = i := by
  obtain ⟨b, hb, hmem⟩ := mem_keysAt_iff.mp hk
  obtain ⟨e, he, rfl⟩ := List.mem_map.mp hmem
  exact h.placed i b hb e he

theorem HtWf.mem_keys_iff (h : HtWf hash ht) :
    k ∈ ht.table.flatten.map Prod.fst ↔ ∃ i, k ∈ keysAt ht.table i := by
  constructor
  · intro hk
    obtain ⟨e, he, rfl⟩ := List.mem_map.mp hk
    obtain ⟨b, hb, hmem⟩ := h.placed.mem_iff.mp he
    exact ⟨_, mem_keysAt_iff.mpr ⟨b, hb, List.mem_map_of_mem hmem⟩⟩
  · intro hk
    obtain ⟨i, hk⟩ := hk
    obtain ⟨b, hb, hmem⟩ := mem_keysAt_iff.mp hk
    obtain ⟨e, he, rfl⟩ := List.mem_map.mp hmem
    exact List.mem_map_of_mem (List.mem_flatten_of_mem (List.mem_of_getElem? hb) he)

end

theorem mem_keys_iff (h : Wf hash d) :
    k ∈ (entries d).map Prod.fst ↔ (∃ i, k ∈ bucketKeys d 0 i) ∨ ∃ i, k ∈ bucketKeys d 1 i := by
  rw [entries, List.map_append, List.mem_append, h.ht0.mem_keys_iff, h.ht1.mem_keys_iff]
  rfl

theorem bucketKeys_nodup (h : Wf hash d) (t i : ℕ) : (bucketKeys d t i).Nodup := by
  have hall := h.nodup
  rw [entries, List.map_append] at hall
  have hsub : ∀ table : List (List (κ × ν)), (table.flatten.map Prod.fst).Nodup → (keysAt table i).Nodup := by
    intro table hnodup
    rw [keysAt]
    cases hb : table[i]? with
    | none => exact List.nodup_nil
    | some b =>
        exact ((List.sublist_flatten_of_mem (List.mem_of_getElem? hb)).map Prod.fst).nodup hnodup
  rw [bucketKeys]
  split
  · exact hsub _ (List.Nodup.of_append_left hall)
  · exact hsub _ (List.Nodup.of_append_right hall)

/-- A key is in one bucket. -/
theorem bucket_unique (h : Wf hash d) (ht : t ≤ 1) (ht' : t' ≤ 1) (hk : k ∈ bucketKeys d t i)
    (hk' : k ∈ bucketKeys d t' i') : t = t' ∧ i = i' := by
  have hall := h.nodup
  rw [entries, List.map_append] at hall
  have hdisjoint := (List.nodup_append'.mp hall).2.2
  have hcases : t = 0 ∨ t = 1 := by omega
  have hcases' : t' = 0 ∨ t' = 1 := by omega
  rcases hcases with rfl | rfl <;> rcases hcases' with rfl | rfl
  · exact ⟨rfl, (h.ht0.index_of_mem hk).symm.trans (h.ht0.index_of_mem hk')⟩
  · exact absurd (h.ht1.mem_keys_iff.mpr ⟨i', hk'⟩) (hdisjoint (h.ht0.mem_keys_iff.mpr ⟨i, hk⟩))
  · exact absurd (h.ht1.mem_keys_iff.mpr ⟨i, hk⟩) (hdisjoint (h.ht0.mem_keys_iff.mpr ⟨i', hk'⟩))
  · exact ⟨rfl, (h.ht1.index_of_mem hk).symm.trans (h.ht1.index_of_mem hk')⟩

variable [DecidableEq κ]

/-! ## What is to come -/

/-- The keys behind a bucket. -/
def After (d : DictT κ ν) (t : ℕ) (index : ℤ) (k : κ) : Prop :=
  (∃ i : ℕ, index < i ∧ k ∈ bucketKeys d t i) ∨ (t = 0 ∧ ∃ i, k ∈ bucketKeys d 1 i)

/-- The keys that an iterator has yet to return. -/
def Pending (d : DictT κ ν) (iter : DictIterator κ) (k : κ) : Prop :=
  (∃ n, iter.nextEntry = some n ∧ k ∈ (bucketKeys d iter.table iter.index.toNat).dropWhile (· ≠ n)) ∨
    After d iter.table iter.index k

/-- What is to come is in a bucket. -/
theorem Pending.mem_buckets (hk : Pending d iter k) (hle : iter.table ≤ 1) :
    (∃ i, k ∈ bucketKeys d 0 i) ∨ ∃ i, k ∈ bucketKeys d 1 i := by
  have hcases : iter.table = 0 ∨ iter.table = 1 := by omega
  have hone : ∀ i, k ∈ bucketKeys d iter.table i →
      (∃ i, k ∈ bucketKeys d 0 i) ∨ ∃ i, k ∈ bucketKeys d 1 i := by
    intro i hi
    rcases hcases with ht | ht
    · exact .inl ⟨i, ht ▸ hi⟩
    · exact .inr ⟨i, ht ▸ hi⟩
  rcases hk with ⟨n, -, hdrop⟩ | ⟨i, -, hi⟩ | ⟨-, hi⟩
  · exact hone _ ((List.dropWhile_sublist _).mem hdrop)
  · exact hone i hi
  · exact .inr hi

/-- An iterator at a place of a dictionary. -/
structure At (d : DictT κ ν) (iter : DictIterator κ) : Prop where
  safe : iter.safe = true
  table_le : iter.table ≤ 1
  index_ge : -1 ≤ iter.index
  fresh : iter.index = -1 → iter.table = 0 ∧ iter.entry = none
  next_mem : ∀ n, iter.nextEntry = some n → n ∈ bucketKeys d iter.table iter.index.toNat
  next_none : iter.entry = none → iter.nextEntry = none

omit [DecidableEq κ] in
theorem at_fresh (d : DictT κ ν) : At d (dictGetIterator κ true) :=
  ⟨rfl, Nat.zero_le 1, le_refl _, fun _ ↦ ⟨rfl, rfl⟩, fun _ hn ↦ absurd hn (by simp [dictGetIterator]),
    fun _ ↦ rfl⟩

omit [DecidableEq κ] in
theorem dropWhile_split {pre rest : List κ} [DecidableEq κ] (hnodup : (pre ++ n :: rest).Nodup) :
    (pre ++ n :: rest).dropWhile (· ≠ n) = n :: rest := by
  have hpre : ∀ a ∈ pre, decide (a ≠ n) = true := by
    intro a ha
    apply decide_eq_true
    rintro rfl
    exact (List.nodup_append'.mp hnodup).2.2 ha List.mem_cons_self
  rw [List.dropWhile_append_of_pos hpre, List.dropWhile_cons_of_neg (by simp)]

theorem nextIn_eq {b : List (κ × ν)} {pre rest : List κ} (hb : b.map Prod.fst = pre ++ n :: rest)
    (hnodup : (pre ++ n :: rest).Nodup) : nextIn b n = some rest.head? := by
  have hdrop : (b.dropWhile fun he ↦ he.1 ≠ n).map Prod.fst = n :: rest := by
    rw [← dropWhile_split hnodup, ← hb, List.dropWhile_map]
    rfl
  rw [nextIn]
  cases hdropped : b.dropWhile fun he ↦ he.1 ≠ n with
  | nil =>
      rw [hdropped] at hdrop
      cases hdrop
  | cons e next =>
      rw [hdropped, List.map_cons] at hdrop
      dsimp only
      rw [← (List.cons.inj hdrop).2, List.head?_map]

theorem mem_of_nextIn {b : List (κ × ν)} {next : Option κ} (hnext : nextIn b n = some next) :
    n ∈ b.map Prod.fst := by
  rw [nextIn] at hnext
  by_contra hno
  have hdrop : (b.dropWhile fun he ↦ he.1 ≠ n) = [] := by
    rw [List.dropWhile_eq_nil_iff]
    intro e he
    apply decide_eq_true
    rintro rfl
    exact hno (List.mem_map_of_mem he)
  rw [hdrop] at hnext
  cases hnext

/-- The entry behind one whose place is known. -/
theorem entryNext_eq (h : Wf hash d) (ht : t ≤ 1) {pre rest : List κ}
    (hsplit : bucketKeys d t i = pre ++ n :: rest) : entryNext d n = some rest.head? := by
  have hmem : n ∈ bucketKeys d t i := by
    rw [hsplit]
    exact List.mem_append_right _ List.mem_cons_self
  have hnodup := bucketKeys_nodup h t i
  rw [hsplit] at hnodup
  -- the buckets of both tables by their places
  have hplaces : ∀ b ∈ d.ht0.table ++ d.ht1.table, ∃ t' i', t' ≤ 1 ∧ bucketKeys d t' i' = b.map Prod.fst := by
    intro b hb
    rcases List.mem_append.mp hb with h0 | h1
    · obtain ⟨i', hi'⟩ := List.mem_iff_getElem?.mp h0
      exact ⟨0, i', Nat.zero_le 1, keysAt_of_getElem? hi'⟩
    · obtain ⟨i', hi'⟩ := List.mem_iff_getElem?.mp h1
      exact ⟨1, i', le_refl 1, keysAt_of_getElem? hi'⟩
  rw [entryNext]
  cases hsearch : (d.ht0.table ++ d.ht1.table).findSome? _ with
  | none =>
      exfalso
      have hnone := List.findSome?_eq_none_iff.mp hsearch
      obtain ⟨b, hb, -⟩ := mem_keysAt_iff.mp hmem
      have hin : b ∈ d.ht0.table ++ d.ht1.table := by
        have hb' := List.mem_of_getElem? hb
        split at hb'
        · exact List.mem_append_left _ hb'
        · exact List.mem_append_right _ hb'
      have hkeys : b.map Prod.fst = pre ++ n :: rest := by
        rw [← hsplit, bucketKeys, keysAt_of_getElem? hb]
      have hthis := hnone b hin
      rw [nextIn_eq hkeys hnodup] at hthis
      cases hthis
  | some out =>
      obtain ⟨b, hb, hout⟩ := List.exists_of_findSome?_eq_some hsearch
      obtain ⟨t', i', ht', hkeys⟩ := hplaces b hb
      have hfound := mem_of_nextIn hout
      rw [← hkeys] at hfound
      obtain ⟨rfl, rfl⟩ := bucket_unique h ht ht' hmem hfound
      rw [← hout]
      exact nextIn_eq (hkeys.symm.trans hsplit) hnodup

/-- What one call of `dictNext` makes of what is to come. -/
def Returns (d : DictT κ ν) (iter iter' : DictIterator κ) : Option κ → Prop
  | some key => Pending d iter key ∧ ∀ k, Pending d iter' k ↔ Pending d iter k ∧ k ≠ key
  | none => (∀ k, ¬ Pending d iter k) ∧ ∀ k, ¬ Pending d iter' k

theorem Returns.congr {iter₁ iter' : DictIterator κ} {key : Option κ}
    (hsame : ∀ k, Pending d iter₁ k ↔ Pending d iter k) (hreturns : Returns d iter₁ iter' key) :
    Returns d iter iter' key := by
  cases key with
  | none => exact ⟨fun k hk ↦ hreturns.1 k ((hsame k).mpr hk), hreturns.2⟩
  | some key => exact ⟨(hsame key).mp hreturns.1, fun k ↦ (hreturns.2 k).trans (and_congr_left' (hsame k))⟩

theorem pending_chain (h : Wf hash d) {pre rest : List κ} (hnext : iter.nextEntry = some n)
    (hsplit : bucketKeys d iter.table iter.index.toNat = pre ++ n :: rest) :
    Pending d iter k ↔ k ∈ n :: rest ∨ After d iter.table iter.index k := by
  have hnodup := bucketKeys_nodup h iter.table iter.index.toNat
  rw [hsplit] at hnodup
  rw [← dropWhile_split hnodup, ← hsplit, Pending, hnext]
  simp

omit [DecidableEq κ] in
theorem After.not_mem (h : Wf hash d) (ht : t ≤ 1) {index : ℤ} (hk : After d t index k)
    (hindex : 0 ≤ index) : k ∉ bucketKeys d t index.toNat := by
  intro hmem
  rcases hk with ⟨j, hj, hmem'⟩ | ⟨hzero, j, hmem'⟩
  · have hsame := (bucket_unique h ht ht hmem hmem').2
    omega
  · have hsame := (bucket_unique h ht (le_refl 1) hmem hmem').1
    omega

/-- The call returns the entry that it arrives at. -/
theorem arrive (h : Wf hash d) (hat : At d iter) (hindex : 0 ≤ iter.index) {pre rest : List κ}
    (hsplit : bucketKeys d iter.table iter.index.toNat = pre ++ n :: rest) :
    At d { iter with entry := some n, nextEntry := rest.head? } ∧
      ∀ k, Pending d { iter with entry := some n, nextEntry := rest.head? } k ↔
        (k ∈ n :: rest ∨ After d iter.table iter.index k) ∧ k ≠ n := by
  have hnodup := bucketKeys_nodup h iter.table iter.index.toNat
  have hn : n ∈ bucketKeys d iter.table iter.index.toNat := by
    rw [hsplit]
    exact List.mem_append_right _ List.mem_cons_self
  rw [hsplit] at hnodup
  have hrest := List.nodup_cons.mp (List.Nodup.of_append_right hnodup)
  constructor
  · refine ⟨hat.safe, hat.table_le, hat.index_ge, fun hf ↦ ?_, fun m hm ↦ ?_, fun hf ↦ absurd hf (by simp)⟩
    · dsimp only at hf
      omega
    · dsimp only at hm ⊢
      rw [hsplit]
      exact List.mem_append_right _ (List.mem_cons_of_mem n (List.mem_of_head? hm))
  · intro k
    -- the rest of the bucket
    have hchain : (∃ m, rest.head? = some m ∧
        k ∈ (bucketKeys d iter.table iter.index.toNat).dropWhile (· ≠ m)) ↔ k ∈ rest := by
      cases hcase : rest with
      | nil => simp
      | cons m tail =>
          have hdrop : (bucketKeys d iter.table iter.index.toNat).dropWhile (· ≠ m) = m :: tail := by
            have hsplit' : pre ++ n :: rest = (pre ++ [n]) ++ m :: tail := by rw [hcase]; simp
            rw [hsplit, hsplit']
            rw [hsplit'] at hnodup
            exact dropWhile_split hnodup
          rw [List.head?_cons]
          constructor
          · intro hm
            obtain ⟨m', hm', hmem⟩ := hm
            cases hm'
            rwa [hdrop] at hmem
          · intro hmem
            exact ⟨m, rfl, by rwa [hdrop]⟩
    rw [Pending]
    dsimp only
    rw [hchain, List.mem_cons]
    constructor
    · intro hk
      rcases hk with hk | hk
      · refine ⟨.inl (.inr hk), ?_⟩
        rintro rfl
        exact hrest.1 hk
      · refine ⟨.inr hk, ?_⟩
        rintro rfl
        exact hk.not_mem h hat.table_le hindex hn
    · intro hk
      obtain ⟨(hk | hk) | hk, hne⟩ := hk
      · exact absurd hk hne
      · exact .inl hk
      · exact .inr hk

/-! ## The loop of `dictNext` -/

/-- `size` of one of the tables. -/
def sizeOf (d : DictT κ ν) (t : ℕ) : ℕ := (if t = 0 then d.ht0 else d.ht1).size

omit [DecidableEq κ] in
theorem bucketKeys_of_size_le (h : Wf hash d) (hle : sizeOf d t ≤ i) : bucketKeys d t i = [] := by
  rw [sizeOf] at hle
  rw [bucketKeys]
  split at hle
  · next hzero =>
      rw [if_pos hzero]
      exact keysAt_of_length_le (by rw [h.ht0.length_eq]; exact hle)
  · next hone =>
      rw [if_neg hone]
      exact keysAt_of_length_le (by rw [h.ht1.length_eq]; exact hle)

omit [DecidableEq κ] in
/-- The next bucket comes first. -/
theorem after_step {index : ℤ} (hindex : -1 ≤ index) :
    After d t index k ↔ k ∈ bucketKeys d t (index + 1).toNat ∨ After d t (index + 1) k := by
  rw [After, After, ← or_assoc]
  apply or_congr_left
  constructor
  · intro hk
    obtain ⟨i, hi, hmem⟩ := hk
    by_cases heq : (i : ℤ) = index + 1
    · rw [← heq, Int.toNat_natCast]
      exact .inl hmem
    · exact .inr ⟨i, by omega, hmem⟩
  · intro hk
    rcases hk with hmem | ⟨i, hi, hmem⟩
    · exact ⟨_, by omega, hmem⟩
    · exact ⟨i, by omega, hmem⟩

omit [DecidableEq κ] in
/-- Behind the last bucket of a table there is at most the other table. -/
theorem after_end (h : Wf hash d) {index : ℤ} (hend : index + 1 ≥ sizeOf d t) :
    After d t index k ↔ t = 0 ∧ ∃ i, k ∈ bucketKeys d 1 i := by
  apply or_iff_right
  intro hk
  obtain ⟨i, hi, hmem⟩ := hk
  rw [bucketKeys_of_size_le h (by omega)] at hmem
  cases hmem

/-- An iterator counts from its first call on. -/
def started (iter : DictIterator κ) : ℤ := if iter.index = -1 then 1 else 0

/-- The buckets that an iterator has yet to visit. -/
def bucketsLeft (d : DictT κ ν) (iter : DictIterator κ) : ℕ :=
  if iter.table = 0 then (d.ht0.size - (iter.index + 1).toNat) + 1 + d.ht1.size
  else d.ht1.size - (iter.index + 1).toNat

theorem not_pending_entry (hat : At d iter) (hentry : iter.entry = none) :
    Pending d iter k ↔ After d iter.table iter.index k := by
  apply or_iff_right
  rw [hat.next_none hentry]
  simp

/-- Where the loop of `dictNext` goes to: a bucket, or the end. -/
theorem advance_none (h : Wf hash d) (hat : At d iter) (hentry : iter.entry = none) :
    (∃ t index, advance d iter = some (true, { d with iterators := d.iterators + started iter },
        { iter with
          table := t
          index := index
          entry := (bucketKeys d t index.toNat).head? }) ∧
      t ≤ 1 ∧ 0 ≤ index ∧ bucketsLeft d { iter with table := t, index := index } < bucketsLeft d iter ∧
      ∀ k, Pending d iter k ↔ k ∈ bucketKeys d t index.toNat ∨ After d t index k) ∨
    (advance d iter = some (false, { d with iterators := d.iterators + started iter },
        { iter with index := iter.index + 1 }) ∧
      ∀ k, ¬ Pending d iter k ∧ ¬ Pending d { iter with index := iter.index + 1 } k) := by
  have hge := hat.index_ge
  have hle := hat.table_le
  have hcount : (if iter.index = -1 ∧ iter.table = 0 ∧ iter.safe = true then
      { d with iterators := d.iterators + 1 } else d) =
      { d with iterators := d.iterators + started iter } := by
    rw [started]
    by_cases hfirst : iter.index = -1
    · rw [if_pos ⟨hfirst, (hat.fresh hfirst).1, hat.safe⟩, if_pos hfirst]
    · rw [if_neg fun hf ↦ hfirst hf.1, if_neg hfirst, Int.add_zero]
  have hsize : (if iter.table = 0 then d.ht0 else d.ht1).size = sizeOf d iter.table := rfl
  have hhead : ∀ t, ∀ index : ℤ, 0 ≤ index → index < sizeOf d t → ∃ b,
      (if t = 0 then d.ht0 else d.ht1).table[index.toNat]? = some b ∧
        b.head?.map Prod.fst = (bucketKeys d t index.toNat).head? := by
    intro t index hnonneg hlt
    have hlength : (if t = 0 then d.ht0 else d.ht1).table.length = sizeOf d t := by
      rw [sizeOf]
      split
      · exact h.ht0.length_eq
      · exact h.ht1.length_eq
    have hin : index.toNat < (if t = 0 then d.ht0 else d.ht1).table.length := by omega
    have hget := List.getElem?_eq_getElem hin
    exact ⟨_, hget, by rw [bucketKeys, keysAt_of_getElem? hget, List.head?_map]⟩
  rw [advance, hentry]
  dsimp only
  rw [hcount]
  dsimp only
  rw [hsize]
  by_cases hend : iter.index + 1 ≥ sizeOf d iter.table
  · rw [if_pos hend]
    by_cases hturn : isRehashing d ∧ iter.table = 0
    · have hturn' : isRehashing ({ d with iterators := d.iterators + started iter } : DictT κ ν) ∧
          iter.table = 0 := hturn
      have hsize1 := (h.moving hturn.1).size1
      obtain ⟨b, hb, hfirst⟩ := hhead 1 0 (le_refl 0) (by
        rw [sizeOf, if_neg (by decide)]
        omega)
      rw [if_neg (by decide : ¬ 1 = 0)] at hb
      rw [if_pos hturn', show (0 : ℕ) = (0 : ℤ).toNat from rfl, hb, Option.bind_eq_bind, Option.bind_some,
        hfirst]
      refine .inl ⟨1, 0, rfl, le_refl 1, le_refl 0, ?_, fun k ↦ ?_⟩
      · rw [bucketsLeft, bucketsLeft, if_neg Nat.one_ne_zero, if_pos hturn.2]
        omega
      · have hfrom : After d 1 (-1) k ↔ k ∈ bucketKeys d 1 (0 : ℤ).toNat ∨ After d 1 0 k :=
          after_step (le_refl (-1))
        rw [not_pending_entry hat hentry, after_end h hend, ← hfrom, After]
        constructor
        · intro hk
          obtain ⟨-, i, hmem⟩ := hk
          exact .inl ⟨i, by omega, hmem⟩
        · intro hk
          rcases hk with ⟨i, -, hmem⟩ | ⟨hf, -⟩
          · exact ⟨hturn.2, i, hmem⟩
          · exact absurd hf (by decide)
    · have hturn' : ¬ (isRehashing ({ d with iterators := d.iterators + started iter } : DictT κ ν) ∧
          iter.table = 0) := hturn
      rw [if_neg hturn']
      have hnone : ∀ k, ¬ (iter.table = 0 ∧ ∃ i, k ∈ bucketKeys d 1 i) := by
        intro k hk
        obtain ⟨hzero, i, hmem⟩ := hk
        have hidle : ¬ isRehashing d := fun hr ↦ hturn ⟨hr, hzero⟩
        rw [bucketKeys, if_neg (by decide), h.alone hidle] at hmem
        cases hmem
      refine .inr ⟨rfl, fun k ↦ ⟨?_, ?_⟩⟩
      · rw [not_pending_entry hat hentry, after_end h hend]
        exact hnone k
      · rw [Pending, or_iff_right]
        · dsimp only
          rw [after_end h (by omega)]
          exact hnone k
        · dsimp only
          rw [hat.next_none hentry]
          simp
  · rw [if_neg hend]
    obtain ⟨b, hb, hfirst⟩ := hhead iter.table (iter.index + 1) (by omega) (by omega)
    rw [hb, Option.bind_eq_bind, Option.bind_some, hfirst]
    refine .inl ⟨iter.table, iter.index + 1, rfl, hle, by omega, ?_, fun k ↦ ?_⟩
    · rw [bucketsLeft, bucketsLeft]
      dsimp only
      rw [sizeOf] at hend
      split
      · next hzero =>
          rw [if_pos hzero] at hend
          omega
      · next hone =>
          rw [if_neg hone] at hend
          omega
    · rw [not_pending_entry hat hentry]
      exact after_step hge

omit [DecidableEq κ] in
/-- Other counts of iterators are other dictionaries with the same buckets. -/
theorem Wf.with_iterators (h : Wf hash d) (iterators : ℤ) :
    Wf hash { d with iterators := iterators } :=
  ⟨h.ht0, h.ht1, fun hr ↦ ⟨(h.moving hr).idx_nonneg, (h.moving hr).idx_le, (h.moving hr).size0,
    (h.moving hr).size1, (h.moving hr).below⟩, h.alone, h.nodup, h.few⟩

omit [DecidableEq κ] in
theorem At.with_iterators (hat : At d iter) (iterators : ℤ) : At { d with iterators := iterators } iter :=
  ⟨hat.safe, hat.table_le, hat.index_ge, hat.fresh, hat.next_mem, hat.next_none⟩

/-- The turns that the loop takes at most. -/
def turnsLeft (d : DictT κ ν) (iter : DictIterator κ) : ℕ :=
  bucketsLeft d iter + if iter.entry = none then 1 else 2

/-- The call goes on in the bucket. -/
theorem nextLoop_chain (turns : ℕ) (h : Wf hash d) (hat : At d iter) (hentry : iter.entry ≠ none)
    (hnext : iter.nextEntry = some n) :
    ∃ iter', nextLoop d iter (turns + 1) = some (some n, d, iter') ∧ At d iter' ∧ 0 ≤ iter'.index ∧
      Returns d iter iter' (some n) := by
  have hindex : 0 ≤ iter.index := by
    have hge := hat.index_ge
    have hold : iter.index ≠ -1 := fun hf ↦ hentry (hat.fresh hf).2
    omega
  have hadvance : advance d iter = some (true, d, { iter with entry := iter.nextEntry }) := by
    rw [advance]
    split
    · rfl
    · next hnone => exact absurd hnone hentry
  obtain ⟨pre, rest, hsplit⟩ := List.append_of_mem (hat.next_mem n hnext)
  obtain ⟨hat', hpending⟩ := arrive h hat hindex hsplit
  refine ⟨{ iter with entry := some n, nextEntry := rest.head? }, ?_, hat', hindex,
    (pending_chain h hnext hsplit).mpr (.inl List.mem_cons_self), fun k ↦ ?_⟩
  · rw [nextLoop, hadvance, Option.bind_eq_bind, Option.bind_some]
    dsimp only
    rw [Bool.not_true, if_neg Bool.false_ne_true, hnext]
    dsimp only
    rw [entryNext_eq h hat.table_le hsplit, Option.bind_eq_bind, Option.bind_some]
  · rw [pending_chain h hnext hsplit]
    exact hpending k

theorem nextLoop_spec (turns : ℕ) (h : Wf hash d) (hat : At d iter) (hturns : turnsLeft d iter ≤ turns) :
    ∃ key iter', nextLoop d iter turns =
        some (key, { d with iterators := d.iterators + started iter }, iter') ∧
      At d iter' ∧ 0 ≤ iter'.index ∧ Returns d iter iter' key := by
  induction turns generalizing d iter with
  | zero =>
      rw [turnsLeft] at hturns
      split at hturns <;> omega
  | succ turns ih =>
      cases hentry : iter.entry with
      | some e =>
          have hold : iter.index ≠ -1 := by
            intro hf
            rw [(hat.fresh hf).2] at hentry
            cases hentry
          rw [started, if_neg hold, Int.add_zero]
          cases hnext : iter.nextEntry with
          | some n =>
              obtain ⟨iter', hloop, hat', hindex, hreturns⟩ :=
                nextLoop_chain turns h hat (by rw [hentry]; simp) hnext
              exact ⟨some n, iter', hloop, hat', hindex, hreturns⟩
          | none =>
              -- the bucket is at its end, and the loop turns once more
              have hat' : At d { iter with entry := none } :=
                ⟨hat.safe, hat.table_le, hat.index_ge, fun hf ↦ absurd hf hold, hat.next_mem,
                  fun _ ↦ hnext⟩
              have hleft : bucketsLeft d { iter with entry := none } = bucketsLeft d iter := rfl
              rw [turnsLeft, hentry, if_neg (by simp)] at hturns
              obtain ⟨key, iter', hloop, hat'', hindex, hreturns⟩ :=
                ih h hat' (by rw [turnsLeft, if_pos rfl]; omega)
              have hstarted : started ({ iter with entry := none } : DictIterator κ) = 0 := if_neg hold
              rw [hstarted, Int.add_zero] at hloop
              refine ⟨key, iter', ?_, hat'', hindex, hreturns.congr fun k ↦ Iff.rfl⟩
              rw [nextLoop, advance, hentry, Option.bind_eq_bind, Option.bind_some]
              dsimp only
              rw [hnext] at hloop
              rw [Bool.not_true, if_neg Bool.false_ne_true, hnext]
              exact hloop
      | none =>
          rw [turnsLeft, hentry, if_pos rfl] at hturns
          rw [nextLoop]
          have hge := hat.index_ge
          have hnone := hat.next_none hentry
          rcases advance_none h hat hentry with ⟨t, index, hadvance, ht, hindex, hleft, hpending⟩ |
            ⟨hadvance, hpending⟩
          · rw [hadvance, Option.bind_eq_bind, Option.bind_some]
            dsimp only
            rw [Bool.not_true, if_neg Bool.false_ne_true]
            have hwf := h.with_iterators (d.iterators + started iter)
            have hat' : At d { iter with table := t, index := index, entry := none } := by
              refine ⟨hat.safe, ht, by dsimp only; omega, fun hf ↦ ?_, fun n hn ↦ ?_, fun _ ↦ hnone⟩
              · dsimp only at hf
                omega
              · rw [hnone] at hn
                cases hn
            cases hbucket : bucketKeys d t index.toNat with
            | nil =>
                have hstarted : started ({ iter with
                    table := t, index := index, entry := none } : DictIterator κ) = 0 := by
                  rw [started, if_neg]
                  dsimp only
                  omega
                have hsame : bucketsLeft { d with iterators := d.iterators + started iter }
                    { iter with table := t, index := index, entry := none } =
                  bucketsLeft d { iter with table := t, index := index } := rfl
                obtain ⟨key, iter', hloop, hat'', hindex', hreturns⟩ :=
                  ih hwf (hat'.with_iterators _) (by rw [turnsLeft, if_pos rfl]; omega)
                rw [hstarted, Int.add_zero] at hloop
                rw [List.head?_nil]
                refine ⟨key, iter', hloop, ⟨hat''.safe, hat''.table_le, hat''.index_ge, hat''.fresh,
                  hat''.next_mem, hat''.next_none⟩, hindex', ?_⟩
                have hsame : ∀ k, Pending d { iter with table := t, index := index, entry := none } k ↔
                    Pending d iter k := by
                  intro k
                  rw [not_pending_entry hat' rfl, hpending k, hbucket]
                  simp
                exact Returns.congr (d := d) hsame hreturns
            | cons n rest =>
                obtain ⟨hat'', hafter⟩ := arrive h hat' hindex (show _ = [] ++ n :: rest from hbucket)
                rw [List.head?_cons]
                dsimp only
                rw [entryNext_eq hwf ht (show _ = [] ++ n :: rest from hbucket)]
                refine ⟨some n, _, rfl, hat'', hindex, ?_, fun k ↦ ?_⟩
                · rw [hpending, hbucket]
                  exact .inl List.mem_cons_self
                · rw [hpending, hbucket]
                  exact hafter k
          · rw [hadvance, Option.bind_eq_bind, Option.bind_some]
            dsimp only
            rw [Bool.not_false, if_pos rfl]
            refine ⟨none, _, rfl, ⟨hat.safe, hat.table_le, by dsimp only; omega, fun hf ↦ ?_,
              fun n hn ↦ ?_, fun _ ↦ hnone⟩, by dsimp only; omega, fun k ↦ (hpending k).1,
              fun k ↦ (hpending k).2⟩
            · dsimp only at hf
              omega
            · rw [hnone] at hn
              cases hn

theorem dictNext_spec (h : Wf hash d) (hat : At d iter) :
    ∃ key iter', dictNext d iter = some (key, { d with iterators := d.iterators + started iter }, iter') ∧
      At d iter' ∧ 0 ≤ iter'.index ∧ Returns d iter iter' key := by
  apply nextLoop_spec _ h hat
  have hge := hat.index_ge
  rw [turnsLeft, bucketsLeft]
  split <;> split <;> omega

end CPractice.Dict
