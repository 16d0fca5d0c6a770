import CPractice.Conf.Model
import Mathlib.Data.List.TakeWhile

/-!
# The lines of a configuration file

The logical lines of a file are its physical lines, those that end in a backslash joined with the next
one.  `fileGetLine` drops the line in which the file ends, it does not read a last byte on its own,
and it sees a backslash only if the newline behind it is in the same chunk.  Where the last cannot
happen, it obtains the logical lines just if the file ends with a newline that ends a line, and this
line does not start at the newline.
-/

namespace CPractice.Conf

variable {content seg rest : Bytes}

/-! ## Logical lines -/

/-- Put a part in front of the first line. -/
def prependLine (part : Bytes) : List Bytes → List Bytes
  | [] => [part]
  | line :: lines => (part ++ line) :: lines

/-- The logical lines of a list of physical lines.  What is behind the last newline is a line only if
it is not empty. -/
def joinLines : List Bytes → List Bytes
  | [] => []
  | [last] =>
      if last = [] then [] else [if last.getLast? = some sameLine then last.dropLast else last]
  | seg :: next :: rest =>
      if seg.getLast? = some sameLine then prependLine seg.dropLast (joinLines (next :: rest))
      else seg :: joinLines (next :: rest)

def logicalLines (content : Bytes) : List Bytes := joinLines (content.splitOn newLine)

/-! ## What the code obtains -/

/-- A physical line that `fileGetLine` joins with the next one: the backslash is not the last byte of
a chunk. -/
def Continued (seg : Bytes) : Prop :=
  seg.getLast? = some sameLine ∧ seg.length % chunkSize ≠ 0

instance (seg : Bytes) : Decidable (Continued seg) := inferInstanceAs (Decidable (_ ∧ _))

/-- One line, from the physical lines that are left; `none` where the file ends in it. -/
def readLine : List Bytes → Option (Bytes × List Bytes)
  | [] => none
  | [_] => none
  | seg :: next :: rest =>
      if Continued seg then
        (readLine (next :: rest)).map fun out ↦ (seg.dropLast ++ out.1, out.2)
      else some (seg, next :: rest)

/-- Put a part in front of the first line, if it is obtained. -/
def continueLine (part : Bytes) : List Bytes → List Bytes
  | [] => []
  | line :: lines => (part ++ line) :: lines

/-- The lines obtained; `fresh` at the beginning of a line. -/
def readLines : Bool → List Bytes → List Bytes
  | _, [] => []
  | _, [_] => []
  | fresh, seg :: next :: rest =>
      if fresh ∧ seg = [] ∧ next :: rest = [[]] then []
      else if Continued seg then continueLine seg.dropLast (readLines false (next :: rest))
      else seg :: readLines true (next :: rest)

/-! ## Splitting at newlines -/

/-- A string is one part, or begins with one that a separator ends. -/
theorem split_cases (sep : UInt8) (content : Bytes) :
    sep ∉ content ∨ ∃ seg rest, sep ∉ seg ∧ content = seg ++ sep :: rest := by
  by_cases hmem : sep ∈ content
  · rcases List.eq_append_cons_of_mem hmem with ⟨seg, rest, heq, hseg⟩
    exact .inr ⟨seg, rest, hseg, heq⟩
  · exact .inl hmem

theorem splitOn_line {sep : UInt8} (hseg : sep ∉ seg) (rest : Bytes) :
    ∃ next lines, rest.splitOn sep = next :: lines ∧
      (seg ++ sep :: rest).splitOn sep = seg :: next :: lines := by
  rcases List.exists_cons_of_ne_nil (List.splitOn_ne_nil sep rest) with ⟨next, lines, hrest⟩
  refine ⟨next, lines, hrest, ?_⟩
  rw [List.splitOn_append_cons_self_of_not_mem hseg, hrest]

/-! ## One physical line -/

theorem ne_of_not_mem {a : UInt8} {l : Bytes} (h : a ∉ l) : ∀ c ∈ l, decide (c ≠ a) = true := by
  intro c hc
  exact decide_eq_true fun heq ↦ h (heq ▸ hc)

theorem cString_eq {buf : Bytes} (h : 0 ∉ buf) : cString buf = buf :=
  List.takeWhile_eq_self_iff.mpr (ne_of_not_mem h)

theorem takeWhile_line {sep : UInt8} (hseg : sep ∉ seg) (rest : Bytes) :
    (seg ++ sep :: rest).takeWhile (· ≠ sep) = seg := by
  rw [List.takeWhile_append_of_pos (ne_of_not_mem hseg)]
  simp

theorem nul_free_pread (hnul : 0 ∉ content) (count cursor : ℕ) : 0 ∉ pread content count cursor :=
  fun h ↦ hnul (List.mem_of_mem_drop (List.mem_of_mem_take h))

theorem length_pread_le (content : Bytes) (count cursor : ℕ) :
    (pread content count cursor).length ≤ content.length - cursor := by
  rw [pread, List.length_take, List.length_drop]
  exact Nat.min_le_right _ _

theorem length_pos_of_getLast? {c : UInt8} (h : seg.getLast? = some c) : 0 < seg.length := by
  rw [List.length_pos_iff]
  rintro rfl
  cases h

/-- A chunk that ends before the newline. -/
theorem lineLoop_chunk (hnul : 0 ∉ content) {cursor turns : ℕ} {line chunk : Bytes}
    (hchunk : pread content chunkSize cursor = chunk) (hne : chunk ≠ []) (hline : newLine ∉ chunk) :
    lineLoop content (turns + 1) cursor line =
      lineLoop content turns (cursor + chunk.length) (line ++ chunk) := by
  have hbuf : cString chunk = chunk := cString_eq (hchunk ▸ nul_free_pread hnul _ _)
  rw [lineLoop, hchunk, if_neg hne, hbuf, if_neg hline]

/-- A chunk with the newline. -/
theorem lineLoop_newLine (hnul : 0 ∉ content) {cursor turns : ℕ} {line : Bytes}
    (hdrop : content.drop cursor = seg ++ newLine :: rest) (hseg : newLine ∉ seg)
    (hlt : seg.length < chunkSize) :
    lineLoop content (turns + 1) cursor line =
      if seg.getLast? = some sameLine then
        lineLoop content turns (cursor + (seg.length + 1)) (line ++ seg.dropLast)
      else some (0, cursor + (seg.length + 1), line ++ seg) := by
  have hchunk : pread content chunkSize cursor =
      seg ++ newLine :: rest.take (chunkSize - seg.length - 1) := by
    rw [pread, hdrop, List.take_append, List.take_of_length_le hlt.le,
      show chunkSize - seg.length = (chunkSize - seg.length - 1) + 1 by omega, List.take_succ_cons]
    rfl
  have hbuf : cString (pread content chunkSize cursor) = pread content chunkSize cursor :=
    cString_eq (nul_free_pread hnul _ _)
  rw [lineLoop, hbuf, hchunk, if_neg (by simp), if_pos (by simp)]
  simp only [takeWhile_line hseg]
  split
  · next hlast =>
      have hpos := length_pos_of_getLast? hlast
      rw [show seg.length - 1 + 1 + 1 = seg.length + 1 by omega]
  · rfl

theorem getLast?_drop_of_lt {n : ℕ} (h : n < seg.length) : (seg.drop n).getLast? = seg.getLast? := by
  rw [List.getLast?_drop, if_neg (by omega)]

theorem take_append_dropLast_drop {n : ℕ} (h : n < seg.length) :
    seg.take n ++ (seg.drop n).dropLast = seg.dropLast := by
  have hne : seg.drop n ≠ [] := by
    rw [ne_eq, List.drop_eq_nil_iff]
    omega
  rw [← List.dropLast_append_of_ne_nil hne, List.take_append_drop]

/-- A physical line, over as many chunks as it takes. -/
theorem lineLoop_line (hnul : 0 ∉ content) {turns cursor : ℕ} (line : Bytes) {seg : Bytes}
    (hdrop : content.drop cursor = seg ++ newLine :: rest) (hseg : newLine ∉ seg)
    (hturns : content.length < cursor + turns) :
    ∃ left, content.length < cursor + (seg.length + 1) + left ∧
      lineLoop content turns cursor line =
        if Continued seg then
          lineLoop content left (cursor + (seg.length + 1)) (line ++ seg.dropLast)
        else some (0, cursor + (seg.length + 1), line ++ seg) := by
  have hlength : content.length - cursor = seg.length + 1 + rest.length := by
    have hlen := congrArg List.length hdrop
    rw [List.length_drop, List.length_append, List.length_cons] at hlen
    omega
  induction turns generalizing cursor line seg with
  | zero => omega
  | succ turns ih =>
      by_cases hlt : seg.length < chunkSize
      · refine ⟨turns, by omega, ?_⟩
        have hcontinued : Continued seg ↔ seg.getLast? = some sameLine := by
          constructor
          · exact fun h ↦ h.1
          · intro h
            have hpos := length_pos_of_getLast? h
            exact ⟨h, by rw [Nat.mod_eq_of_lt hlt]; omega⟩
        rw [lineLoop_newLine hnul hdrop hseg hlt]
        simp only [hcontinued]
      · have hle : chunkSize ≤ seg.length := not_lt.mp hlt
        have hchunk : pread content chunkSize cursor = seg.take chunkSize := by
          rw [pread, hdrop, List.take_append_of_le_length hle]
        have hsize : (seg.take chunkSize).length = chunkSize := by
          rw [List.length_take, Nat.min_eq_left hle]
        have hdrop' : content.drop (cursor + chunkSize) =
            seg.drop chunkSize ++ newLine :: rest := by
          rw [← List.drop_drop, hdrop, List.drop_append_of_le_length hle]
        have hpos : 0 < chunkSize := by decide
        rcases @ih (cursor + chunkSize) (line ++ seg.take chunkSize) (seg.drop chunkSize) hdrop'
            (fun h ↦ hseg (List.mem_of_mem_drop h)) (by omega)
            (by rw [List.length_drop]; omega) with ⟨left, hleft, heq⟩
        rw [List.length_drop] at hleft heq
        refine ⟨left, by omega, ?_⟩
        have hne : seg.take chunkSize ≠ [] := by
          rw [← List.length_pos_iff, hsize]
          exact hpos
        rw [lineLoop_chunk hnul hchunk hne (fun h ↦ hseg (List.mem_of_mem_take h)), hsize, heq,
          List.append_assoc, List.append_assoc, List.take_append_drop,
          show cursor + chunkSize + (seg.length - chunkSize + 1) = cursor + (seg.length + 1) by omega]
        have hmod : (seg.length - chunkSize) % chunkSize = seg.length % chunkSize :=
          (Nat.mod_eq_sub_mod hle).symm
        by_cases hrest : seg.length = chunkSize
        · have hnot : ¬ Continued seg := by
            rintro ⟨-, h⟩
            rw [hrest, Nat.mod_self] at h
            exact h rfl
          have hnot' : ¬ Continued (seg.drop chunkSize) := by
            rintro ⟨-, h⟩
            rw [List.length_drop, hmod, hrest, Nat.mod_self] at h
            exact h rfl
          rw [if_neg hnot, if_neg hnot']
        · have hmore : chunkSize < seg.length := by omega
          have hiff : Continued (seg.drop chunkSize) ↔ Continued seg := by
            unfold Continued
            rw [getLast?_drop_of_lt hmore, List.length_drop, hmod]
          rw [take_append_dropLast_drop hmore]
          simp only [hiff]

/-- The end of the file, over as many chunks as it takes. -/
theorem lineLoop_end (hnul : 0 ∉ content) {turns cursor : ℕ} {line : Bytes}
    (hline : newLine ∉ content.drop cursor) (hcursor : cursor ≤ content.length)
    (hturns : content.length < cursor + turns) :
    ∃ cursor' line', lineLoop content turns cursor line = some (-2, cursor', line') := by
  induction turns generalizing cursor line with
  | zero => omega
  | succ turns ih =>
      by_cases hempty : pread content chunkSize cursor = []
      · exact ⟨cursor, line, by rw [lineLoop, if_pos hempty]⟩
      · have hsize := length_pread_le content chunkSize cursor
        have hpos := List.length_pos_iff.mpr hempty
        rw [lineLoop_chunk hnul rfl hempty fun h ↦ hline (List.mem_of_mem_take h)]
        refine ih ?_ (by omega) (by omega)
        rw [← List.drop_drop]
        exact fun h ↦ hline (List.mem_of_mem_drop h)

/-! ## The lines of a file -/

/-- `fileGetLine` reads one line of the physical lines that are left. -/
theorem lineLoop_spec (hnul : 0 ∉ content) {turns cursor : ℕ} (line : Bytes)
    (hcursor : cursor ≤ content.length) (hturns : content.length < cursor + turns) :
    match readLine ((content.drop cursor).splitOn newLine) with
    | none => ∃ cursor' line', lineLoop content turns cursor line = some (-2, cursor', line')
    | some (read, left) => ∃ cursor', lineLoop content turns cursor line =
        some (0, cursor', line ++ read) ∧ cursor < cursor' ∧ cursor' ≤ content.length ∧
        (content.drop cursor').splitOn newLine = left := by
  induction hn : content.length - cursor using Nat.strong_induction_on generalizing turns cursor line with
  | _ n ih =>
      rcases split_cases newLine (content.drop cursor) with hline | ⟨seg, rest, hseg, hdrop⟩
      · rw [List.splitOn_eq_singleton hline]
        exact lineLoop_end hnul hline hcursor hturns
      · have hlength : content.length - cursor = seg.length + 1 + rest.length := by
          have hlen := congrArg List.length hdrop
          rw [List.length_drop, List.length_append, List.length_cons] at hlen
          omega
        have hrest : content.drop (cursor + (seg.length + 1)) = rest := by
          rw [← List.drop_drop, hdrop]
          simp
        rcases splitOn_line hseg rest with ⟨next, lines, hnext, hsplit⟩
        rcases lineLoop_line hnul line hdrop hseg hturns with ⟨left, hleft, hloop⟩
        rw [hdrop, hsplit, readLine, hloop]
        by_cases hcontinued : Continued seg
        · rw [if_pos hcontinued, if_pos hcontinued]
          have hrec := @ih _ (by omega) left (cursor + (seg.length + 1)) (line ++ seg.dropLast)
            (by omega) hleft rfl
          rw [hrest, hnext] at hrec
          cases hread : readLine (next :: lines) with
          | none =>
              rw [hread] at hrec
              exact hrec
          | some out =>
              rw [hread] at hrec
              rcases hrec with ⟨cursor', heq, hlt, hle, hsplit'⟩
              exact ⟨cursor', by rw [heq, List.append_assoc], by omega, hle, hsplit'⟩
        · rw [if_neg hcontinued, if_neg hcontinued]
          exact ⟨_, rfl, by omega, by omega, by rw [hrest, hnext]⟩

theorem readLines_false (segs : List Bytes) :
    readLines false segs =
      match readLine segs with
      | none => []
      | some (line, left) => line :: readLines true left := by
  induction segs with
  | nil => rfl
  | cons seg segs ih =>
      cases segs with
      | nil => rfl
      | cons next rest =>
          rw [readLines, readLine, if_neg (by simp)]
          by_cases hcontinued : Continued seg
          · rw [if_pos hcontinued, if_pos hcontinued, ih]
            cases readLine (next :: rest) with
            | none => rfl
            | some out => rfl
          · rw [if_neg hcontinued, if_neg hcontinued]

theorem splitOn_eq_nil_iff : content.splitOn newLine = [[]] ↔ content = [] := by
  constructor
  · intro h
    have hjoin : [newLine].intercalate (content.splitOn newLine) = content :=
      List.intercalate_splitOn newLine
    rw [h] at hjoin
    exact hjoin.symm
  · rintro rfl
    rfl

/-- The check for a last byte matters only where this byte is a newline. -/
theorem readLines_true (content : Bytes) :
    readLines true (content.splitOn newLine) =
      if content.length ≤ 1 then [] else readLines false (content.splitOn newLine) := by
  rcases split_cases newLine content with hline | ⟨seg, rest, hseg, rfl⟩
  · rw [List.splitOn_eq_singleton hline]
    simp [readLines]
  · rcases splitOn_line hseg rest with ⟨next, lines, hnext, hsplit⟩
    by_cases hone : seg = [] ∧ rest = []
    · obtain ⟨rfl, rfl⟩ := hone
      rfl
    · have hlength : ¬ (seg ++ newLine :: rest).length ≤ 1 := by
        rw [List.length_append, List.length_cons]
        intro hle
        exact hone ⟨List.eq_nil_of_length_eq_zero (by omega),
          List.eq_nil_of_length_eq_zero (by omega)⟩
      have hfresh : ¬ (true = true ∧ seg = [] ∧ next :: lines = [[]]) := by
        rw [← hnext, splitOn_eq_nil_iff]
        exact fun h ↦ hone h.2
      have hinside : ¬ (false = true ∧ seg = [] ∧ next :: lines = [[]]) := by simp
      rw [if_neg hlength, hsplit, readLines, readLines, if_neg hfresh, if_neg hinside]

theorem linesFrom_eq (hnul : 0 ∉ content) {turns cursor : ℕ} (hcursor : cursor ≤ content.length)
    (hturns : content.length < cursor + turns) :
    linesFrom content turns cursor =
      some (readLines true ((content.drop cursor).splitOn newLine)) := by
  induction turns generalizing cursor with
  | zero => omega
  | succ turns ih =>
      rw [readLines_true, List.length_drop, readLines_false, linesFrom, fileGetLine]
      by_cases hend : content.length ≤ cursor + 1
      · rw [if_pos hend, if_pos (by omega)]
        rfl
      · rw [if_neg hend, if_neg (by omega)]
        have hspec := lineLoop_spec hnul [] hcursor (show content.length < cursor + (content.length + 1)
          by omega)
        cases hread : readLine ((content.drop cursor).splitOn newLine) with
        | none =>
            rw [hread] at hspec
            rcases hspec with ⟨cursor', line', heq⟩
            rw [heq]
            rfl
        | some out =>
            rw [hread] at hspec
            rcases hspec with ⟨cursor', heq, hlt, hle, hsplit⟩
            rw [heq, Option.bind_eq_bind, Option.bind_some, if_neg (by simp),
              ih hle (by omega), hsplit]
            rfl

/-- The lines that `confInit` obtains, from the physical lines of the file. -/
theorem confLines_eq (hnul : 0 ∉ content) :
    confLines content = some (readLines true (content.splitOn newLine)) := by
  rw [confLines, linesFrom_eq hnul (Nat.zero_le _) (by omega), List.drop_zero]

/-! ## When the lines are the logical ones -/

/-- No backslash before a newline is the last byte of a chunk. -/
def ChunksKeep (content : Bytes) : Prop :=
  ∀ seg ∈ (content.splitOn newLine).dropLast, seg.getLast? = some sameLine →
    seg.length % chunkSize ≠ 0

/-- The file is empty, or ends with a newline that ends a line and does not start it. -/
def LineEnded (content : Bytes) : Prop :=
  content = [] ∨ ∃ body c, content = body ++ [c, newLine] ∧ c ≠ sameLine ∧
    (c = newLine → body.getLast? = some sameLine)

theorem chunksKeep_line (hseg : newLine ∉ seg) (rest : Bytes) :
    ChunksKeep (seg ++ newLine :: rest) ↔
      (seg.getLast? = some sameLine → seg.length % chunkSize ≠ 0) ∧ ChunksKeep rest := by
  rw [ChunksKeep, List.splitOn_append_cons_self_of_not_mem hseg,
    List.dropLast_cons_of_ne_nil (List.splitOn_ne_nil newLine rest), List.forall_mem_cons]
  rfl

theorem ends_cases (content : Bytes) :
    content = [] ∨ (∃ c, content = [c]) ∨ ∃ body c e, content = body ++ [c, e] := by
  rcases List.eq_nil_or_concat content with rfl | ⟨front, e, rfl⟩
  · exact .inl rfl
  · rcases List.eq_nil_or_concat front with rfl | ⟨body, c, rfl⟩
    · exact .inr (.inl ⟨e, rfl⟩)
    · exact .inr (.inr ⟨body, c, e, by simp⟩)

theorem lineEnded_pair (body : Bytes) (c e : UInt8) :
    LineEnded (body ++ [c, e]) ↔
      e = newLine ∧ c ≠ sameLine ∧ (c = newLine → body.getLast? = some sameLine) := by
  constructor
  · rintro (hnil | ⟨body', c', heq, hrest⟩)
    · simp at hnil
    · obtain ⟨rfl, htail⟩ := List.append_inj' heq rfl
      obtain ⟨rfl, rfl⟩ : c = c' ∧ e = newLine := by simpa using htail
      exact ⟨rfl, hrest⟩
  · rintro ⟨rfl, hrest⟩
    exact .inr ⟨body, c, rfl, hrest⟩

theorem not_lineEnded_single (c : UInt8) : ¬ LineEnded [c] := by
  rintro (hnil | ⟨body, c', heq, -⟩)
  · cases hnil
  · have hlength := congrArg List.length heq
    simp at hlength

/-- What stands in front of a continued line does not count. -/
theorem lineEnded_continued (front rest : Bytes) :
    LineEnded (front ++ sameLine :: newLine :: rest) ↔ LineEnded (sameLine :: newLine :: rest) := by
  rcases ends_cases rest with rfl | ⟨c, rfl⟩ | ⟨body, c, e, rfl⟩
  · have hpair : LineEnded [sameLine, newLine] ↔ _ := lineEnded_pair [] sameLine newLine
    rw [lineEnded_pair, hpair]
    simp
  · have hpair : LineEnded [sameLine, newLine, c] ↔ _ := lineEnded_pair [sameLine] newLine c
    have hpair' := lineEnded_pair (front ++ [sameLine]) newLine c
    rw [List.append_assoc, List.singleton_append] at hpair'
    rw [hpair', hpair]
    simp
  · have hpair := lineEnded_pair (sameLine :: newLine :: body) c e
    have hpair' := lineEnded_pair (front ++ sameLine :: newLine :: body) c e
    rw [List.append_assoc] at hpair'
    simp only [List.cons_append] at hpair hpair'
    rw [hpair, hpair']
    simp

/-- Neither does a line that is ended in front of another one. -/
theorem lineEnded_line {front rest : Bytes} (hfront : front.getLast? ≠ some sameLine)
    (hrest : rest ≠ []) : LineEnded (front ++ newLine :: rest) ↔ LineEnded rest := by
  rcases ends_cases rest with rfl | ⟨c, rfl⟩ | ⟨body, c, e, rfl⟩
  · exact absurd rfl hrest
  · rw [lineEnded_pair]
    simp [hfront, not_lineEnded_single]
  · have hpair := lineEnded_pair (front ++ newLine :: body) c e
    rw [List.append_assoc, List.cons_append] at hpair
    rw [hpair, lineEnded_pair]
    cases body with
    | nil => simp [newLine, sameLine]
    | cons b body => simp

/-- A line that is ended at the end of the file. -/
theorem lineEnded_last {front : Bytes} (hfront : front.getLast? ≠ some sameLine)
    (hline : newLine ∉ front) : LineEnded (front ++ [newLine]) ↔ front ≠ [] := by
  rcases List.eq_nil_or_concat front with rfl | ⟨body, c, rfl⟩
  · simp [not_lineEnded_single]
  · have hpair := lineEnded_pair body c newLine
    rw [List.concat_eq_append] at hfront hline ⊢
    rw [List.append_assoc, List.singleton_append, hpair]
    have hc : c ≠ newLine := by
      rintro rfl
      simp at hline
    simpa [hc] using hfront

theorem not_lineEnded_of_not_mem (hline : newLine ∉ content) : LineEnded content ↔ content = [] := by
  constructor
  · rintro (hnil | ⟨body, c, rfl, -⟩)
    · exact hnil
    · simp at hline
  · exact .inl

/-- What follows a continued line and has no newline does not end it. -/
theorem not_lineEnded_unended (hline : newLine ∉ content) :
    ¬ LineEnded (sameLine :: newLine :: content) := by
  rcases List.eq_nil_or_concat content with rfl | ⟨front, e, rfl⟩
  · intro h
    exact ((lineEnded_pair [] sameLine newLine).mp h).2.1 rfl
  · rw [List.concat_eq_append] at hline ⊢
    have he : e ≠ newLine := by
      rintro rfl
      simp at hline
    rintro (hnil | ⟨body, c, heq, -⟩)
    · cases hnil
    · have hconcat : (sameLine :: newLine :: front) ++ [e] = (body ++ [c]) ++ [newLine] := by
        simpa using heq
      exact he (by simpa using (List.append_inj' hconcat rfl).2)

theorem joinLines_eq_nil {segs : List Bytes} (h : segs ≠ []) : joinLines segs = [] ↔ segs = [[]] := by
  cases segs with
  | nil => exact absurd rfl h
  | cons seg segs =>
      cases segs with
      | nil => simp [joinLines]
      | cons next rest =>
          rw [joinLines]
          split
          · cases joinLines (next :: rest) with
            | nil => simp [prependLine]
            | cons line lines => simp [prependLine]
          · simp

/-- A continued line: it is obtained right if the rest of it is obtained, and right. -/
theorem prepend_eq_iff (part : Bytes) {read lines : List Bytes} (hnil : lines = [] → read = []) :
    continueLine part read = prependLine part lines ↔ read = lines ∧ read ≠ [] := by
  cases read with
  | nil =>
      cases lines with
      | nil => simp [prependLine, continueLine]
      | cons line rest => simp [prependLine, continueLine]
  | cons line rest =>
      cases lines with
      | nil => cases hnil rfl
      | cons line' rest' => simp [prependLine, continueLine]

/-- A line that is ended in the file. -/
theorem lineEnded_line_iff (hseg : newLine ∉ seg) (hlast : seg.getLast? ≠ some sameLine)
    (hone : ¬ (seg = [] ∧ rest = [])) : LineEnded (seg ++ newLine :: rest) ↔ LineEnded rest := by
  by_cases hrest : rest = []
  · subst hrest
    rw [lineEnded_last hlast hseg]
    simpa [LineEnded] using hone
  · exact lineEnded_line hlast hrest

/-- The same behind a continued line. -/
theorem lineEnded_behind_iff (hseg : newLine ∉ seg) (hlast : seg.getLast? ≠ some sameLine) :
    LineEnded (sameLine :: newLine :: (seg ++ newLine :: rest)) ↔ LineEnded rest := by
  have hfront : (sameLine :: newLine :: seg).getLast? ≠ some sameLine := by
    cases seg with
    | nil => decide
    | cons c seg => simpa using hlast
  by_cases hrest : rest = []
  · subst hrest
    have hended : LineEnded (sameLine :: newLine :: (seg ++ [newLine])) := by
      rcases List.eq_nil_or_concat seg with rfl | ⟨body, c, rfl⟩
      · exact (lineEnded_pair [sameLine] newLine newLine).mpr ⟨rfl, by decide, fun _ ↦ rfl⟩
      · rw [List.concat_eq_append] at hseg hlast ⊢
        have hc : c ≠ newLine := by
          rintro rfl
          simp at hseg
        have hpair := (lineEnded_pair (sameLine :: newLine :: body) c newLine).mpr
          ⟨rfl, by simpa using hlast, fun h ↦ absurd h hc⟩
        simpa using hpair
    exact iff_of_true hended (.inl rfl)
  · exact lineEnded_line hfront hrest

theorem readLines_continued (fresh : Bool) {next : Bytes} {lines : List Bytes}
    (h : Continued seg) :
    readLines fresh (seg :: next :: lines) =
      continueLine seg.dropLast (readLines false (next :: lines)) := by
  have hne : ¬ (fresh = true ∧ seg = [] ∧ next :: lines = [[]]) := by
    rintro ⟨-, rfl, -⟩
    cases h.1
  rw [readLines, if_neg hne, if_pos h]

theorem readLines_ended {fresh : Bool} {next : Bytes} {lines : List Bytes}
    (hlast : seg.getLast? ≠ some sameLine)
    (hone : ¬ (fresh = true ∧ seg = [] ∧ next :: lines = [[]])) :
    readLines fresh (seg :: next :: lines) = seg :: readLines true (next :: lines) := by
  rw [readLines, if_neg hone, if_neg fun h ↦ hlast h.1]

/-- The lines obtained are the logical ones, from the beginning of a line on and inside a line. -/
theorem readLines_eq_iff (hkeep : ChunksKeep content) :
    (readLines true (content.splitOn newLine) = logicalLines content ↔ LineEnded content) ∧
    ((readLines false (content.splitOn newLine) = logicalLines content ∧
        readLines false (content.splitOn newLine) ≠ []) ↔
      LineEnded (sameLine :: newLine :: content)) := by
  induction hn : content.length using Nat.strong_induction_on generalizing content with
  | _ n ih =>
      rcases split_cases newLine content with hline | ⟨seg, rest, hseg, rfl⟩
      · rw [logicalLines, List.splitOn_eq_singleton hline, not_lineEnded_of_not_mem hline]
        constructor
        · simp [readLines, joinLines]
        · simp [readLines, not_lineEnded_unended hline]
      · rcases (chunksKeep_line hseg rest).mp hkeep with ⟨hchunk, hkeep'⟩
        have hrec := ih rest.length (by
          rw [← hn, List.length_append, List.length_cons]
          omega) hkeep' rfl
        rcases splitOn_line hseg rest with ⟨next, lines, hnext, hsplit⟩
        rw [logicalLines, hnext] at hrec
        rw [logicalLines, hsplit, joinLines]
        by_cases hlast : seg.getLast? = some sameLine
        · -- both join the line with what follows; the rest of the line decides
          have hcontinued : Continued seg := ⟨hlast, hchunk hlast⟩
          have hnil : joinLines (next :: lines) = [] → readLines false (next :: lines) = [] := by
            intro h
            rw [(joinLines_eq_nil (List.cons_ne_nil _ _)).mp h]
            rfl
          have hprepend := prepend_eq_iff seg.dropLast hnil
          have hended : LineEnded (seg ++ newLine :: rest) ↔
              LineEnded (sameLine :: newLine :: rest) := by
            rw [← List.dropLast_append_getLast? sameLine hlast, List.append_assoc,
              List.singleton_append]
            exact lineEnded_continued _ _
          have hended' : LineEnded (sameLine :: newLine :: (seg ++ newLine :: rest)) ↔
              LineEnded (sameLine :: newLine :: rest) := by
            rw [← List.dropLast_append_getLast? sameLine hlast, List.append_assoc,
              List.singleton_append]
            exact lineEnded_continued (sameLine :: newLine :: seg.dropLast) rest
          rw [if_pos hlast, readLines_continued true hcontinued, readLines_continued false hcontinued,
            hprepend, hended, hended', hrec.2]
          refine ⟨Iff.rfl, and_iff_left_of_imp fun h ↦ ?_⟩
          rcases List.exists_cons_of_ne_nil (hrec.2.mpr h).2 with ⟨line, left, hread⟩
          rw [hread]
          exact List.cons_ne_nil _ _
        · -- both end the line here, but for a newline that is the last byte
          have hinside : ¬ (false = true ∧ seg = [] ∧ next :: lines = [[]]) := by simp
          rw [if_neg hlast]
          constructor
          · by_cases hone : seg = [] ∧ rest = []
            · obtain ⟨rfl, rfl⟩ := hone
              obtain ⟨rfl, rfl⟩ : next = [] ∧ lines = [] := by simpa using hnext.symm
              simp [readLines, not_lineEnded_single]
            · have hfresh : ¬ (true = true ∧ seg = [] ∧ next :: lines = [[]]) := by
                rw [← hnext, splitOn_eq_nil_iff]
                exact fun h ↦ hone h.2
              rw [readLines_ended hlast hfresh, List.cons_inj_right, hrec.1,
                lineEnded_line_iff hseg hlast hone]
          · rw [readLines_ended hlast hinside, List.cons_inj_right, hrec.1,
              lineEnded_behind_iff hseg hlast]
            simp

/-! ## Backslashes at the end of a line -/

/-- A line obtained from a physical line that ends in a backslash at the end of a chunk keeps it. -/
theorem readLines_keeps_backslash (fresh : Bool) {segs : List Bytes}
    (h : ∃ seg ∈ segs.dropLast, seg.getLast? = some sameLine ∧ seg.length % chunkSize = 0) :
    ∃ line ∈ readLines fresh segs, line.getLast? = some sameLine := by
  induction segs generalizing fresh with
  | nil => simp at h
  | cons seg segs ih =>
      cases segs with
      | nil => simp at h
      | cons next rest =>
          rw [List.dropLast_cons_cons] at h
          by_cases hlater : ∃ seg ∈ (next :: rest).dropLast,
              seg.getLast? = some sameLine ∧ seg.length % chunkSize = 0
          · have hone : ¬ (fresh = true ∧ seg = [] ∧ next :: rest = [[]]) := by
              rintro ⟨-, -, heq⟩
              rw [heq] at hlater
              simp at hlater
            rw [readLines, if_neg hone]
            by_cases hcontinued : Continued seg
            · rw [if_pos hcontinued]
              rcases ih false hlater with ⟨line, hline, hlast⟩
              rcases List.exists_cons_of_ne_nil (List.ne_nil_of_mem hline) with ⟨head, left, hread⟩
              rw [hread] at hline ⊢
              rcases List.mem_cons.mp hline with rfl | hline
              · refine ⟨_, List.mem_cons_self, ?_⟩
                rw [List.getLast?_append, hlast]
                rfl
              · exact ⟨line, List.mem_cons_of_mem _ hline, hlast⟩
            · rw [if_neg hcontinued]
              rcases ih true hlater with ⟨line, hline, hlast⟩
              exact ⟨line, List.mem_cons_of_mem _ hline, hlast⟩
          · obtain ⟨hlast, hmod⟩ : seg.getLast? = some sameLine ∧ seg.length % chunkSize = 0 := by
              rcases h with ⟨seg', hseg', h⟩
              rcases List.mem_cons.mp hseg' with rfl | hseg'
              · exact h
              · exact absurd ⟨seg', hseg', h⟩ hlater
            have hone : ¬ (fresh = true ∧ seg = [] ∧ next :: rest = [[]]) := by
              rintro ⟨-, rfl, -⟩
              cases hlast
            rw [readLines, if_neg hone, if_neg fun h ↦ h.2 hmod]
            exact ⟨seg, List.mem_cons_self, hlast⟩

/-- A line without two backslashes in a row, without its last backslash. -/
theorem getLast?_dropLast_ne (h : ¬ [sameLine, sameLine] <:+: seg)
    (hlast : seg.getLast? = some sameLine) : seg.dropLast.getLast? ≠ some sameLine := by
  intro hbefore
  apply h
  rw [← List.dropLast_append_getLast? sameLine hlast,
    ← List.dropLast_append_getLast? sameLine hbefore, List.append_assoc]
  exact List.infix_append' _ _ _

/-- Without two backslashes in a row no logical line ends in one. -/
theorem joinLines_getLast? {segs : List Bytes} (h : ∀ seg ∈ segs, ¬ [sameLine, sameLine] <:+: seg) :
    ∀ line ∈ joinLines segs, line.getLast? ≠ some sameLine := by
  induction segs with
  | nil => simp [joinLines]
  | cons seg segs ih =>
      rcases List.forall_mem_cons.mp h with ⟨hseg, hsegs⟩
      cases segs with
      | nil =>
          rw [joinLines]
          split
          · simp
          · split
            · next hlast => simpa using getLast?_dropLast_ne hseg hlast
            · next hlast => simpa using hlast
      | cons next rest =>
          have hrest := ih hsegs
          rw [joinLines]
          split
          · next hlast =>
              have hpart := getLast?_dropLast_ne hseg hlast
              cases hjoin : joinLines (next :: rest) with
              | nil => simpa [prependLine] using hpart
              | cons line lines =>
                  rw [hjoin] at hrest
                  rcases List.forall_mem_cons.mp hrest with ⟨hline, hlines⟩
                  rw [prependLine, List.forall_mem_cons]
                  refine ⟨?_, hlines⟩
                  rw [List.getLast?_append]
                  cases hlast' : line.getLast? with
                  | none => simpa using hpart
                  | some c => simpa [hlast'] using hline
          · next hlast => exact List.forall_mem_cons.mpr ⟨hlast, hrest⟩

theorem infix_of_mem_splitOn (hmem : seg ∈ content.splitOn newLine) : seg <:+: content := by
  induction hn : content.length using Nat.strong_induction_on generalizing content with
  | _ n ih =>
      rcases split_cases newLine content with hline | ⟨front, rest, hfront, rfl⟩
      · rw [List.splitOn_eq_singleton hline, List.mem_singleton] at hmem
        rw [hmem]
      · rw [List.splitOn_append_cons_self_of_not_mem hfront] at hmem
        rcases List.mem_cons.mp hmem with rfl | hmem
        · exact (List.prefix_append _ _).isInfix
        · have hlength : rest.length < n := by
            rw [← hn, List.length_append, List.length_cons]
            omega
          have hsuffix : rest <:+ front ++ newLine :: rest :=
            (List.suffix_cons _ _).trans (List.suffix_append _ _)
          exact (ih rest.length hlength hmem rfl).trans hsuffix.isInfix

/-- For a file without NUL bytes: the lines obtained are the logical lines just if no backslash before
a newline is the last byte of a chunk, and the file is empty or ends with a newline that ends a line
and does not start it.  A backslash at the end of a chunk can go unnoticed only in a file with two
backslashes in a row. -/
theorem config_lines_iff (hnul : 0 ∉ content)
    (hplain : ChunksKeep content ∨ ¬ [sameLine, sameLine] <:+: content) :
    confLines content = some (logicalLines content) ↔ ChunksKeep content ∧ LineEnded content := by
  rw [confLines_eq hnul, Option.some_inj]
  by_cases hkeep : ChunksKeep content
  · rw [(readLines_eq_iff hkeep).1]
    exact (and_iff_right hkeep).symm
  · refine iff_of_false ?_ fun h ↦ hkeep h.1
    intro heq
    have hdouble := hplain.resolve_left hkeep
    have hbackslash : ∃ seg ∈ (content.splitOn newLine).dropLast,
        seg.getLast? = some sameLine ∧ seg.length % chunkSize = 0 := by
      simpa [ChunksKeep] using hkeep
    rcases readLines_keeps_backslash true hbackslash with ⟨line, hline, hlast⟩
    rw [heq] at hline
    exact joinLines_getLast? (fun seg hseg hinside ↦
      hdouble (hinside.trans (infix_of_mem_splitOn hseg))) line hline hlast

/-- `a=1`, and `b` and `=2` on a continued line. -/
def continuedFile : Bytes := [97, 61, 49, 10, 98, 92, 10, 61, 50, 10]

instance (content : Bytes) : Decidable (ChunksKeep content) :=
  inferInstanceAs (Decidable (∀ _ ∈ _, _ → _))

theorem config_lines_continued :
    confLines continuedFile = some (logicalLines continuedFile) ∧
      logicalLines continuedFile = [[97, 61, 49], [98, 61, 50]] := by
  have hended : LineEnded continuedFile :=
    .inr ⟨[97, 61, 49, 10, 98, 92, 10, 61], 50, rfl, by decide, by decide⟩
  have hkeep : ChunksKeep continuedFile := by decide
  exact ⟨(config_lines_iff (by decide) (.inl hkeep)).mpr ⟨hkeep, hended⟩, by decide⟩

/-- The last line without a newline is lost, so is a last empty line, and a backslash that is the last
byte of a chunk is kept. -/
theorem config_lines_lost :
    (confLines [97, 61, 49, 10, 98, 61, 50] = some [[97, 61, 49]] ∧
      logicalLines [97, 61, 49, 10, 98, 61, 50] = [[97, 61, 49], [98, 61, 50]]) ∧
    (confLines [97, 61, 49, 10, 10] = some [[97, 61, 49]] ∧
      logicalLines [97, 61, 49, 10, 10] = [[97, 61, 49], []]) ∧
    confLines (List.replicate 1022 97 ++ [92, 10, 98, 10]) ≠
      some (logicalLines (List.replicate 1022 97 ++ [92, 10, 98, 10])) := by
  refine ⟨⟨by decide, by decide⟩, ⟨by decide, by decide⟩, ?_⟩
  decide +kernel

end CPractice.Conf
