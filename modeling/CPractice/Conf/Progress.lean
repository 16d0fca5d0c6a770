import CPractice.Conf.Lines

/-!
# Reading that does not end

A turn of the loop in `fileGetLine` takes the C string at the start of its chunk.  Before the first NUL
of a file this is as if the file ended there.  At the NUL the C string is empty: the cursor stays, and
the next turn finds the same.  So a file with a NUL is read to an end only if the NUL is its last byte
and a line would begin with it, since a last byte is not looked at there.
-/

namespace CPractice.Conf

variable {content front back : Bytes} {cursor : ℕ}

/-! ## Calls that return -/

/-- `fileGetLine` with a bound on the turns of its loop. -/
def getLine (content : Bytes) (turns cursor : ℕ) : Option (ℤ × ℕ × Bytes) :=
  if content.length ≤ cursor + 1 then some (-1, cursor, [])
  else lineLoop content turns cursor []

/-- The call of `fileGetLine` at a position returns. -/
def GetsLine (content : Bytes) (cursor : ℕ) (out : ℤ × ℕ × Bytes) : Prop :=
  ∃ turns, getLine content turns cursor = some out

/-- The loop of `confInit` ends with these lines, from a position on. -/
inductive Reads (content : Bytes) : ℕ → List Bytes → Prop where
  | stop {cursor : ℕ} {out : ℤ × ℕ × Bytes} (hcall : GetsLine content cursor out) (hcode : out.1 ≠ 0) :
      Reads content cursor []
  | line {cursor cursor' : ℕ} {line : Bytes} {lines : List Bytes}
      (hcall : GetsLine content cursor (0, cursor', line)) (hrest : Reads content cursor' lines) :
      Reads content cursor (line :: lines)

/-- The positions at which `confInit` calls `fileGetLine`. -/
inductive Called (content : Bytes) : ℕ → Prop where
  | first : Called content 0
  | next {cursor cursor' : ℕ} {line : Bytes} (hcalled : Called content cursor)
      (hcall : GetsLine content cursor (0, cursor', line)) : Called content cursor'

/-- The call at a position returns an error or moves the position on. -/
def Progresses (content : Bytes) (cursor : ℕ) : Prop :=
  ∃ out, GetsLine content cursor out ∧ (out.1 ≠ 0 ∨ cursor < out.2.1)

/-- Nothing is behind the last newline, and it ends a line. -/
def AllLines (segs : List Bytes) : Prop :=
  segs.getLast? = some [] ∧ ∀ seg, segs.dropLast.getLast? = some seg → ¬ Continued seg

/-- There is no NUL, or it is the last byte and a line would begin with it. -/
def NulUnread (content : Bytes) : Prop :=
  0 ∉ content ∨
    ∃ front, content = front ++ [0] ∧ 0 ∉ front ∧ AllLines (front.splitOn newLine)

/-! ## The turns of a loop that ends -/

theorem lt_of_pread_ne_nil {count : ℕ} (h : pread content count cursor ≠ []) :
    cursor < content.length := by
  by_contra hle
  exact h (by rw [pread, List.drop_of_length_le (by omega), List.take_nil])

theorem lineLoop_lt {turns cursor' : ℕ} {line line' : Bytes}
    (h : lineLoop content turns cursor line = some (0, cursor', line')) : cursor < cursor' := by
  induction turns generalizing cursor line with
  | zero => cases h
  | succ turns ih =>
      simp only [lineLoop] at h
      split_ifs at h with hchunk hline hlast
      · cases h
      · have hlt := ih h
        omega
      · obtain ⟨-, rfl, -⟩ : (0 : ℤ) = 0 ∧ _ = cursor' ∧ _ = line' := by simpa using h
        omega
      · have hlt := ih h
        omega

/-- More turns than bytes are enough for a loop that ends: a turn that does not move the cursor is
repeated. -/
theorem lineLoop_enough {turns enough : ℕ} {line : Bytes} {out : ℤ × ℕ × Bytes}
    (h : lineLoop content turns cursor line = some out) (hpos : 0 < enough)
    (henough : content.length < cursor + enough) :
    lineLoop content enough cursor line = some out := by
  induction turns generalizing cursor line enough with
  | zero => cases h
  | succ turns ih =>
      cases enough with
      | zero => cases hpos
      | succ enough =>
          by_cases hstuck : cString (pread content chunkSize cursor) = []
          · by_cases hchunk : pread content chunkSize cursor = []
            · simp only [lineLoop, if_pos hchunk] at h ⊢
              exact h
            · refine ih ?_ hpos henough
              simpa only [lineLoop, if_neg hchunk, hstuck, List.not_mem_nil, if_false, List.length_nil,
                Nat.add_zero, List.append_nil] using h
          · have hlength := List.length_pos_iff.mpr hstuck
            simp only [lineLoop] at h ⊢
            split_ifs at h ⊢ with hchunk hline hlast
            · exact h
            · have hlt := lt_of_pread_ne_nil hchunk
              exact ih h (by omega) (by omega)
            · exact h
            · have hlt := lt_of_pread_ne_nil hchunk
              exact ih h (by omega) (by omega)

/-! ## At the first NUL -/

/-- A cursor at a NUL: no number of turns ends the loop. -/
theorem lineLoop_stuck (hchunk : pread content chunkSize cursor ≠ [])
    (hstuck : cString (pread content chunkSize cursor) = []) (turns : ℕ) (line : Bytes) :
    lineLoop content turns cursor line = none := by
  induction turns generalizing line with
  | zero => rfl
  | succ turns ih =>
      rw [lineLoop, if_neg hchunk, hstuck, if_neg List.not_mem_nil]
      exact ih _

section FirstNul

variable (hfront : 0 ∉ front) (hcursor : cursor ≤ front.length)

include hcursor

theorem pread_front_ne_nil : pread (front ++ 0 :: back) chunkSize cursor ≠ [] := by
  rw [pread, List.drop_append_of_le_length hcursor]
  simp [chunkSize]

include hfront

/-- Up to the first NUL the buffer holds what it would hold if the file ended there. -/
theorem cString_pread_front :
    cString (pread (front ++ 0 :: back) chunkSize cursor) = pread front chunkSize cursor := by
  have hmem : 0 ∉ (front.drop cursor).take chunkSize := nul_free_pread hfront chunkSize cursor
  have hrest : ∀ n, ((0 :: back).take n).takeWhile (· ≠ 0) = [] := by
    intro n
    cases n with
    | zero => rfl
    | succ n => simp
  rw [pread, List.drop_append_of_le_length hcursor, List.take_append, cString,
    List.takeWhile_append_of_pos (ne_of_not_mem hmem), hrest, List.append_nil, pread]

/-- A line that ends before the NUL is obtained; where the file would end, the loop does not. -/
theorem lineLoop_front (turns : ℕ) (line : Bytes) :
    lineLoop (front ++ 0 :: back) turns cursor line =
      (lineLoop front turns cursor line).filter fun out ↦ out.1 = 0 := by
  induction turns generalizing cursor line with
  | zero => rfl
  | succ turns ih =>
      have hbuf : cString (pread (front ++ 0 :: back) chunkSize cursor) =
          pread front chunkSize cursor := cString_pread_front hfront hcursor
      have hchunk : pread (front ++ 0 :: back) chunkSize cursor ≠ [] := pread_front_ne_nil hcursor
      by_cases hempty : pread front chunkSize cursor = []
      · rw [lineLoop_stuck hchunk (hbuf.trans hempty), lineLoop, if_pos hempty]
        rfl
      · have hsize := length_pread_le front chunkSize cursor
        rw [lineLoop, lineLoop, if_neg hchunk, if_neg hempty, hbuf,
          cString_eq (nul_free_pread hfront _ _)]
        rcases split_cases newLine (pread front chunkSize cursor) with hline | ⟨seg, rest, hseg, heq⟩
        · rw [if_neg hline, if_neg hline]
          exact ih (by omega) _
        · rw [heq, List.length_append, List.length_cons] at hsize
          have hline : newLine ∈ seg ++ newLine :: rest := by simp
          simp only [heq, if_pos hline, takeWhile_line hseg]
          by_cases hlast : seg.getLast? = some sameLine
          · have hpos := length_pos_of_getLast? hlast
            rw [if_pos hlast, if_pos hlast]
            exact ih (by omega) _
          · rw [if_neg hlast, if_neg hlast]
            rfl

end FirstNul

/-! ## The physical lines in front of it -/

theorem allLines_cons {seg next : Bytes} {rest : List Bytes} :
    AllLines (seg :: next :: rest) ↔
      AllLines (next :: rest) ∧ (rest = [] → ¬ Continued seg) := by
  have hlast : (seg :: next :: rest).getLast? = (next :: rest).getLast? := List.getLast?_cons_cons
  unfold AllLines
  rw [hlast, List.dropLast_cons_cons]
  cases rest with
  | nil => simp
  | cons third rest =>
      rw [List.dropLast_cons_cons, List.getLast?_cons_cons]
      simp

/-- Reading a line leaves the question open; where no line is read nothing may be left. -/
theorem allLines_readLine (segs : List Bytes) :
    match readLine segs with
    | none => AllLines segs → segs = [[]]
    | some (_, left) => AllLines segs ↔ AllLines left := by
  induction segs with
  | nil => exact fun h ↦ absurd h.1 (by simp)
  | cons seg segs ih =>
      cases segs with
      | nil =>
          intro h
          obtain rfl : seg = [] := Option.some.inj h.1
          rfl
      | cons next rest =>
          rw [readLine]
          by_cases hcontinued : Continued seg
          · rw [if_pos hcontinued]
            cases hread : readLine (next :: rest) with
            | none =>
                rw [hread] at ih
                intro h
                rcases allLines_cons.mp h with ⟨hnext, hrest⟩
                exact absurd hcontinued (hrest (List.cons.inj (ih hnext)).2)
            | some out =>
                rw [hread] at ih
                have hne : rest ≠ [] := by
                  rintro rfl
                  cases hread
                exact (allLines_cons.trans (and_iff_left fun h ↦ absurd h hne)).trans ih
          · rw [if_neg hcontinued]
            exact allLines_cons.trans (and_iff_left fun _ ↦ hcontinued)

/-! ## Runs of `confInit` -/

/-- The bound of `fileGetLine` in the model is enough. -/
theorem getsLine_iff {out : ℤ × ℕ × Bytes} :
    GetsLine content cursor out ↔ fileGetLine content cursor = some out := by
  unfold GetsLine getLine fileGetLine
  split_ifs with hend
  · exact exists_const ℕ
  · constructor
    · rintro ⟨turns, hloop⟩
      exact lineLoop_enough hloop (by omega) (by omega)
    · exact fun hloop ↦ ⟨_, hloop⟩

theorem GetsLine.unique {out out' : ℤ × ℕ × Bytes} (h : GetsLine content cursor out)
    (h' : GetsLine content cursor out') : out = out' :=
  Option.some.inj ((getsLine_iff.mp h).symm.trans (getsLine_iff.mp h'))

theorem GetsLine.lt {cursor' : ℕ} {line : Bytes} (h : GetsLine content cursor (0, cursor', line)) :
    cursor < cursor' := by
  have hcall := getsLine_iff.mp h
  rw [fileGetLine] at hcall
  split_ifs at hcall
  · cases hcall
  · exact lineLoop_lt hcall

theorem exists_reads_iff {cursor' : ℕ} {line : Bytes}
    (hcall : GetsLine content cursor (0, cursor', line)) :
    (∃ lines, Reads content cursor lines) ↔ ∃ lines, Reads content cursor' lines := by
  constructor
  · rintro ⟨lines, hreads⟩
    cases hreads with
    | stop hcall' hcode => exact absurd (congrArg Prod.fst (hcall'.unique hcall)) hcode
    | line hcall' hrest =>
        cases hcall'.unique hcall
        exact ⟨_, hrest⟩
  · rintro ⟨lines, hrest⟩
    exact ⟨_, .line hcall hrest⟩

/-- Where the run ends every call returns. -/
theorem progresses_of_reads (h : ∃ lines, Reads content 0 lines) (hcalled : Called content cursor) :
    Progresses content cursor := by
  have hreads : ∃ lines, Reads content cursor lines := by
    induction hcalled with
    | first => exact h
    | next hcalled hcall ih => exact (exists_reads_iff hcall).mp ih
  rcases hreads with ⟨lines, hreads⟩
  cases hreads with
  | stop hcall hcode => exact ⟨_, hcall, .inl hcode⟩
  | line hcall hrest => exact ⟨_, hcall, .inr hcall.lt⟩

theorem reads_of_linesFrom {turns : ℕ} {lines : List Bytes}
    (h : linesFrom content turns cursor = some lines) : Reads content cursor lines := by
  induction turns generalizing cursor lines with
  | zero => cases h
  | succ turns ih =>
      rcases Option.bind_eq_some_iff.mp h with ⟨⟨code, cursor', line⟩, hcall, h⟩
      by_cases hcode : code ≠ 0
      · rw [if_pos hcode] at h
        rw [← Option.some.inj h]
        exact .stop (getsLine_iff.mpr hcall) hcode
      · obtain rfl := not_not.mp hcode
        rw [if_neg hcode] at h
        rcases Option.bind_eq_some_iff.mp h with ⟨rest, hrest, h⟩
        rw [← Option.some.inj h]
        exact .line (getsLine_iff.mpr hcall) (ih hrest)

/-- A file with a NUL, from a position before it or at it. -/
theorem exists_reads_front_iff (hfront : 0 ∉ front) (hcursor : cursor ≤ front.length) :
    (∃ lines, Reads (front ++ 0 :: back) cursor lines) ↔
      back = [] ∧ AllLines ((front.drop cursor).splitOn newLine) := by
  have hlength : (front ++ 0 :: back).length = front.length + back.length + 1 := by simp; omega
  induction hn : front.length - cursor using Nat.strong_induction_on generalizing cursor with
  | _ n ih =>
      by_cases hend : (front ++ 0 :: back).length ≤ cursor + 1
      · have hreads : Reads (front ++ 0 :: back) cursor [] :=
          .stop (getsLine_iff.mpr (if_pos hend)) (show (-1 : ℤ) ≠ 0 by decide)
        have hback : back = [] := List.eq_nil_of_length_eq_zero (by omega)
        rw [List.drop_of_length_le (by omega)]
        exact iff_of_true ⟨[], hreads⟩ ⟨hback, rfl, by simp⟩
      · have hspec := lineLoop_spec hfront [] hcursor
          (show front.length < cursor + (front.length + 1) by omega)
        have hcall : ∀ out, GetsLine (front ++ 0 :: back) cursor out →
            lineLoop front (front.length + 1) cursor [] = some out ∧ out.1 = 0 := by
          rintro out ⟨turns, hout⟩
          rw [getLine, if_neg hend, lineLoop_front hfront hcursor, Option.filter_eq_some_iff] at hout
          exact ⟨lineLoop_enough hout.1 (by omega) (by omega), of_decide_eq_true hout.2⟩
        have hread := allLines_readLine ((front.drop cursor).splitOn newLine)
        cases hline : readLine ((front.drop cursor).splitOn newLine) with
        | none =>
            rw [hline] at hspec hread
            rcases hspec with ⟨cursor', line', hloop⟩
            have hnone : ∀ out, ¬ GetsLine (front ++ 0 :: back) cursor out := by
              intro out hout
              rcases hcall out hout with ⟨hout, hcode⟩
              rw [← Option.some.inj (hloop.symm.trans hout)] at hcode
              cases hcode
            refine iff_of_false ?_ ?_
            · rintro ⟨lines, hreads⟩
              cases hreads with
              | stop hcall _ => exact hnone _ hcall
              | line hcall _ => exact hnone _ hcall
            · rintro ⟨rfl, hall⟩
              have hdrop := List.drop_eq_nil_iff.mp (splitOn_eq_nil_iff.mp (hread hall))
              rw [List.length_nil] at hlength
              omega
        | some out =>
            rw [hline] at hspec hread
            rcases hspec with ⟨cursor', hloop, hlt, hle, hleft⟩
            have hgets : GetsLine (front ++ 0 :: back) cursor (0, cursor', [] ++ out.1) := by
              refine ⟨front.length + 1, ?_⟩
              rw [getLine, if_neg hend, lineLoop_front hfront hcursor, hloop]
              rfl
            have hrest : (∃ lines, Reads (front ++ 0 :: back) cursor' lines) ↔
                back = [] ∧ AllLines ((front.drop cursor').splitOn newLine) := ih _ (by omega) hle rfl
            have hall : AllLines ((front.drop cursor).splitOn newLine) ↔ AllLines out.2 := hread
            rw [exists_reads_iff hgets, hrest, hleft, hall]

theorem nulUnread_append_iff (hfront : 0 ∉ front) :
    NulUnread (front ++ 0 :: back) ↔ back = [] ∧ AllLines (front.splitOn newLine) := by
  have htake : ∀ l rest : Bytes, 0 ∉ l → (l ++ 0 :: rest).takeWhile (· ≠ 0) = l :=
    fun _ rest hl ↦ takeWhile_line hl rest
  constructor
  · rintro (hnul | ⟨front', heq, hfront', hall⟩)
    · exact absurd (by simp) hnul
    · obtain rfl : front = front' := by
        rw [← htake front back hfront, heq, htake front' [] hfront']
      exact ⟨(List.cons.inj (List.append_cancel_left heq)).2, hall⟩
  · rintro ⟨rfl, hall⟩
    exact .inr ⟨front, rfl, hfront, hall⟩

/-- For every content of the file: the loop of `confInit` ends, and each of its calls of `fileGetLine`
returns an error or moves the position on, just if there is no NUL in the file, or only as the last
byte, where a line would begin. -/
theorem config_reading_ends_iff (content : Bytes) :
    ((∃ lines, Reads content 0 lines) ∧ ∀ cursor, Called content cursor → Progresses content cursor) ↔
      NulUnread content := by
  calc
    _ ↔ ∃ lines, Reads content 0 lines :=
      and_iff_left_of_imp fun h _ hcalled ↦ progresses_of_reads h hcalled
    _ ↔ NulUnread content := by
      by_cases hnul : 0 ∈ content
      · rcases List.eq_append_cons_of_mem hnul with ⟨front, back, rfl, hfront⟩
        rw [exists_reads_front_iff hfront (Nat.zero_le _), List.drop_zero, nulUnread_append_iff hfront]
      · exact iff_of_true ⟨_, reads_of_linesFrom (confLines_eq hnul)⟩ (.inl hnul)

/-- The file `a`, NUL, newline: the first call of `fileGetLine` does not return. -/
theorem config_reading_stuck :
    (¬ ∃ lines, Reads [97, 0, 10] 0 lines) ∧ Called [97, 0, 10] 0 ∧ ¬ Progresses [97, 0, 10] 0 := by
  have hnone : ∀ out, ¬ GetsLine [97, 0, 10] 0 out := by
    intro out h
    have hcall := getsLine_iff.mp h
    rw [show fileGetLine [97, 0, 10] 0 = none by decide] at hcall
    cases hcall
  refine ⟨?_, .first, ?_⟩
  · rintro ⟨lines, hreads⟩
    cases hreads with
    | stop hcall _ => exact hnone _ hcall
    | line hcall _ => exact hnone _ hcall
  · rintro ⟨out, hcall, -⟩
    exact hnone out hcall

end CPractice.Conf
