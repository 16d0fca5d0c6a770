import CPractice.Aof.Encoding

/-!
# Reading a stream that is delivered in chunks

The reads of `safe_read_long` and `safe_read_string` are compared with the bytes of the stream.  An
argument may be cut anywhere.  A length line is read again from where `strtol` stopped, so it is read
correctly if no chunk ends between its CR and its LF and if the buffer space that is left, from which
the source takes the whole length of the line read so far at each retry, lasts.
-/

namespace CPractice.Aof

variable {stream : Stream} {chunk rest : Bytes}

/-! ## Positions in a stream -/

/-- The stream behind its first `count` bytes. -/
def advance : ℕ → Stream → Stream
  | 0, stream => stream
  | _ + 1, [] => []
  | count + 1, chunk :: stream =>
      if count + 1 < chunk.length then chunk.drop (count + 1) :: stream
      else advance (count + 1 - chunk.length) stream

/-- The offsets in a line of `length` bytes, of which `offset` are read, at which chunks end. -/
def cuts (length : ℕ) : ℕ → Stream → List ℕ
  | _, [] => []
  | offset, chunk :: stream =>
      if length ≤ offset + chunk.length then []
      else if chunk = [] then cuts length offset stream
      else (offset + chunk.length) :: cuts length (offset + chunk.length) stream

/-- Chunks that end at the offsets `ends` of a line leave it readable: none of them ends before the
LF, and the space lasts. -/
def cutsFit (length remain offset : ℕ) (ends : List ℕ) : Prop :=
  length - 1 ∉ ends ∧ ends.sum + (length - ends.getLastD offset) < remain

/-- The length line of `length` bytes at the head of a stream can be read. -/
def resumes (length : ℕ) (stream : Stream) : Prop :=
  cutsFit length maxLongLen 0 (cuts length 0 stream)

@[simp]
theorem advance_zero (stream : Stream) : advance 0 stream = stream := by
  cases stream <;> rfl

theorem advance_cons {count : ℕ} (hcount : count ≠ 0) (chunk : Bytes) (stream : Stream) :
    advance count (chunk :: stream) =
      if count < chunk.length then chunk.drop count :: stream
      else advance (count - chunk.length) stream := by
  cases count with
  | zero => exact absurd rfl hcount
  | succ count => rfl

theorem advance_nil_cons {count : ℕ} (hcount : count ≠ 0) (stream : Stream) :
    advance count ([] :: stream) = advance count stream := by
  rw [advance_cons hcount]
  simp

/-- Positions add up. -/
theorem advance_add (first second : ℕ) (stream : Stream) :
    advance (first + second) stream = advance second (advance first stream) := by
  induction stream generalizing first with
  | nil =>
      cases first with
      | zero => simp
      | succ first =>
          cases second with
          | zero => rfl
          | succ second => rfl
  | cons chunk stream ih =>
      by_cases hfirst : first = 0
      · simp [hfirst]
      · by_cases hsecond : second = 0
        · simp [hsecond]
        · rw [advance_cons (by omega), advance_cons hfirst]
          by_cases hin : first < chunk.length
          · rw [if_pos hin, advance_cons hsecond, List.length_drop, List.drop_drop]
            by_cases hboth : first + second < chunk.length
            · rw [if_pos hboth, if_pos (by omega)]
            · rw [if_neg hboth, if_neg (by omega)]
              congr 1
              omega
          · rw [if_neg hin, if_neg (by omega), ← ih]
            congr 1
            omega

theorem flatten_advance (count : ℕ) (stream : Stream) :
    (advance count stream).flatten = stream.flatten.drop count := by
  induction stream generalizing count with
  | nil => cases count <;> simp [advance]
  | cons chunk stream ih =>
      by_cases hcount : count = 0
      · simp [hcount]
      · rw [advance_cons hcount, List.flatten_cons, List.drop_append]
        by_cases hin : count < chunk.length
        · rw [if_pos hin, List.flatten_cons, Nat.sub_eq_zero_of_le hin.le, List.drop_zero]
        · rw [if_neg hin, ih, List.drop_eq_nil_of_le (Nat.le_of_not_lt hin), List.nil_append]

theorem length_advance_le (count : ℕ) (stream : Stream) :
    (advance count stream).length ≤ stream.length := by
  induction stream generalizing count with
  | nil => cases count <;> simp [advance]
  | cons chunk stream ih =>
      by_cases hcount : count = 0
      · simp [hcount]
      · rw [advance_cons hcount]
        split
        · simp
        · exact (ih _).trans (by simp)

theorem behind_eq_advance {count : ℕ} (hcount : count ≠ 0) (hle : count ≤ chunk.length) :
    behind chunk count stream = advance count (chunk :: stream) := by
  rw [advance_cons hcount, behind]
  by_cases heq : chunk.length ≤ count
  · rw [if_pos heq, if_neg (by omega), Nat.sub_eq_zero_of_le hle, advance_zero]
  · rw [if_neg heq, if_pos (by omega)]

/-! ## `fread` -/

/-- The loop around `fread` gets the bytes however they come. -/
theorem freadLoop_eq (turns : ℕ) {bytes : Bytes} (hturns : stream.length < turns)
    (hbytes : bytes ≠ []) (hstream : stream.flatten = bytes ++ rest) :
    freadLoop turns bytes.length stream = some (bytes, advance bytes.length stream) := by
  induction turns generalizing stream bytes with
  | zero => exact absurd hturns (Nat.not_lt_zero _)
  | succ turns ih =>
      have hlength : bytes.length ≠ 0 := by simpa using hbytes
      cases stream with
      | nil =>
          have hnil : bytes = [] := (List.append_eq_nil_iff.mp hstream.symm).1
          exact absurd hnil hbytes
      | cons chunk stream =>
          rw [List.flatten_cons] at hstream
          by_cases hin : bytes.length ≤ chunk.length
          · have htake : chunk.take bytes.length = bytes := by
              have hinitial := congrArg (List.take bytes.length) hstream
              rwa [List.take_append_of_le_length hin, List.take_left'] at hinitial
              rfl
            rw [freadLoop]
            simp only [fread, htake, lt_irrefl, if_false, behind_eq_advance hlength hin]
          · have hshort : chunk.length < bytes.length := Nat.lt_of_not_le hin
            have htake : chunk.take bytes.length = chunk := List.take_of_length_le hshort.le
            have hchunk : bytes = chunk ++ bytes.drop chunk.length := by
              have hinitial := congrArg (List.take chunk.length) hstream
              rw [List.take_left', List.take_append_of_le_length hshort.le] at hinitial
              · nth_rewrite 1 [← List.take_append_drop chunk.length bytes]
                rw [← hinitial]
              · rfl
            have hrest : stream.flatten = bytes.drop chunk.length ++ rest := by
              rw [hchunk, List.append_assoc] at hstream
              simpa using hstream
            have hlen : (bytes.drop chunk.length).length = bytes.length - chunk.length :=
              List.length_drop
            have hne : bytes.drop chunk.length ≠ [] := by
              intro hnil
              rw [hnil, List.length_nil] at hlen
              omega
            have hloop := ih (by simpa using hturns) hne hrest
            rw [hlen] at hloop
            rw [freadLoop]
            simp only [fread, htake, if_pos hshort, behind, if_pos hshort.le, hloop,
              Option.bind_eq_bind, Option.bind_some, ← hchunk]
            rw [advance_cons hlength, if_neg (by omega)]

/-! ## `fgets` and `safe_read_long` -/

theorem fgets_nil_cons {size : ℕ} (hsize : size ≠ 1) : fgets size ([] :: stream) = (none, stream) := by
  simp [fgets, hsize]

theorem fgets_cons {size : ℕ} (hsize : size ≠ 1) (hchunk : chunk ≠ []) :
    fgets size (chunk :: stream) = (some (lineWithin (size - 1) chunk),
      behind chunk (lineWithin (size - 1) chunk).length stream) := by
  cases chunk with
  | nil => exact absurd rfl hchunk
  | cons byte chunk => simp [fgets, hsize]

theorem lt_of_mem_cuts {length offset e : ℕ} (h : e ∈ cuts length offset stream) : offset < e := by
  induction stream generalizing offset with
  | nil => cases h
  | cons chunk stream ih =>
      unfold cuts at h
      split at h
      · cases h
      · split at h
        · exact ih h
        · next hchunk =>
            have hpos : 0 < chunk.length := List.length_pos_iff.mpr hchunk
            rcases List.mem_cons.mp h with rfl | hrest
            · omega
            · have hlt := ih hrest
              omega

theorem cuts_nil_cons {length offset : ℕ} (h : offset < length) :
    cuts length offset ([] :: stream) = cuts length offset stream := by
  rw [cuts, List.length_nil, if_neg (by omega), if_pos rfl]

theorem cutsFit_cons {length remain offset e : ℕ} {ends : List ℕ}
    (h : cutsFit length remain offset (e :: ends)) :
    e ≠ length - 1 ∧ e < remain ∧ cutsFit length (remain - e) e ends := by
  rcases h with ⟨hnot, hsum⟩
  rw [List.mem_cons, not_or] at hnot
  rw [List.sum_cons, List.getLastD_cons] at hsum
  refine ⟨Ne.symm hnot.1, by omega, hnot.2, by omega⟩

theorem two_le_remain {length remain offset : ℕ} (hoffset : offset < length)
    (h : cutsFit length remain offset (cuts length offset stream)) : 2 ≤ remain := by
  cases hcuts : cuts length offset stream with
  | nil =>
      rw [hcuts] at h
      have hlast := h.2
      rw [List.sum_nil, List.getLastD_nil] at hlast
      omega
  | cons e ends =>
      have hpos : offset < e := lt_of_mem_cuts (by rw [hcuts]; exact List.mem_cons_self)
      rw [hcuts] at h
      have hlt := (cutsFit_cons h).2.1
      omega

/-- A length line and its parts. -/
structure IsLengthLine (line : Bytes) (mark : UInt8) (digits : Bytes) : Prop where
  eq : line = mark :: (digits ++ crlf)
  digit : ∀ byte ∈ digits, isDigit byte
  nonempty : digits ≠ []
  mark_ne : mark ≠ 10

namespace IsLengthLine

variable {line digits : Bytes} {mark : UInt8}

theorem length_eq (h : IsLengthLine line mark digits) : line.length = digits.length + 3 := by
  rw [h.eq]
  simp [crlf]

/-- The only newline of the line is its last byte. -/
theorem newline (h : IsLengthLine line mark digits) :
    ∃ before, line = before ++ [10] ∧ 10 ∉ before := by
  refine ⟨mark :: (digits ++ [13]), ?_, ?_⟩
  · rw [h.eq]
    simp [crlf]
  · intro hmem
    rcases List.mem_cons.mp hmem with hmark | hrest
    · exact h.mark_ne hmark.symm
    · rcases List.mem_append.mp hrest with hdigits | hcr
      · exact absurd (h.digit 10 hdigits) (by decide)
      · exact absurd (List.mem_singleton.mp hcr) (by decide)

/-- What is read of a line that is cut among its digits. -/
theorem take_eq (h : IsLengthLine line mark digits) {count : ℕ} (hpos : 0 < count)
    (hcount : count + 2 ≤ line.length) : line.take count = mark :: digits.take (count - 1) := by
  have hlength := h.length_eq
  cases count with
  | zero => exact absurd hpos (Nat.lt_irrefl 0)
  | succ count =>
      rw [h.eq, List.take_succ_cons, Nat.add_sub_cancel,
        List.take_append_of_le_length (by omega)]

end IsLengthLine

/-- A store that appends to what the buffer holds. -/
theorem writeAt_append {buf read : Bytes} (bytes : Bytes) {offset : ℕ} (hread : buf.take offset = read)
    (hoffset : offset ≤ buf.length) (hroom : offset + bytes.length < buf.length) :
    ∃ tail, writeAt buf offset (bytes ++ [0]) = read ++ (bytes ++ 0 :: tail) ∧
      (writeAt buf offset (bytes ++ [0])).length = buf.length := by
  refine ⟨buf.drop (offset + (bytes ++ [0]).length), ?_, ?_⟩
  · simp [writeAt, hread]
  · simp only [writeAt, List.length_append, List.length_take, List.length_drop,
      List.length_singleton]
    omega

section Line

variable {line digits : Bytes} {mark : UInt8} {imm : Bool}

/-- A turn that gets the rest of the line. -/
theorem longLoop_last (hline : IsLengthLine line mark digits) (turns retry : ℕ) {buf : Bytes}
    {offset remain : ℕ} (hbuf : buf.take offset = line.take offset)
    (hroom : offset + remain ≤ buf.length) (hoffset : offset + 2 ≤ line.length)
    (hremain : line.length - offset < remain) (hchunk : line.drop offset <+: chunk) :
    longLoop mark imm (turns + 1) buf offset remain retry (chunk :: stream) =
      some (some (clampLong (digitsValue digits)),
        advance (line.length - offset) (chunk :: stream)) := by
  rcases hchunk with ⟨after, rfl⟩
  rcases hline.newline with ⟨before, hbefore, hnewline⟩
  have hlength : line.length = before.length + 1 := by
    rw [hbefore]
    simp
  have hdrop : line.drop offset = before.drop offset ++ [10] := by
    rw [hbefore, List.drop_append_of_le_length (by omega)]
  have hread : lineWithin (remain - 1) (line.drop offset ++ after) = line.drop offset := by
    have hnewline' : 10 ∉ before.drop offset := fun hmem ↦ hnewline (List.mem_of_mem_drop hmem)
    have hshort : (before.drop offset).length < remain - 1 := by
      rw [List.length_drop]
      omega
    have hstop := lineWithin_newline after hnewline' hshort
    rw [hdrop, List.append_assoc]
    exact hstop
  have hne : line.drop offset ++ after ≠ [] := by
    rw [hdrop]
    simp
  have hdropLength : (line.drop offset).length = line.length - offset := List.length_drop
  rcases writeAt_append (line.drop offset) hbuf (by omega) (by omega) with
    ⟨tail, hwrite, -⟩
  have hall : writeAt buf offset (line.drop offset ++ [0]) = line ++ 0 :: tail := by
    rw [hwrite, ← List.append_assoc, List.take_append_drop]
  have hnumber : strtol (line ++ 0 :: tail).tail =
      (clampLong (digitsValue digits), digits.length) := by
    have hcr : ∀ byte ∈ (crlf ++ 0 :: tail).head?, isDigit byte = false := by
      intro byte hbyte
      rw [← Option.some_inj.mp hbyte]
      decide
    have hstrtol := strtol_digits (crlf ++ 0 :: tail) hline.digit hline.nonempty hcr
    rw [hline.eq]
    simpa using hstrtol
  have hend : consumeNewLine ((line ++ 0 :: tail).drop (1 + digits.length)) = true := by
    have hsuffix : (line ++ 0 :: tail).drop (1 + digits.length) = crlf ++ 0 :: tail := by
      rw [hline.eq, Nat.add_comm 1, List.cons_append, List.drop_succ_cons, List.append_assoc,
        List.drop_left']
      rfl
    rw [hsuffix]
    rfl
  have hhead : (line ++ 0 :: tail).head? = some mark := by
    rw [hline.eq]
    rfl
  have hsize : remain ≠ 1 := by omega
  rw [longLoop, fgets_cons hsize hne, hread]
  simp only [hall, hhead, ne_eq, not_true_eq_false, if_false, hnumber, hend, if_true, hdropLength]
  rw [behind_eq_advance (by omega) (by rw [List.length_append, hdropLength]; omega)]

/-- A turn that gets some more digits. -/
theorem longLoop_more (hline : IsLengthLine line mark digits) (turns retry : ℕ) {buf : Bytes}
    {offset remain : ℕ} (hbuf : buf.take offset = line.take offset)
    (hroom : offset + remain ≤ buf.length) (hchunk : chunk ≠ [])
    (hcut : chunk = (line.drop offset).take chunk.length)
    (hdigits : offset + chunk.length + 2 ≤ line.length) (hremain : offset + chunk.length < remain) :
    ∃ buf', longLoop mark imm (turns + 1) buf offset remain retry (chunk :: stream) =
        longLoop mark imm turns buf' (offset + chunk.length) (remain - (offset + chunk.length))
          (retry + 1) stream ∧
      buf'.take (offset + chunk.length) = line.take (offset + chunk.length) ∧
      buf'.length = buf.length := by
  have hpos : 0 < chunk.length := List.length_pos_iff.mpr hchunk
  rcases writeAt_append chunk hbuf (by omega) (by omega) with ⟨tail, hwrite, hlength⟩
  have htake : line.take (offset + chunk.length) = line.take offset ++ chunk := by
    rw [List.take_add, ← hcut]
  have hread : lineWithin (remain - 1) chunk = chunk := by
    apply lineWithin_all
    · rcases hline.newline with ⟨before, hbefore, hnewline⟩
      intro hmem
      have hin : 10 ∈ line.take (offset + chunk.length) := by
        rw [htake]
        exact List.mem_append_right _ hmem
      have hshort : offset + chunk.length ≤ before.length := by
        rw [hbefore, List.length_append, List.length_singleton] at hdigits
        omega
      rw [hbefore, List.take_append_of_le_length hshort] at hin
      exact hnewline (List.mem_of_mem_take hin)
    · omega
  have hall : writeAt buf offset (chunk ++ [0]) =
      mark :: (digits.take (offset + chunk.length - 1) ++ 0 :: tail) := by
    rw [hwrite, ← List.append_assoc, ← htake, hline.take_eq (by omega) hdigits, List.cons_append]
  have hcount : (digits.take (offset + chunk.length - 1)).length = offset + chunk.length - 1 := by
    have hline' := hline.length_eq
    rw [List.length_take]
    omega
  have hnumber : (strtol (digits.take (offset + chunk.length - 1) ++ 0 :: tail)).2 =
      offset + chunk.length - 1 := by
    by_cases hnone : digits.take (offset + chunk.length - 1) = []
    · rw [hnone, List.length_nil] at hcount
      rw [hnone, List.nil_append, strtol_nul, hcount]
    · have hnul : ∀ byte ∈ (0 :: tail : Bytes).head?, isDigit byte = false := by
        intro byte hbyte
        rw [← Option.some_inj.mp hbyte]
        decide
      have hstrtol := strtol_digits (0 :: tail)
        (fun byte hbyte ↦ hline.digit byte (List.mem_of_mem_take hbyte)) hnone hnul
      rw [hstrtol, hcount]
  have hstop : 1 + (offset + chunk.length - 1) = offset + chunk.length := by omega
  have hbyte : (mark :: (digits.take (offset + chunk.length - 1) ++ 0 :: tail)).drop
      (offset + chunk.length) = 0 :: tail := by
    calc (mark :: (digits.take (offset + chunk.length - 1) ++ 0 :: tail)).drop
          (offset + chunk.length) =
        (mark :: (digits.take (offset + chunk.length - 1) ++ 0 :: tail)).drop
          (offset + chunk.length - 1 + 1) := by
          congr 1
          omega
      _ = (digits.take (offset + chunk.length - 1) ++ 0 :: tail).drop
          (offset + chunk.length - 1) := List.drop_succ_cons
      _ = 0 :: tail := List.drop_left' hcount
  have hnone : consumeNewLine (0 :: tail) = false := by
    cases tail <;> rfl
  have hsize : remain ≠ 1 := by omega
  refine ⟨writeAt buf offset (chunk ++ [0]), ?_, ?_, hlength⟩
  · rw [longLoop, fgets_cons hsize hchunk, hread]
    simp only [hall, List.head?_cons, ne_eq, not_true_eq_false, if_false, List.tail_cons, hnumber,
      hstop, hbyte, behind, le_refl, if_true, hnone, Bool.false_eq_true]
    rw [if_neg (Nat.not_le_of_lt hremain)]
  · rw [hwrite, ← List.append_assoc, ← htake, List.take_left']
    rw [List.length_take]
    omega

/-- A line that is delivered in chunks is read. -/
theorem longLoop_eq (hline : IsLengthLine line mark digits) (turns : ℕ) {retry : ℕ} {buf : Bytes}
    {offset remain : ℕ} (hturns : stream.length < turns) (hbuf : buf.take offset = line.take offset)
    (hroom : offset + remain ≤ buf.length) (hoffset : offset + 2 ≤ line.length)
    (hstream : stream.flatten = line.drop offset ++ rest)
    (hfit : cutsFit line.length remain offset (cuts line.length offset stream))
    (hretry : 1 ≤ retry) (hwait : imm → retry = 1 → stream.head? ≠ some []) :
    longLoop mark imm turns buf offset remain retry stream =
      some (some (clampLong (digitsValue digits)), advance (line.length - offset) stream) := by
  induction stream generalizing turns retry buf offset remain with
  | nil =>
      have hnil : line.drop offset = [] := (List.append_eq_nil_iff.mp hstream.symm).1
      have hlength := congrArg List.length hnil
      rw [List.length_drop, List.length_nil] at hlength
      omega
  | cons chunk stream ih =>
      cases turns with
      | zero => exact absurd hturns (Nat.not_lt_zero _)
      | succ turns =>
          have hturns' : stream.length < turns := by simpa using hturns
          have hremain := two_le_remain (by omega) hfit
          by_cases hchunk : chunk = []
          · subst hchunk
            have hnot : ¬ (retry = 1 ∧ imm) := by
              rintro ⟨hfirst, himm⟩
              exact hwait himm hfirst rfl
            rw [cuts_nil_cons (by omega)] at hfit
            rw [longLoop, fgets_nil_cons (by omega), advance_nil_cons (by omega)]
            simp only [if_neg hnot]
            apply ih turns hturns' hbuf hroom hoffset hstream hfit (by omega)
            intro _ hfirst
            omega
          · rw [List.flatten_cons] at hstream
            have hdropLength : (line.drop offset).length = line.length - offset := List.length_drop
            by_cases hlast : line.length ≤ offset + chunk.length
            · -- the chunk has the rest of the line
              have hinitial : line.drop offset <+: chunk := by
                apply List.prefix_of_prefix_length_le (List.prefix_append _ rest)
                · rw [← hstream]
                  exact List.prefix_append _ _
                · omega
              rw [cuts, if_pos hlast] at hfit
              have hspace := hfit.2
              rw [List.sum_nil, List.getLastD_nil, Nat.zero_add] at hspace
              exact longLoop_last hline turns retry hbuf hroom hoffset hspace hinitial
            · -- the chunk ends inside the line
              rw [cuts, if_neg hlast, if_neg hchunk] at hfit
              rcases cutsFit_cons hfit with ⟨hne, hlt, hfit'⟩
              have hinitial : chunk <+: line.drop offset := by
                apply List.prefix_of_prefix_length_le (List.prefix_append _ stream.flatten)
                · rw [hstream]
                  exact List.prefix_append _ _
                · omega
              have hcut : chunk = (line.drop offset).take chunk.length :=
                List.prefix_iff_eq_take.mp hinitial
              rcases longLoop_more hline turns retry hbuf hroom hchunk hcut (by omega) hlt with
                ⟨buf', hturn, hbuf', hlength⟩
              have hstream' : stream.flatten = line.drop (offset + chunk.length) ++ rest := by
                rcases hinitial with ⟨after, hafter⟩
                rw [← hafter, List.append_assoc, List.append_cancel_left_eq] at hstream
                rw [hstream, ← List.drop_drop, ← hafter, List.drop_left']
                rfl
              rw [hturn, advance_cons (by omega), if_neg (by omega)]
              have hcount : line.length - offset - chunk.length =
                  line.length - (offset + chunk.length) := by omega
              rw [hcount]
              have hroom' : offset + chunk.length + (remain - (offset + chunk.length)) ≤
                  buf'.length := by omega
              apply ih turns hturns' hbuf' hroom' (by omega) hstream' hfit' (by omega)
              intro _ hfirst
              omega

end Line

end CPractice.Aof
