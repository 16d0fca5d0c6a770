import CPractice.Aof.Delivery

/-!
# Commands read from a stream

What the source returns for an encoded command is a function of its arguments alone (`commandOf`),
however the stream is cut, as long as its length lines can be read.
-/

namespace CPractice.Aof

variable {stream : Stream} {rest : Bytes} (ctx : ReplayCtx)

/-! ## Length lines -/

theorem isLengthLine (mark : UInt8) (hmark : mark ≠ 10) (n : ℕ) :
    IsLengthLine (lengthLine mark n) mark (decimal n) where
  eq := rfl
  digit _ := isDigit_of_mem_decimal
  nonempty := decimal_ne_nil n
  mark_ne := hmark

theorem lengthLine_length (mark : UInt8) (n : ℕ) :
    (lengthLine mark n).length = (decimal n).length + 3 := by
  simp [lengthLine, crlf]

theorem safeReadLong_eq {mark : UInt8} (imm : Bool) {n : ℕ} (hmark : mark ≠ 10)
    (hn : n < 9223372036854775808) (hstream : stream.flatten = lengthLine mark n ++ rest)
    (hresumes : resumes (lengthLine mark n).length stream)
    (hwait : imm → stream.head? ≠ some []) :
    safeReadLong mark imm stream =
      some (some (n : ℤ), advance (lengthLine mark n).length stream) := by
  have hlength := lengthLine_length mark n
  have hbuf : (List.replicate maxLongLen (0 : UInt8)).take 0 = (lengthLine mark n).take 0 := rfl
  have hroom : 0 + maxLongLen ≤ (List.replicate maxLongLen (0 : UInt8)).length := by simp
  have hloop := longLoop_eq (isLengthLine mark hmark n) (stream.length + maxLongLen + 1)
    (by omega) hbuf hroom (by omega) hstream hresumes le_rfl (fun himm _ ↦ hwait himm)
  rw [digitsValue_decimal, clampLong_natCast hn] at hloop
  exact hloop

/-- A line of a stream that is available at once. -/
theorem resumes_whole {mark : UInt8} {n : ℕ} (hn : n < 9223372036854775808) (rest : Bytes) :
    resumes (lengthLine mark n).length [lengthLine mark n ++ rest] := by
  have hlength := lengthLine_length mark n
  have hdigits := decimal_length_le hn
  have hcuts : cuts (lengthLine mark n).length 0 [lengthLine mark n ++ rest] = [] := by
    rw [cuts, if_pos]
    rw [List.length_append]
    omega
  unfold resumes
  rw [hcuts]
  refine ⟨List.not_mem_nil, ?_⟩
  rw [List.sum_nil, List.getLastD_nil, maxLongLen]
  omega

/-- The offsets and lengths of the length lines of arguments. -/
def argLines : ℕ → List Bytes → List (ℕ × ℕ)
  | _, [] => []
  | offset, arg :: args =>
      (offset, (lengthLine 36 arg.length).length) ::
        argLines (offset + (encodeArg arg).length) args

/-- The offsets and lengths of the length lines of a command. -/
def commandLines (offset : ℕ) (args : List Bytes) : List (ℕ × ℕ) :=
  (offset, (lengthLine 42 args.length).length) ::
    argLines (offset + (lengthLine 42 args.length).length) args

/-- The offsets and lengths of the length lines of commands. -/
def streamLines : ℕ → List (List Bytes) → List (ℕ × ℕ)
  | _, [] => []
  | offset, args :: commands =>
      commandLines offset args ++ streamLines (offset + (encode args).length) commands

/-- All the length lines can be read. -/
def LinesResume (stream : Stream) (lines : List (ℕ × ℕ)) : Prop :=
  ∀ line ∈ lines, resumes line.2 (advance line.1 stream)

/-- Lines that start `count` bytes later. -/
def shift (count : ℕ) (lines : List (ℕ × ℕ)) : List (ℕ × ℕ) :=
  lines.map fun line ↦ (count + line.1, line.2)

theorem argLines_shift (count offset : ℕ) (args : List Bytes) :
    argLines (count + offset) args = shift count (argLines offset args) := by
  induction args generalizing offset with
  | nil => rfl
  | cons arg args ih =>
      rw [argLines, argLines, Nat.add_assoc, ih]
      rfl

theorem streamLines_shift (count offset : ℕ) (commands : List (List Bytes)) :
    streamLines (count + offset) commands = shift count (streamLines offset commands) := by
  induction commands generalizing offset with
  | nil => rfl
  | cons args commands ih =>
      rw [streamLines, streamLines, commandLines, commandLines, Nat.add_assoc, Nat.add_assoc, ih,
        argLines_shift]
      simp [shift]

theorem LinesResume.of_shift {count : ℕ} {lines : List (ℕ × ℕ)}
    (h : LinesResume stream (shift count lines)) : LinesResume (advance count stream) lines := by
  intro line hline
  have hlater := h (count + line.1, line.2) (List.mem_map.mpr ⟨line, hline, rfl⟩)
  rw [← advance_add]
  exact hlater

theorem LinesResume.args_cons {arg : Bytes} {args : List Bytes}
    (h : LinesResume stream (argLines 0 (arg :: args))) :
    resumes (lengthLine 36 arg.length).length stream ∧
      LinesResume (advance (encodeArg arg).length stream) (argLines 0 args) := by
  constructor
  · have hfirst := h _ List.mem_cons_self
    rwa [advance_zero] at hfirst
  · apply LinesResume.of_shift
    rw [← argLines_shift, Nat.add_zero]
    intro line hline
    apply h line
    rw [argLines, Nat.zero_add]
    exact List.mem_cons_of_mem _ hline

theorem LinesResume.commands_cons {args : List Bytes} {commands : List (List Bytes)}
    (h : LinesResume stream (streamLines 0 (args :: commands))) :
    LinesResume stream (commandLines 0 args) ∧
      LinesResume (advance (encode args).length stream) (streamLines 0 commands) := by
  constructor
  · intro line hline
    exact h line (List.mem_append_left _ hline)
  · apply LinesResume.of_shift
    rw [← streamLines_shift, Nat.add_zero]
    intro line hline
    apply h line
    rw [streamLines, Nat.zero_add]
    exact List.mem_append_right _ hline

theorem LinesResume.command {args : List Bytes} (h : LinesResume stream (commandLines 0 args)) :
    resumes (lengthLine 42 args.length).length stream ∧
      LinesResume (advance (lengthLine 42 args.length).length stream) (argLines 0 args) := by
  constructor
  · have hfirst := h _ List.mem_cons_self
    rwa [advance_zero] at hfirst
  · apply LinesResume.of_shift
    rw [← argLines_shift, Nat.add_zero]
    intro line hline
    apply h line
    rw [commandLines, Nat.zero_add]
    exact List.mem_cons_of_mem _ hline

/-! ## Arguments -/

theorem safeReadString_eq (key : Bool) {arg : Bytes} (harg : arg.length + 2 < 9223372036854775808)
    (hstream : stream.flatten = encodeArg arg ++ rest)
    (hresumes : resumes (lengthLine 36 arg.length).length stream) :
    safeReadString ctx key stream = (buildArg ctx key (arg ++ crlf) arg.length).map
      fun s ↦ (some s, advance (encodeArg arg).length stream) := by
  have hline : stream.flatten = lengthLine 36 arg.length ++ (arg ++ crlf ++ rest) := by
    rw [hstream, encodeArg, List.append_assoc]
  have hlong := safeReadLong_eq false (by decide) (by omega) hline hresumes
    (fun himm ↦ by cases himm)
  have hbody : (advance (lengthLine 36 arg.length).length stream).flatten =
      (arg ++ crlf) ++ rest := by
    rw [flatten_advance, hline, List.drop_left']
    rfl
  have hread := freadLoop_eq ((advance (lengthLine 36 arg.length).length stream).length + 1)
    (Nat.lt_succ_self _) (by simp [crlf]) hbody
  have hlength : (arg ++ crlf).length = arg.length + 2 := by simp [crlf]
  rw [hlength, ← advance_add, ← hlength, ← List.length_append] at hread
  have hend : consumeNewLine ((arg ++ crlf).drop arg.length) = true := by
    rw [List.drop_left']
    · rfl
    · rfl
  have hsize : ¬ ((arg.length : ℤ) + 2 < 0 ∨ 9223372036854775808 ≤ (arg.length : ℤ) + 2) := by
    omega
  have hpos : ¬ (arg.length : ℤ) < 0 := by omega
  have hnat : ((arg.length : ℤ) + 2).toNat = (arg ++ crlf).length := by
    rw [hlength]
    omega
  unfold safeReadString
  simp only [hlong, Option.bind_eq_bind, Option.bind_some, if_neg hsize, if_neg hpos, hnat, hread,
    Int.toNat_natCast, hend, if_true]
  cases buildArg ctx key (arg ++ crlf) arg.length with
  | none => rfl
  | some s => rfl

/-- The strings of the arguments from `j` on. -/
def argsOf (ctx : ReplayCtx) (rule : KeyRule) : ℕ → List Bytes → Option (List Sds)
  | _, [] => some []
  | j, arg :: args => do
      let s ← buildArg ctx (rule.isKey j) (arg ++ crlf) arg.length
      let rest ← argsOf ctx rule (j + 1) args
      some (s :: rest)

theorem argLoop_eq (rule : KeyRule) {room : ℕ} (j : ℕ) {args : List Bytes}
    (hroom : j + args.length ≤ room)
    (hlength : (args.flatMap encodeArg).length < 9223372036854775808)
    (hstream : stream.flatten = args.flatMap encodeArg ++ rest)
    (hresume : LinesResume stream (argLines 0 args)) :
    argLoop ctx rule room args.length j stream = (argsOf ctx rule j args).map
      fun out ↦ (some out, advance (args.flatMap encodeArg).length stream) := by
  induction args generalizing j stream with
  | nil => simp [argLoop, argsOf]
  | cons arg args ih =>
      rw [List.flatMap_cons] at hlength hstream ⊢
      have hsize : arg.length + 2 < 9223372036854775808 := by
        have hline := lengthLine_length 36 arg.length
        rw [List.length_append, encodeArg, List.length_append, List.length_append, hline] at hlength
        simp only [crlf, List.length_cons, List.length_nil] at hlength
        omega
      rcases hresume.args_cons with ⟨hline, hrest⟩
      rw [List.append_assoc] at hstream
      have hread := safeReadString_eq ctx (rule.isKey j) hsize hstream hline
      rw [List.length_cons, argLoop, hread, argsOf]
      cases buildArg ctx (rule.isKey j) (arg ++ crlf) arg.length with
      | none => rfl
      | some s =>
          have hstream' : (advance (encodeArg arg).length stream).flatten =
              args.flatMap encodeArg ++ rest := by
            rw [flatten_advance, hstream, List.drop_left']
            rfl
          rw [List.length_cons] at hroom
          have hnext := ih (j + 1) (by omega) (by rw [List.length_append] at hlength; omega)
            hstream' hrest
          have hin : ¬ room ≤ j := by omega
          simp only [Option.map_some, Option.bind_eq_bind, Option.bind_some, if_neg hin, hnext,
            List.length_append, advance_add]
          cases argsOf ctx rule (j + 1) args with
          | none => rfl
          | some out => rfl

/-! ## Commands -/

/-- What the source returns for an encoded command, and the number of bytes it reads. -/
def commandOf (ctx : ReplayCtx) (args : List Bytes) : Option (Outcome × ℕ) :=
  match args with
  | [] => some (.nothing, (encode []).length)
  | first :: rest =>
      if 9223372036854775808 ≤ args.length * 8 then
        some (.error, (lengthLine 42 args.length).length)
      else do
        let s ← buildArg ctx false (first ++ crlf) first.length
        let out ← argsOf ctx (keyRule s.bytes) 1 rest
        some (.command (n4 args.length) (s :: out), (encode args).length)

/-- Without an error the whole encoding is read. -/
theorem commandOf_count {args : List Bytes} {outcome : Outcome} {count : ℕ}
    (h : commandOf ctx args = some (outcome, count)) (hne : outcome ≠ .error) :
    count = (encode args).length := by
  cases args with
  | nil => exact (Prod.mk.inj (Option.some_inj.mp h)).2.symm
  | cons first args =>
      unfold commandOf at h
      simp only at h
      split at h
      · exact absurd (Prod.mk.inj (Option.some_inj.mp h)).1.symm hne
      · rcases Option.bind_eq_some_iff.mp h with ⟨s, -, hrest⟩
        rcases Option.bind_eq_some_iff.mp hrest with ⟨out, -, hout⟩
        exact (Prod.mk.inj (Option.some_inj.mp hout)).2.symm

theorem length_le_flatMap (args : List Bytes) :
    args.length * 6 ≤ (args.flatMap encodeArg).length := by
  induction args with
  | nil => simp
  | cons arg args ih =>
      have hdigits : 0 < (decimal arg.length).length :=
        List.length_pos_iff.mpr (decimal_ne_nil arg.length)
      have hline := lengthLine_length 36 arg.length
      rw [List.flatMap_cons, List.length_append, encodeArg, List.length_append, List.length_append,
        hline, List.length_cons]
      simp only [crlf, List.length_cons, List.length_nil]
      omega

theorem getRedisCommand_eq {args : List Bytes} (hlength : (encode args).length < 9223372036854775808)
    (hstream : stream.flatten = encode args ++ rest)
    (hresume : LinesResume stream (commandLines 0 args)) (hwait : stream.head? ≠ some []) :
    getRedisCommand ctx stream = (commandOf ctx args).map
      fun out ↦ (out.1, advance out.2 stream) := by
  have hcount := length_le_flatMap args
  rw [encode, List.length_append] at hlength
  have hn : args.length < 9223372036854775808 := by omega
  rcases hresume.command with ⟨hline, hargs⟩
  rw [encode, List.append_assoc] at hstream
  have hlong := safeReadLong_eq true (by decide) hn hstream hline (fun _ ↦ hwait)
  have hstream' : (advance (lengthLine 42 args.length).length stream).flatten =
      args.flatMap encodeArg ++ rest := by
    rw [flatten_advance, hstream, List.drop_left']
    rfl
  have hu8 : u8 (args.length * 8) = args.length * 8 := u8_of_lt (by omega)
  cases args with
  | nil =>
      unfold getRedisCommand
      simp only [hlong, Option.bind_eq_bind, Option.bind_some, List.length_nil, Nat.cast_zero, if_true]
      rfl
  | cons first args =>
      have hne : ¬ (((first :: args).length : ℕ) : ℤ) = 0 := by
        rw [List.length_cons]
        omega
      by_cases hbig : 9223372036854775808 ≤ (first :: args).length * 8
      · have herror : ((first :: args).length : ℤ) < 0 ∨
            9223372036854775808 ≤ u8 ((first :: args).length * 8) := by
          right
          rw [hu8]
          exact hbig
        unfold getRedisCommand
        simp only [hlong, Option.bind_eq_bind, Option.bind_some, if_neg hne, Int.toNat_natCast,
          if_pos herror, commandOf, if_pos hbig]
        rfl
      · have hfine : ¬ (((first :: args).length : ℤ) < 0 ∨
            9223372036854775808 ≤ u8 ((first :: args).length * 8)) := by
          rw [hu8]
          omega
        have hroom : u8 ((first :: args).length * 8) / 8 = (first :: args).length := by
          rw [hu8]
          exact Nat.mul_div_cancel _ (by decide)
        rw [List.flatMap_cons, List.append_assoc] at hstream'
        rcases hargs.args_cons with ⟨hfirst, hrest⟩
        have hsize : first.length + 2 < 9223372036854775808 := by
          have hmark := lengthLine_length 36 first.length
          rw [List.flatMap_cons, List.length_append, encodeArg, List.length_append,
            List.length_append, hmark] at hlength
          simp only [crlf, List.length_cons, List.length_nil] at hlength
          omega
        have hread := safeReadString_eq ctx false hsize hstream' hfirst
        unfold getRedisCommand
        simp only [hlong, Option.bind_eq_bind, Option.bind_some, if_neg hne, Int.toNat_natCast,
          if_neg hfine, hread, commandOf, if_neg hbig, hroom]
        cases buildArg ctx false (first ++ crlf) first.length with
        | none => rfl
        | some s =>
            have hlater : (advance (encodeArg first).length (advance
                (lengthLine 42 (first :: args).length).length stream)).flatten =
                args.flatMap encodeArg ++ rest := by
              rw [flatten_advance, hstream', List.drop_left']
              rfl
            have hroom' : 1 + args.length ≤ (first :: args).length := by
              rw [List.length_cons]
              omega
            have hloop := argLoop_eq ctx (keyRule s.bytes) 1 hroom'
              (by rw [List.flatMap_cons, List.length_append] at hlength; omega) hlater hrest
            have hleft : (first :: args).length - 1 = args.length := rfl
            have hpos : ¬ (first :: args).length = 0 := by simp
            simp only [Option.map_some, Option.bind_some, if_neg hpos, hleft, hloop]
            cases argsOf ctx (keyRule s.bytes) 1 args with
            | none => rfl
            | some out =>
                simp only [Option.map_some, Option.bind_some, encode, List.flatMap_cons,
                  List.length_append, advance_add]

/-! ## Runs -/

/-- What calls return for commands that are read one after another. -/
def commandsOf : List (List Bytes) → Option (List Outcome)
  | [] => some []
  | args :: commands => do
      let out ← commandOf ctx args
      match out.1 with
      | .error => some [.error]
      | .nothing => commandsOf commands
      | .command argc argv => do
          let rest ← commandsOf commands
          some (.command argc argv :: rest)

/-- At the end of the file, for now or for good, a call returns nothing. -/
theorem getRedisCommand_eof (h : stream = [] ∨ stream.head? = some []) :
    getRedisCommand ctx stream = some (.nothing, stream.tail) := by
  have hlong : safeReadLong 42 true stream = some (some 0, stream.tail) := by
    cases stream with
    | nil => rfl
    | cons chunk stream =>
        rcases h with hnil | hhead
        · cases hnil
        · rw [List.head?_cons, Option.some_inj] at hhead
          subst hhead
          rfl
  simp [getRedisCommand, hlong]

theorem readCommands_idle (calls : ℕ) (h : stream.flatten = []) :
    readCommands ctx calls stream = some [] := by
  induction calls generalizing stream with
  | zero => rfl
  | succ calls ih =>
      have heof : stream = [] ∨ stream.head? = some [] := by
        cases stream with
        | nil => exact .inl rfl
        | cons chunk stream =>
            rw [List.flatten_cons] at h
            right
            rw [List.head?_cons, (List.append_eq_nil_iff.mp h).1]
      have htail : stream.tail.flatten = [] := by
        cases stream with
        | nil => rfl
        | cons chunk stream =>
            rw [List.flatten_cons] at h
            exact (List.append_eq_nil_iff.mp h).2
      rw [readCommands, getRedisCommand_eof ctx heof]
      exact ih htail

theorem LinesResume.of_nil_cons {lines : List (ℕ × ℕ)} (hlines : ∀ line ∈ lines, 0 < line.2)
    (h : LinesResume ([] :: stream) lines) : LinesResume stream lines := by
  intro line hline
  have hresumes := h line hline
  by_cases hzero : line.1 = 0
  · rw [hzero, advance_zero] at hresumes ⊢
    unfold resumes at hresumes ⊢
    rwa [cuts_nil_cons (hlines line hline)] at hresumes
  · rwa [advance_nil_cons hzero] at hresumes

theorem argLines_pos (offset : ℕ) (args : List Bytes) : ∀ line ∈ argLines offset args, 0 < line.2 := by
  induction args generalizing offset with
  | nil => simp [argLines]
  | cons arg args ih =>
      intro line hline
      rcases List.mem_cons.mp hline with rfl | hrest
      · exact Nat.succ_pos _
      · exact ih _ line hrest

theorem streamLines_pos (offset : ℕ) (commands : List (List Bytes)) :
    ∀ line ∈ streamLines offset commands, 0 < line.2 := by
  induction commands generalizing offset with
  | nil => simp [streamLines]
  | cons args commands ih =>
      intro line hline
      rcases List.mem_append.mp hline with hfirst | hrest
      · rcases List.mem_cons.mp hfirst with rfl | hargs
        · exact Nat.succ_pos _
        · exact argLines_pos _ args line hargs
      · exact ih _ line hrest

/-- With enough calls every command of the stream is returned, as `commandOf` says. -/
theorem readCommands_eq (calls : ℕ) {commands : List (List Bytes)}
    (hlength : (encodeAll commands).length < 9223372036854775808)
    (hstream : stream.flatten = encodeAll commands)
    (hresume : LinesResume stream (streamLines 0 commands))
    (hcalls : commands.length + stream.length ≤ calls) :
    readCommands ctx calls stream = commandsOf ctx commands := by
  induction calls generalizing stream commands with
  | zero =>
      have hnil : commands = [] := List.length_eq_zero_iff.mp (by omega)
      subst hnil
      rfl
  | succ calls ih =>
      cases commands with
      | nil => exact readCommands_idle ctx (calls + 1) hstream
      | cons args commands =>
          by_cases hwait : stream.head? = some []
          · -- the file ends here for now
            rcases List.head?_eq_some_iff.mp hwait with ⟨stream', rfl⟩
            have hstream' : stream'.flatten = encodeAll (args :: commands) := hstream
            rw [readCommands, getRedisCommand_eof ctx (.inr hwait)]
            change readCommands ctx calls stream' = _
            apply ih hlength hstream'
            · exact hresume.of_nil_cons (streamLines_pos 0 _)
            · simp only [List.length_cons] at hcalls ⊢
              omega
          · rcases hresume.commands_cons with ⟨hfirst, hrest⟩
            rw [encodeAll, List.flatMap_cons] at hstream
            rw [encodeAll, List.flatMap_cons, List.length_append] at hlength
            have hcall := getRedisCommand_eq ctx (by omega) hstream hfirst hwait
            rw [readCommands, hcall, commandsOf]
            cases hout : commandOf ctx args with
            | none => rfl
            | some out =>
                rcases out with ⟨outcome, count⟩
                have hnext : outcome ≠ .error →
                    readCommands ctx calls (advance count stream) = commandsOf ctx commands := by
                  intro hne
                  rw [commandOf_count ctx hout hne]
                  apply ih
                  · exact (Nat.le_add_left _ _).trans_lt hlength
                  · rw [flatten_advance, hstream, List.drop_left']
                    · rfl
                    · rfl
                  · exact hrest
                  · have hle := length_advance_le (encode args).length stream
                    rw [List.length_cons] at hcalls
                    omega
                cases outcome with
                | error => rfl
                | nothing => exact hnext (by simp)
                | command argc argv =>
                    simp only [Option.map_some, Option.bind_eq_bind, Option.bind_some,
                      hnext (by simp)]

/-! ## Streams that are available at once -/

theorem LinesResume.to_shift {count : ℕ} {lines : List (ℕ × ℕ)}
    (h : LinesResume (advance count stream) lines) : LinesResume stream (shift count lines) := by
  intro line hline
  rcases List.mem_map.mp hline with ⟨line', hline', rfl⟩
  rw [advance_add]
  exact h line' hline'

theorem advance_whole {front back : Bytes} (hback : back ≠ []) :
    advance front.length [front ++ back] = [back] := by
  by_cases hfront : front = []
  · simp [hfront]
  · have hpos : 0 < back.length := List.length_pos_iff.mpr hback
    rw [advance_cons (by simpa using hfront), if_pos (by rw [List.length_append]; omega),
      List.drop_left']
    rfl

theorem encodeArg_ne_nil (arg : Bytes) : encodeArg arg ≠ [] := by
  simp [encodeArg, lengthLine]

theorem encode_ne_nil (args : List Bytes) : encode args ≠ [] := by
  simp [encode, lengthLine]

theorem linesResume_args_whole {args : List Bytes}
    (hlength : (args.flatMap encodeArg).length < 9223372036854775808) (rest : Bytes) :
    LinesResume [args.flatMap encodeArg ++ rest] (argLines 0 args) := by
  induction args with
  | nil => simp [LinesResume, argLines]
  | cons arg args ih =>
      rw [List.flatMap_cons, List.length_append] at hlength
      have hsize : arg.length < 9223372036854775808 := by
        rw [encodeArg, List.length_append, List.length_append] at hlength
        omega
      have hlater : LinesResume [encodeArg arg ++ (args.flatMap encodeArg ++ rest)]
          (argLines (encodeArg arg).length args) := by
        cases args with
        | nil => simp [LinesResume, argLines]
        | cons next args =>
            have hshift := argLines_shift (encodeArg arg).length 0 (next :: args)
            rw [Nat.add_zero] at hshift
            rw [hshift]
            apply LinesResume.to_shift
            rw [advance_whole (by simp [encodeArg_ne_nil])]
            exact ih (by omega)
      intro line hline
      rw [List.flatMap_cons, List.append_assoc]
      rw [argLines, Nat.zero_add] at hline
      rcases List.mem_cons.mp hline with rfl | hrest
      · rw [advance_zero, encodeArg, List.append_assoc]
        exact resumes_whole hsize _
      · exact hlater line hrest

theorem linesResume_command_whole {args : List Bytes}
    (hlength : (encode args).length < 9223372036854775808) (rest : Bytes) :
    LinesResume [encode args ++ rest] (commandLines 0 args) := by
  have hcount := length_le_flatMap args
  rw [encode, List.length_append] at hlength
  have hargs : LinesResume [lengthLine 42 args.length ++ (args.flatMap encodeArg ++ rest)]
      (argLines (lengthLine 42 args.length).length args) := by
    cases args with
    | nil => simp [LinesResume, argLines]
    | cons arg args =>
        have hshift := argLines_shift (lengthLine 42 (arg :: args).length).length 0 (arg :: args)
        rw [Nat.add_zero] at hshift
        rw [hshift]
        apply LinesResume.to_shift
        rw [advance_whole (by simp [encodeArg_ne_nil])]
        exact linesResume_args_whole (by omega) rest
  intro line hline
  rw [encode, List.append_assoc]
  rw [commandLines, Nat.zero_add] at hline
  rcases List.mem_cons.mp hline with rfl | hrest
  · rw [advance_zero]
    exact resumes_whole (by omega) _
  · exact hargs line hrest

theorem linesResume_whole {commands : List (List Bytes)}
    (hlength : (encodeAll commands).length < 9223372036854775808) :
    LinesResume [encodeAll commands] (streamLines 0 commands) := by
  induction commands with
  | nil => simp [LinesResume, streamLines]
  | cons args commands ih =>
      rw [encodeAll, List.flatMap_cons, List.length_append] at hlength
      have hlater : LinesResume [encode args ++ encodeAll commands]
          (streamLines (encode args).length commands) := by
        cases commands with
        | nil => simp [LinesResume, streamLines]
        | cons next commands =>
            have hshift := streamLines_shift (encode args).length 0 (next :: commands)
            rw [Nat.add_zero] at hshift
            rw [hshift]
            apply LinesResume.to_shift
            rw [advance_whole (by simp [encodeAll, encode_ne_nil])]
            exact ih (by rw [encodeAll]; omega)
      intro line hline
      rw [encodeAll, List.flatMap_cons]
      rw [streamLines, Nat.zero_add] at hline
      rcases List.mem_append.mp hline with hfirst | hrest
      · exact linesResume_command_whole (by omega) _ line hfirst
      · exact hlater line hrest

end CPractice.Aof
