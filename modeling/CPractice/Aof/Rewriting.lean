import CPractice.Aof.Commands
import Mathlib.Data.List.TakeWhile

/-!
# Parsing with prefix rewriting, and delivery in chunks

The first result is about commands that are available in full: the arguments come back as they were
written, with the prefix of the keys replaced.  It fails where a count leaves its type: `argc` is an
`int`, and the length of an `sds` has 32 bits.  The second says that the way a stream is cut does not
matter, as long as its length lines can be read.
-/

namespace CPractice.Aof

variable {ctx : ReplayCtx} {rest : Bytes}

/-! ## What the commands are to become -/

/-- Equality of names up to case. -/
def sameName (name word : Bytes) : Bool := name.map toLower = word.map toLower

/-- The positions of the keys of a command. -/
def isKeyPosition (name : Bytes) (j : ℕ) : Bool :=
  if sameName name selectName then false
  else if sameName name msetName ∨ sameName name msetnxName then j % 2 = 1
  else if sameName name delName then 0 < j
  else j = 1

/-- A key that starts with the old prefix gets the new one. -/
def rewriteKey (old new arg : Bytes) : Bytes :=
  if old.isPrefixOf arg then new ++ arg.drop old.length else arg

/-- The arguments with their keys rewritten. -/
def rewriteArgs (old new : Bytes) (args : List Bytes) : List Bytes :=
  args.mapIdx fun j arg ↦
    if isKeyPosition (args.headD []) j then rewriteKey old new arg else arg

/-- The outcome is the rewritten command. -/
def Returns (old new : Bytes) (outcome : Outcome) (args : List Bytes) : Prop :=
  ∃ argv, outcome = .command args.length argv ∧ argv.map Sds.bytes = rewriteArgs old new args

/-- The number of arguments and the length of each fit their types. -/
def countsFit (old new : Bytes) (args : List Bytes) : Prop :=
  args.length < 2147483648 ∧ ∀ arg ∈ rewriteArgs old new args, arg.length < 4294967296

/-! ## Arguments -/

theorem strncmpZero_eq {old : Bytes} (hold : 0 ∉ old ∧ 13 ∉ old) (arg : Bytes) :
    strncmpZero old (arg ++ crlf) = some (old.isPrefixOf arg) := by
  induction old generalizing arg with
  | nil => simp [strncmpZero]
  | cons byte old ih =>
      have hzero : byte ≠ 0 := fun heq ↦ hold.1 (heq ▸ List.mem_cons_self)
      have hcr : byte ≠ 13 := fun heq ↦ hold.2 (heq ▸ List.mem_cons_self)
      have hrest : 0 ∉ old ∧ 13 ∉ old :=
        ⟨fun hmem ↦ hold.1 (List.mem_cons_of_mem _ hmem),
          fun hmem ↦ hold.2 (List.mem_cons_of_mem _ hmem)⟩
      cases arg with
      | nil => simp [strncmpZero, crlf, hcr]
      | cons first arg =>
          by_cases heq : byte = first
          · subst heq
            simp [strncmpZero, hzero, ih hrest]
          · simp [strncmpZero, heq, List.isPrefixOf]

theorem sdsCpyLen_new {len : ℕ} (text : Bytes) (hlen : len < 4294967296)
    (htext : text.length ≤ len) :
    ∃ s, sdsCpyLen (sdsNewLen len) text = some s ∧ s.bytes = text ∧ s.free = len - text.length := by
  have hu4 : u4 (u4 len) = len := by rw [u4_of_lt hlen, u4_of_lt hlen]
  have htotal : u4 ((sdsNewLen len).free + (sdsNewLen len).bytes.length) = len := by
    simp [sdsNewLen, hu4]
  have hroom : ¬ u4 ((sdsNewLen len).free + (sdsNewLen len).bytes.length) < text.length := by
    rw [htotal]
    omega
  refine ⟨⟨text, len - text.length, by omega⟩, ?_, rfl, rfl⟩
  unfold sdsCpyLen
  rw [if_neg hroom, dif_pos (by omega)]
  simp only [htotal]

/-- An argument is copied. -/
theorem copyArg_eq {arg : Bytes} (hlength : arg.length < 4294967296) :
    ∃ s, sdsCpyLen (sdsNewLen arg.length) ((arg ++ crlf).take arg.length) = some s ∧
      s.bytes = arg := by
  have htake : (arg ++ crlf).take arg.length = arg := List.take_left
  rw [htake]
  rcases sdsCpyLen_new arg hlength le_rfl with ⟨s, hcopy, hbytes, -⟩
  exact ⟨s, hcopy, hbytes⟩

/-- The string of an argument, with its prefix replaced in a key. -/
theorem buildArg_eq {old new : Sds} (hctx : ctx = ⟨some old, some new⟩)
    (hold : 0 ∉ old.bytes ∧ 13 ∉ old.bytes) (key : Bool) {arg : Bytes}
    (hlength : (if key then rewriteKey old.bytes new.bytes arg else arg).length < 4294967296) :
    ∃ s, buildArg ctx key (arg ++ crlf) arg.length = some s ∧
      s.bytes = if key then rewriteKey old.bytes new.bytes arg else arg := by
  subst hctx
  cases key with
  | false =>
      simp only [Bool.false_eq_true, if_false] at hlength ⊢
      exact copyArg_eq hlength
  | true =>
      simp only [if_true] at hlength ⊢
      unfold buildArg rewriteKey at *
      simp only [if_true, strncmpZero_eq hold, Option.bind_eq_bind, Option.bind_some]
      by_cases hpre : old.bytes.isPrefixOf arg
      · rw [if_pos hpre] at hlength ⊢
        simp only [hpre, if_true]
        have hinitial : old.bytes <+: arg := List.isPrefixOf_iff_prefix.mp hpre
        have hle := hinitial.length_le
        rw [List.length_append, List.length_drop] at hlength
        have hreal : arg.length + new.bytes.length - old.bytes.length < 4294967296 := by omega
        rcases sdsCpyLen_new new.bytes hreal (by omega) with ⟨s, hcopy, hbytes, hfree⟩
        have htail : ((arg ++ crlf).drop old.bytes.length).take (arg.length - old.bytes.length) =
            arg.drop old.bytes.length := by
          rw [List.drop_append_of_le_length hle, List.take_left']
          exact List.length_drop
        rw [if_neg (by omega), hcopy, Option.bind_some, htail]
        have hroom : ¬ s.free < (arg.drop old.bytes.length).length := by
          rw [hfree, List.length_drop]
          omega
        have hfits : (s.bytes ++ arg.drop old.bytes.length).length < 4294967296 := by
          rw [hbytes, List.length_append, List.length_drop]
          omega
        unfold sdsCatLen
        rw [if_neg hroom, dif_pos hfits]
        exact ⟨_, rfl, congrArg (· ++ arg.drop old.bytes.length) hbytes⟩
      · rw [if_neg hpre] at hlength ⊢
        simp only [hpre]
        exact copyArg_eq hlength

/-! ## Key positions -/

theorem strcasecmpZero_eq {name : Bytes} (hname : 0 ∉ name) (word : Bytes) :
    strcasecmpZero name word = sameName name word := by
  have hall : name.takeWhile (· ≠ 0) = name := by
    apply List.takeWhile_eq_self_iff.mpr
    intro byte hbyte
    simp only [ne_eq, decide_not, Bool.not_eq_true', decide_eq_false_iff_not]
    rintro rfl
    exact hname hbyte
  unfold strcasecmpZero sameName
  rw [hall]

/-- The rule of the source finds the keys. -/
theorem isKey_keyRule {name : Bytes} (hname : 0 ∉ name) {j : ℕ} (hj : 0 < j) :
    (keyRule name).isKey j = isKeyPosition name j := by
  unfold keyRule isKeyPosition
  simp only [strcasecmpZero_eq hname]
  by_cases hselect : sameName name selectName
  · simp [hselect, KeyRule.isKey]
  · by_cases hmset : sameName name msetName
    · simp only [hselect, hmset, Bool.false_eq_true, if_false, if_true, true_or, KeyRule.isKey]
      simp only [OfNat.ofNat_ne_zero, if_false, decide_eq_decide]
      omega
    · by_cases hmsetnx : sameName name msetnxName
      · simp only [hselect, hmset, hmsetnx, Bool.false_eq_true, if_false, if_true, or_true,
          KeyRule.isKey]
        simp only [OfNat.ofNat_ne_zero, if_false, decide_eq_decide]
        omega
      · by_cases hdel : sameName name delName
        · simp [hselect, hmset, hmsetnx, hdel, KeyRule.isKey, Nat.mod_one, hj]
        · simp [hselect, hmset, hmsetnx, hdel, KeyRule.isKey]

theorem isKeyPosition_zero (name : Bytes) : isKeyPosition name 0 = false := by
  simp [isKeyPosition]

section Command

variable {old new : Sds} (hctx : ctx = ⟨some old, some new⟩)
  (hold : 0 ∉ old.bytes ∧ 13 ∉ old.bytes)

include hctx hold

/-- The strings of the arguments from `j` on. -/
theorem argsOf_eq (name : Bytes) (hname : 0 ∉ name) {j : ℕ} (hj : 0 < j) {args : List Bytes}
    (hlength : ∀ arg ∈ args.mapIdx fun i arg ↦
      if isKeyPosition name (i + j) then rewriteKey old.bytes new.bytes arg else arg,
      arg.length < 4294967296) :
    ∃ out, argsOf ctx (keyRule name) j args = some out ∧ out.map Sds.bytes =
      args.mapIdx fun i arg ↦
        if isKeyPosition name (i + j) then rewriteKey old.bytes new.bytes arg else arg := by
  induction args generalizing j with
  | nil => exact ⟨[], rfl, rfl⟩
  | cons arg args ih =>
      rw [List.mapIdx_cons] at hlength ⊢
      have hshift : (fun i (arg : Bytes) ↦ if isKeyPosition name (i + 1 + j) then
            rewriteKey old.bytes new.bytes arg else arg) =
          fun i arg ↦ if isKeyPosition name (i + (j + 1)) then
            rewriteKey old.bytes new.bytes arg else arg := by
        funext i arg
        rw [Nat.add_assoc, Nat.add_comm 1 j]
      rw [hshift] at hlength ⊢
      rw [Nat.zero_add] at hlength ⊢
      have hfirst := hlength _ List.mem_cons_self
      rcases ih (Nat.succ_pos j) fun arg harg ↦ hlength arg (List.mem_cons_of_mem _ harg) with
        ⟨out, hout, hbytes⟩
      rw [← isKey_keyRule hname hj] at hfirst ⊢
      rcases buildArg_eq hctx hold ((keyRule name).isKey j) hfirst with ⟨s, hs, hsbytes⟩
      refine ⟨s :: out, ?_, ?_⟩
      · simp only [argsOf, hs, hout, Option.bind_eq_bind, Option.bind_some]
      · rw [List.map_cons, hbytes, hsbytes]

/-- A command whose counts fit is returned with its keys rewritten. -/
theorem commandOf_eq {args : List Bytes} (hargs : args ≠ []) (hname : 0 ∉ args.headD [])
    (hfits : countsFit old.bytes new.bytes args) :
    ∃ outcome, commandOf ctx args = some (outcome, (encode args).length) ∧
      Returns old.bytes new.bytes outcome args := by
  cases args with
  | nil => exact absurd rfl hargs
  | cons first args =>
      rcases hfits with ⟨hcount, hlengths⟩
      unfold rewriteArgs at hlengths
      rw [List.headD_cons] at hname hlengths
      rw [List.mapIdx_cons, isKeyPosition_zero] at hlengths
      have hfirst := hlengths _ List.mem_cons_self
      rcases buildArg_eq hctx hold false hfirst with ⟨s, hs, hsbytes⟩
      simp only [Bool.false_eq_true, if_false] at hsbytes
      rcases argsOf_eq hctx hold first hname Nat.one_pos
        fun arg harg ↦ hlengths arg (List.mem_cons_of_mem _ harg) with ⟨out, hout, hbytes⟩
      have hbig : ¬ 9223372036854775808 ≤ (first :: args).length * 8 := by omega
      have hargc : n4 (first :: args).length = (first :: args).length := by
        unfold n4
        apply Int.bmod_eq_of_le_mul_two
        all_goals omega
      rw [← hsbytes] at hout
      refine ⟨.command (n4 (first :: args).length) (s :: out), ?_, s :: out, ?_, ?_⟩
      · simp only [commandOf, if_neg hbig, hs, hout, Option.bind_eq_bind, Option.bind_some]
      · rw [hargc]
      · unfold rewriteArgs
        rw [List.map_cons, hbytes, hsbytes, List.headD_cons, List.mapIdx_cons, isKeyPosition_zero]
        rfl

end Command

/-! ## Counts that do not fit -/

/-- `argc` of a command is an `int`. -/
def argcFits : Outcome → Prop
  | .command argc _ => argc < 2147483648
  | _ => True

theorem length_argLoop {rule : KeyRule} {room left j : ℕ} {args : List Sds}
    {stream stream' : Stream}
    (h : argLoop ctx rule room left j stream = some (some args, stream')) : args.length = left := by
  induction left generalizing j args stream stream' with
  | zero =>
      obtain rfl := Option.some.inj (Prod.mk.inj (Option.some.inj h)).1
      rfl
  | succ left ih =>
      rw [argLoop] at h
      rcases Option.bind_eq_some_iff.mp h with ⟨⟨arg, stream₁⟩, -, h⟩
      cases arg with
      | none => cases (Prod.mk.inj (Option.some.inj h)).1
      | some arg =>
          simp only at h
          split at h
          · cases h
          · rcases Option.bind_eq_some_iff.mp h with ⟨⟨rest, stream₂⟩, hrest, h⟩
            rcases Option.map_eq_some_iff.mp (Prod.mk.inj (Option.some.inj h)).1 with ⟨args', rfl, rfl⟩
            rw [List.length_cons, ih hrest]

/-- The count of a command that is returned is the number of its arguments, as an `int`. -/
theorem getRedisCommand_command {stream stream' : Stream} {argc : ℤ} {argv : List Sds}
    (h : getRedisCommand ctx stream = some (.command argc argv, stream')) :
    argc = n4 argv.length := by
  unfold getRedisCommand at h
  rcases Option.bind_eq_some_iff.mp h with ⟨⟨number, stream₁⟩, -, h⟩
  cases number with
  | none => cases (Prod.mk.inj (Option.some.inj h)).1
  | some len =>
      simp only at h
      split at h
      · cases (Prod.mk.inj (Option.some.inj h)).1
      · split at h
        · cases (Prod.mk.inj (Option.some.inj h)).1
        · rcases Option.bind_eq_some_iff.mp h with ⟨⟨first, stream₂⟩, -, h⟩
          cases first with
          | none => cases (Prod.mk.inj (Option.some.inj h)).1
          | some first =>
              simp only at h
              split at h
              · cases h
              · rcases Option.bind_eq_some_iff.mp h with ⟨⟨args, stream₃⟩, hargs, h⟩
                cases args with
                | none => cases (Prod.mk.inj (Option.some.inj h)).1
                | some args =>
                    obtain ⟨rfl, rfl⟩ := Outcome.command.inj (Prod.mk.inj (Option.some.inj h)).1
                    have hlen : ((first :: args).length : ℤ) = len := by
                      rw [List.length_cons, length_argLoop hargs]
                      omega
                    rw [hlen]

theorem getRedisCommand_argc {stream stream' : Stream} {outcome : Outcome}
    (h : getRedisCommand ctx stream = some (outcome, stream')) : argcFits outcome := by
  cases outcome with
  | error => trivial
  | nothing => trivial
  | command argc argv =>
      have hlt : n4 argv.length < (4294967296 + 1) / 2 := Int.bmod_lt (by decide)
      rw [getRedisCommand_command h]
      exact hlt

theorem readCommands_argc (calls : ℕ) {stream : Stream} {outcomes : List Outcome}
    (h : readCommands ctx calls stream = some outcomes) : ∀ outcome ∈ outcomes, argcFits outcome := by
  induction calls generalizing stream outcomes with
  | zero =>
      rw [← Option.some_inj.mp h]
      simp
  | succ calls ih =>
      rw [readCommands] at h
      rcases Option.bind_eq_some_iff.mp h with ⟨⟨outcome, stream'⟩, hcall, h⟩
      have hfits := getRedisCommand_argc hcall
      cases outcome with
      | error =>
          rw [← Option.some_inj.mp h]
          intro outcome houtcome
          rw [List.mem_singleton.mp houtcome]
          exact hfits
      | nothing => exact ih h
      | command argc argv =>
          rcases Option.bind_eq_some_iff.mp h with ⟨rest, hrest, h⟩
          rw [← Option.some_inj.mp h]
          intro outcome houtcome
          rcases List.mem_cons.mp houtcome with rfl | hmem
          · exact hfits
          · exact ih hrest outcome hmem

/-- A command that is returned as it should be has counts that fit. -/
theorem Returns.countsFit {old new : Bytes} {outcome : Outcome} {args : List Bytes}
    (h : Returns old new outcome args) (hargc : argcFits outcome) : countsFit old new args := by
  rcases h with ⟨argv, rfl, hbytes⟩
  constructor
  · have hlt : (args.length : ℤ) < 2147483648 := hargc
    omega
  · intro arg harg
    rw [← hbytes] at harg
    rcases List.mem_map.mp harg with ⟨s, -, rfl⟩
    exact s.fits

/-! ## The results -/

theorem head?_whole {bytes : Bytes} (h : bytes ≠ []) : [bytes].head? ≠ some [] := by
  rw [List.head?_cons]
  simpa using h

/-- A command that is available in full is read exactly and returned with its keys rewritten, and
commands one after another are returned in order, exactly if the counts fit their types. -/
theorem commands_parsed_exactly (old new : Sds)
    (hold : 0 ∉ old.bytes ∧ 13 ∉ old.bytes ∧ 10 ∉ old.bytes) :
    (∀ args rest, args ≠ [] → 0 ∉ args.headD [] →
      (encode args ++ rest).length < 9223372036854775808 →
      ((∃ outcome stream, getRedisCommand ⟨some old, some new⟩ [encode args ++ rest] =
          some (outcome, stream) ∧ Returns old.bytes new.bytes outcome args ∧
          stream.flatten = rest) ↔ countsFit old.bytes new.bytes args)) ∧
    ∀ commands, (∀ args ∈ commands, args ≠ [] ∧ 0 ∉ args.headD []) →
      (encodeAll commands).length < 9223372036854775808 →
      ((∃ outcomes, readCommands ⟨some old, some new⟩ (commands.length + 1) [encodeAll commands] =
          some outcomes ∧ List.Forall₂ (Returns old.bytes new.bytes) outcomes commands) ↔
        ∀ args ∈ commands, countsFit old.bytes new.bytes args) := by
  have hold' : 0 ∉ old.bytes ∧ 13 ∉ old.bytes := ⟨hold.1, hold.2.1⟩
  constructor
  · intro args rest hargs hname hlength
    have hencode : (encode args).length < 9223372036854775808 := by
      rw [List.length_append] at hlength
      omega
    constructor
    · rintro ⟨outcome, stream, hcall, hreturns, -⟩
      exact hreturns.countsFit (getRedisCommand_argc hcall)
    · intro hfits
      rcases commandOf_eq rfl hold' hargs hname hfits with ⟨outcome, hcommand, hreturns⟩
      have hcall := getRedisCommand_eq ⟨some old, some new⟩ hencode
        (by simp : [encode args ++ rest].flatten = encode args ++ rest) (linesResume_command_whole hencode rest)
        (head?_whole (by simp [encode_ne_nil]))
      rw [hcommand] at hcall
      refine ⟨outcome, _, hcall, hreturns, ?_⟩
      rw [flatten_advance]
      simp
  · intro commands hcommands hlength
    have hread := readCommands_eq ⟨some old, some new⟩ (commands.length + 1) hlength
      (by simp : [encodeAll commands].flatten = encodeAll commands) (linesResume_whole hlength) le_rfl
    constructor
    · rintro ⟨outcomes, houtcomes, hreturns⟩ args hargs
      rcases List.mem_iff_getElem.mp hargs with ⟨i, hi, rfl⟩
      have hi' : i < outcomes.length := by
        rw [hreturns.length_eq]
        exact hi
      have hreturn := List.Forall₂.get hreturns hi' hi
      apply hreturn.countsFit
      exact readCommands_argc _ houtcomes _ (List.getElem_mem hi')
    · intro hfits
      rw [hread]
      clear hread hlength
      induction commands with
      | nil => exact ⟨[], rfl, .nil⟩
      | cons args commands ih =>
          have hfirst := hcommands args List.mem_cons_self
          rcases commandOf_eq rfl hold' hfirst.1 hfirst.2 (hfits args List.mem_cons_self) with
            ⟨outcome, hcommand, hreturns⟩
          rcases ih (fun a ha ↦ hcommands a (List.mem_cons_of_mem _ ha))
            (fun a ha ↦ hfits a (List.mem_cons_of_mem _ ha)) with ⟨outcomes, hrest, hall⟩
          refine ⟨outcome :: outcomes, ?_, .cons hreturns hall⟩
          rcases hreturns with ⟨argv, rfl, -⟩
          simp only [commandsOf, hcommand, hrest, Option.bind_eq_bind, Option.bind_some]

def oldSds : Sds := ⟨[97, 58], 0, by decide⟩
def newSds : Sds := ⟨[98], 0, by decide⟩

/-- `SET a:k v` becomes `SET bk v`. -/
theorem commands_parsed_exactly_set :
    ∃ outcome stream, getRedisCommand ⟨some oldSds, some newSds⟩
        [encode [[83, 69, 84], [97, 58, 107], [118]] ++ [42]] = some (outcome, stream) ∧
      Returns [97, 58] [98] outcome [[83, 69, 84], [97, 58, 107], [118]] ∧ stream.flatten = [42] := by
  have hparsed := (commands_parsed_exactly oldSds newSds (by decide)).1
    [[83, 69, 84], [97, 58, 107], [118]] [42] (by decide) (by decide) (by decide)
  exact hparsed.mpr ⟨by decide, by decide⟩

/-- A command of `2 ^ 31` arguments: its number of arguments is not an `int`. -/
theorem many_args_not_returned :
    (List.replicate 2147483648 [65]).headD [] = ([65] : Bytes) ∧
    ¬ ∃ outcome stream, getRedisCommand ⟨some oldSds, some newSds⟩
        [encode (List.replicate 2147483648 [65])] = some (outcome, stream) ∧
      Returns [97, 58] [98] outcome (List.replicate 2147483648 [65]) := by
  constructor
  · rfl
  · rintro ⟨outcome, stream, hcall, hreturns⟩
    have hfits := (hreturns.countsFit (getRedisCommand_argc hcall)).1
    rw [List.length_replicate] at hfits
    exact Nat.lt_irrefl _ hfits

/-- The way a stream of commands is cut into chunks does not change what the calls return, if every
length line can be read: no chunk ends between its CR and its LF, and the ends inside it leave space
in the buffer. -/
theorem chunks_read_as_whole (ctx : ReplayCtx) (commands : List (List Bytes)) {stream : Stream}
    (hlength : (encodeAll commands).length < 9223372036854775808)
    (hstream : stream.flatten = encodeAll commands)
    (hcuts : ∀ line ∈ streamLines 0 commands, resumes line.2 (advance line.1 stream)) {calls : ℕ}
    (hcalls : commands.length + stream.length ≤ calls) :
    readCommands ctx calls stream =
      readCommands ctx (commands.length + 1) [encodeAll commands] := by
  have hwhole := readCommands_eq ctx (commands.length + 1) hlength
    (by simp : [encodeAll commands].flatten = encodeAll commands) (linesResume_whole hlength) le_rfl
  rw [hwhole]
  exact readCommands_eq ctx calls hlength hstream hcuts hcalls

instance (length : ℕ) (stream : Stream) : Decidable (resumes length stream) :=
  inferInstanceAs (Decidable (_ ∧ _))

/-- `GET` and a key, cut before the CR, among the digits and inside the key, with an end of the file
in between. -/
theorem chunks_read_as_whole_get :
    readCommands ⟨none, none⟩ 6 [[42, 50], [13, 10, 36, 51, 13, 10, 71, 69], [], [84, 13, 10, 36],
        [49, 13, 10, 107, 13, 10]] =
      readCommands ⟨none, none⟩ 2 [encodeAll [[[71, 69, 84], [107]]]] := by
  apply chunks_read_as_whole _ [[[71, 69, 84], [107]]]
  · decide
  · decide
  · decide
  · decide

/-- One command of one argument, cut between the CR and the LF of its first line: at once it is
returned, cut it is not. -/
theorem cut_before_newline_differs :
    [[42, 49, 13], [10, 36, 49, 13, 10, 65, 13, 10]].flatten = encodeAll [[[65]]] ∧
    readCommands ⟨none, none⟩ 3 [[42, 49, 13], [10, 36, 49, 13, 10, 65, 13, 10]] ≠
      readCommands ⟨none, none⟩ 2 [encodeAll [[[65]]]] := by
  constructor
  · decide
  · intro heq
    have hwhole : (readCommands ⟨none, none⟩ 2 [encodeAll [[[65]]]]).isSome := by with_unfolding_all decide
    rw [← heq] at hwhole
    exact absurd hwhole (by decide)

end CPractice.Aof
