import Emilua.Lib.Argv
import Emilua.Lua

/-!
The command line that `system_spawn` builds on Windows, where a process receives
one string and splits it itself. A `.bat` or `.cmd` program is run by the command
interpreter, which reads the line once more before it is split.
-/
namespace Emilua.Windows
open Wire Argv

abbrev WChar := UInt16
abbrev WString := List WChar

def wide (s : String) : WString := s.toList.map fun c => .ofNat c.toNat

def space : WChar := 32
def dquote : WChar := 34
def backslash : WChar := 92
def caret : WChar := 94

/-- The double quote is handled separately. -/
def isCmdexeMetacharacter (c : WChar) : Bool := (wide "()%!^<>&|@[]\x7b\x7d").contains c

/-- The characters that make quotes necessary. -/
def mustQuote (c : WChar) : Bool := ([32, 9, 11, 10, 34] : WString).contains c

def quoteMark (cmdexeQuoting : Bool) : WString :=
  if cmdexeQuoting then [caret, dquote] else [dquote]

/-- What the loop appends when it has counted so many backslashes. -/
def quoteLoop (cmdexeQuoting : Bool) : Nat → WString → WString
  | count, [] => List.replicate (count * 2) backslash
  | count, c :: arg =>
      if c = backslash then quoteLoop cmdexeQuoting (count + 1) arg
      else if c = dquote then
        List.replicate (count * 2 + 1) backslash ++
          (quoteMark cmdexeQuoting ++ quoteLoop cmdexeQuoting 0 arg)
      else
        List.replicate count backslash ++
          ((if cmdexeQuoting && isCmdexeMetacharacter c then [caret, c] else [c]) ++
            quoteLoop cmdexeQuoting 0 arg)

def quoteAndAppendArgv (commandLine arg : WString) (cmdexeQuoting : Bool) : WString :=
  if !arg.isEmpty && !cmdexeQuoting && !arg.any mustQuote then commandLine ++ arg
  else
    commandLine ++
      (quoteMark cmdexeQuoting ++ (quoteLoop cmdexeQuoting 0 arg ++ quoteMark cmdexeQuoting))

/-- The field `arguments`; the fields of a table from index 1 on. -/
inductive Arguments where
  | absent
  | table (fields : List LuaVal)
  | other

/-- `std::errc::invalid_argument`, with the field it is about. -/
inductive SpawnError where
  | invalidArgument (arg : String)
deriving DecidableEq, Repr

section Spawn
variable (widen : Bytes → WString)

def appendArguments (useComspec : Bool) :
    Nat → List LuaVal → WString → Except SpawnError WString
  | _, [], commandLine | _, .nil :: _, commandLine => .ok commandLine
  | i, .string s :: fields, commandLine =>
      let commandLine := if i ≠ 1 then commandLine ++ [space] else commandLine
      appendArguments useComspec (i + 1) fields
        (quoteAndAppendArgv commandLine (widen s) useComspec)
  | _, _ :: _, _ => .error (.invalidArgument "arguments")

/-- `script` is the path of a program that the command interpreter runs. -/
def systemSpawnCommandLine (script : Option WString) (arguments : Arguments) :
    Except SpawnError WString :=
  let commandLine := match script with
    | some path => quoteAndAppendArgv (wide "/C ") path true
    | none => []
  match arguments with
  | .absent => .ok commandLine
  | .table fields =>
      match script with
      | some _ => appendArguments widen true 2 (fields.drop 1) commandLine
      | none => appendArguments widen false 1 fields commandLine
  | .other => .error (.invalidArgument "arguments")

end Spawn

/-- How `CommandLineToArgvW` reads a command line. -/
def argvRules : Rules WChar where
  quote := dquote
  backslash := backslash
  blank c := c = space || c = 9
  quote_ne := by decide
  quote_solid := by decide
  backslash_solid := by decide

/-- An argument between quotes, in the form for a program of its own. -/
def fullyQuoted (arg : WString) : WString := dquote :: (quoteLoop false 0 arg ++ [dquote])

/-- The form in which an argument is appended for such a program. -/
def plainForm (arg : WString) : WString := quoteAndAppendArgv [] arg false

theorem plainForm_eq (arg : WString) :
    plainForm arg = if arg ≠ [] ∧ ∀ c ∈ arg, mustQuote c = false then arg else fullyQuoted arg := by
  rw [plainForm, quoteAndAppendArgv, fullyQuoted]
  simp only [List.nil_append, quoteMark, Bool.not_false, Bool.and_true, Bool.and_eq_true,
    Bool.not_eq_true', List.isEmpty_eq_false_iff, List.any_eq_false, Bool.not_eq_true]
  rfl

theorem tokens_quoteLoop (count : Nat) (arg rest : WString) :
    argvRules.tokens 0 (quoteLoop false count arg ++ dquote :: rest) =
      List.replicate count (.char backslash) ++
        (arg.map .char ++ .toggle :: argvRules.tokens 0 rest) := by
  have hmarks (k n : Nat) (s : WString) :
      argvRules.tokens n (List.replicate k backslash ++ s) = argvRules.tokens (n + k) s :=
    argvRules.tokens_backslashes n k s
  have hquote (n : Nat) (s : WString) : argvRules.tokens n (dquote :: s) =
      List.replicate (n / 2) (.char backslash) ++
        (if n % 2 = 1 then .char dquote else .toggle) :: argvRules.tokens 0 s :=
    argvRules.tokens_quote n s
  induction arg generalizing count with
  | nil =>
      rw [quoteLoop, hmarks, hquote, if_neg (by omega)]
      simp
  | cons c arg ih =>
      rw [quoteLoop]
      by_cases hb : c = backslash
      · rw [if_pos hb, ih, hb, List.replicate_succ', List.append_assoc]
        rfl
      · rw [if_neg hb]
        by_cases hq : c = dquote
        · rw [if_pos hq, List.append_assoc, hmarks, hq]
          simp only [quoteMark, Bool.false_eq_true, if_false, List.nil_append,
            List.cons_append]
          rw [hquote, ih, if_pos (by omega), show (0 + (count * 2 + 1)) / 2 = count by omega]
          rfl
        · rw [if_neg hq, List.append_assoc, hmarks]
          simp only [Bool.false_and, Bool.false_eq_true, if_false, List.nil_append,
            List.cons_append]
          rw [argvRules.tokens_char hb hq, ih, Nat.zero_add]
          rfl

theorem fullyQuoted_form (arg : WString) : argvRules.Form (fullyQuoted arg) arg := by
  refine .quoted fun rest => ?_
  have hopen := argvRules.tokens_quote 0 (quoteLoop false 0 arg ++ dquote :: rest)
  rw [fullyQuoted, List.cons_append, List.append_assoc, List.singleton_append]
  rw [tokens_quoteLoop] at hopen
  exact hopen

/-- An argument is left bare only where that changes nothing. -/
theorem plainForm_form (arg : WString) : argvRules.Form (plainForm arg) arg := by
  rw [plainForm_eq]
  split
  · rename_i hbare
    refine .bare hbare.1 ?_ ?_
    · intro c hc
      have hno := hbare.2 c hc
      simp only [mustQuote, List.contains_cons, Bool.or_eq_false_iff, beq_eq_false_iff_ne] at hno
      simp [argvRules, space, hno.1, hno.2.1]
    · intro hmem
      exact absurd (hbare.2 dquote hmem) (by decide)
  · exact fullyQuoted_form arg

/-- A character that means something to the interpreter has an escape before it. -/
def Guarded (m : Bool × WChar) : Prop :=
  isCmdexeMetacharacter m.2 = true ∨ m.2 = dquote → m.1 = true

theorem guarded_backslashes {count : Nat} {m : Bool × WChar} {ms : List (Bool × WChar)}
    (hm : Guarded m) (hms : ∀ m ∈ ms, Guarded m) :
    ∀ m' ∈ List.replicate count (false, backslash) ++ m :: ms, Guarded m' := by
  intro m' hmem
  rcases List.mem_append.mp hmem with hmem | hmem
  · rw [List.eq_of_mem_replicate hmem]
    exact fun hspecial => absurd hspecial (by decide)
  · rcases List.mem_cons.mp hmem with rfl | hmem
    · exact hm
    · exact hms m' hmem

theorem marks_backslashes (count : Nat) (s : WString) :
    marks caret false (List.replicate count backslash ++ s) =
      List.replicate count (false, backslash) ++ marks caret false s := by
  rw [marks_plain (by simp [caret, backslash]), List.map_replicate]

/-- Without the escapes the form for the interpreter is the plain one. -/
theorem marks_quoteLoop (count : Nat) (arg rest : WString) :
    ∃ ms, marks caret false (quoteLoop true count arg ++ rest) = ms ++ marks caret false rest ∧
      ms.map Prod.snd = quoteLoop false count arg ∧ ∀ m ∈ ms, Guarded m := by
  induction arg generalizing count with
  | nil =>
      refine ⟨List.replicate (count * 2) (false, backslash), ?_, ?_, ?_⟩
      · rw [quoteLoop, marks_backslashes]
      · rw [quoteLoop, List.map_replicate]
      · intro m hm
        rw [List.eq_of_mem_replicate hm]
        exact fun hspecial => absurd hspecial (by decide)
  | cons c arg ih =>
      rw [quoteLoop, quoteLoop]
      by_cases hb : c = backslash
      · rw [if_pos hb, if_pos hb]
        exact ih (count + 1)
      · rw [if_neg hb, if_neg hb]
        obtain ⟨ms, hms, hsnd, hguarded⟩ := ih 0
        by_cases hq : c = dquote
        · rw [if_pos hq, if_pos hq]
          refine ⟨List.replicate (count * 2 + 1) (false, backslash) ++ (true, dquote) :: ms,
            ?_, ?_, guarded_backslashes (fun _ => rfl) hguarded⟩
          · rw [List.append_assoc, marks_backslashes]
            simp only [quoteMark, if_true, List.cons_append, List.nil_append]
            rw [marks_escaped, hms, List.append_assoc]
            rfl
          · simp [quoteMark, hsnd]
        · rw [if_neg hq, if_neg hq]
          cases hc : isCmdexeMetacharacter c with
          | true =>
              refine ⟨List.replicate count (false, backslash) ++ (true, c) :: ms, ?_, ?_,
                guarded_backslashes (fun _ => rfl) hguarded⟩
              · rw [List.append_assoc, marks_backslashes]
                simp only [Bool.and_self, if_true, List.cons_append, List.nil_append]
                rw [marks_escaped, hms, List.append_assoc]
                rfl
              · simp [hsnd]
          | false =>
              have hcaret : c ≠ caret := by
                rintro rfl
                exact absurd hc (by decide)
              refine ⟨List.replicate count (false, backslash) ++ (false, c) :: ms, ?_, ?_,
                guarded_backslashes ?_ hguarded⟩
              · rw [List.append_assoc, marks_backslashes]
                simp only [Bool.and_false, Bool.false_eq_true, if_false, List.cons_append,
                  List.nil_append]
                rw [marks, if_neg hcaret, hms, List.append_assoc]
                rfl
              · simp [hsnd]
              · rintro (hmeta | hquote)
                · exact absurd (hmeta.symm.trans hc) (by simp)
                · exact absurd hquote hq

/-- The same for an argument as it is appended, between its quotes. -/
theorem marks_quoteAndAppendArgv (arg rest : WString) :
    ∃ ms, marks caret false (quoteAndAppendArgv [] arg true ++ rest) =
        ms ++ marks caret false rest ∧
      ms.map Prod.snd = fullyQuoted arg ∧ ∀ m ∈ ms, Guarded m := by
  obtain ⟨ms, hms, hsnd, hguarded⟩ := marks_quoteLoop 0 arg (quoteMark true ++ rest)
  have hmark : ∀ s, marks caret false (quoteMark true ++ s) = (true, dquote) :: marks caret false s :=
    fun s => marks_escaped caret dquote s
  refine ⟨(true, dquote) :: (ms ++ [(true, dquote)]), ?_, ?_, ?_⟩
  · rw [quoteAndAppendArgv, if_neg (by simp), List.nil_append, List.append_assoc, hmark,
      List.append_assoc, hms, hmark]
    simp
  · simp [fullyQuoted, hsnd]
  · intro m hm
    rcases List.mem_cons.mp hm with rfl | hm
    · exact fun _ => rfl
    · rcases List.mem_append.mp hm with hm | hm
      · exact hguarded m hm
      · rw [List.mem_singleton.mp hm]
        exact fun _ => rfl

theorem quoteAndAppendArgv_append (commandLine arg : WString) (cmdexeQuoting : Bool) :
    quoteAndAppendArgv commandLine arg cmdexeQuoting =
      commandLine ++ quoteAndAppendArgv [] arg cmdexeQuoting := by
  rw [quoteAndAppendArgv, quoteAndAppendArgv]
  split <;> simp

section Spawn
variable (widen : Bytes → WString)

/-- After the first argument each is preceded by a space. -/
theorem appendArguments_strings (useComspec : Bool) {i : Nat} (hi : 1 < i) (args : List Bytes)
    (commandLine : WString) :
    appendArguments widen useComspec i (args.map .string) commandLine =
      .ok (commandLine ++ (args.map fun s => quoteAndAppendArgv [] (widen s) useComspec).flatMap
        (space :: ·)) := by
  induction args generalizing i commandLine with
  | nil => simp [appendArguments]
  | cons s args ih =>
      rw [List.map_cons, appendArguments, if_pos (Nat.ne_of_gt hi), ih (Nat.lt_succ_of_lt hi),
        quoteAndAppendArgv_append]
      simp

theorem forms_plain (args : List Bytes) :
    List.Forall₂ argvRules.Form (args.map fun s => plainForm (widen s)) (args.map widen) := by
  induction args with
  | nil => exact .nil
  | cons s args ih => exact .cons (plainForm_form _) ih

theorem forms_quoted (args : List Bytes) :
    List.Forall₂ argvRules.Form (args.map fun s => fullyQuoted (widen s)) (args.map widen) := by
  induction args with
  | nil => exact .nil
  | cons s args ih => exact .cons (fullyQuoted_form _) ih

/-- The line for a program of its own. -/
theorem commandLine_plain (s : Bytes) (args : List Bytes) :
    systemSpawnCommandLine widen none (.table ((s :: args).map .string)) =
      .ok (plainForm (widen s) ++
        (args.map fun s => plainForm (widen s)).flatMap (space :: ·)) := by
  rw [systemSpawnCommandLine]
  simp only [List.map_cons, appendArguments, ne_eq, not_true_eq_false, if_false]
  rw [appendArguments_strings widen false (Nat.lt_succ_self 1)]
  rfl

/-- The line for the interpreter; its first argument is not looked at. -/
theorem commandLine_script (path : WString) (args : List Bytes) :
    systemSpawnCommandLine widen (some path) (.table (args.map .string)) =
      .ok (wide "/C " ++ (quoteAndAppendArgv [] path true ++
        ((args.drop 1).map fun s => quoteAndAppendArgv [] (widen s) true).flatMap
          (space :: ·))) := by
  rw [systemSpawnCommandLine]
  simp only [← List.map_drop]
  rw [appendArguments_strings widen true (Nat.lt_succ_self 1), quoteAndAppendArgv_append,
    List.append_assoc]

theorem marks_arguments (args : List Bytes) :
    ∃ ms, marks caret false ((args.map fun s => quoteAndAppendArgv [] (widen s) true).flatMap
        (space :: ·)) = ms ∧
      ms.map Prod.snd = (args.map fun s => fullyQuoted (widen s)).flatMap (space :: ·) ∧
      ∀ m ∈ ms, Guarded m := by
  induction args with
  | nil => exact ⟨[], rfl, rfl, nofun⟩
  | cons s args ih =>
      obtain ⟨rest, hrest, hsnd, hguarded⟩ := ih
      obtain ⟨ms, hms, hsnd', hguarded'⟩ := marks_quoteAndAppendArgv (widen s)
        ((args.map fun s => quoteAndAppendArgv [] (widen s) true).flatMap (space :: ·))
      refine ⟨(false, space) :: (ms ++ rest), ?_, ?_, ?_⟩
      · rw [List.map_cons, List.flatMap_cons, List.cons_append, marks, if_neg (by decide), hms,
          hrest]
      · simp [hsnd, hsnd']
      · intro m hm
        rcases List.mem_cons.mp hm with rfl | hm
        · exact fun hspecial => absurd hspecial (by decide)
        · rcases List.mem_append.mp hm with hm | hm
          · exact hguarded' m hm
          · exact hguarded m hm

theorem switch_plain : ∀ c ∈ wide "/C ", isCmdexeMetacharacter c = false ∧ c ≠ dquote := by
  intro c hc
  have hswitch : wide "/C " = [47, 67, 32] := rfl
  rw [hswitch, List.mem_cons, List.mem_cons, List.mem_singleton] at hc
  rcases hc with rfl | rfl | rfl <;> decide

/-- The line with one level of escapes taken off. -/
theorem unescape_script (path : WString) (args : List Bytes) {line : WString}
    (hline : systemSpawnCommandLine widen (some path) (.table (args.map .string)) = .ok line) :
    unescape caret line = wide "/C " ++ (fullyQuoted path ++
        ((args.drop 1).map fun s => fullyQuoted (widen s)).flatMap (space :: ·)) ∧
      ∀ m ∈ marks caret false line, Guarded m := by
  rw [commandLine_script] at hline
  cases hline
  obtain ⟨rest, hrest, hsnd, hguarded⟩ := marks_arguments widen (args.drop 1)
  obtain ⟨ms, hms, hsnd', hguarded'⟩ := marks_quoteAndAppendArgv path
    (((args.drop 1).map fun s => quoteAndAppendArgv [] (widen s) true).flatMap (space :: ·))
  have hslash : caret ∉ wide "/C " := by decide
  rw [unescape, marks_plain hslash, hms, hrest]
  constructor
  · simp [hsnd, hsnd', Function.comp_def]
  · intro m hm
    rcases List.mem_append.mp hm with hm | hm
    · obtain ⟨c, hc, rfl⟩ := List.mem_map.mp hm
      obtain ⟨hmeta, hquote⟩ := switch_plain c hc
      rintro (hspecial | hspecial)
      · exact absurd (hmeta.symm.trans hspecial) (by simp)
      · exact absurd hspecial hquote
    · rcases List.mem_append.mp hm with hm | hm
      · exact hguarded' m hm
      · exact hguarded m hm

/-- A program of its own reads back the arguments. For the interpreter every
character with a meaning is escaped, and what it makes of the line is the path
and the arguments from the second on, each between quotes. -/
theorem command_line_round_trip (args : List Bytes) :
    (∃ line, systemSpawnCommandLine widen none (.table (args.map .string)) = .ok line ∧
      argvRules.split line = args.map widen) ∧
    ∀ path, ∃ line script,
      systemSpawnCommandLine widen (some path) (.table (args.map .string)) = .ok line ∧
      (∀ m ∈ marks caret false line, Guarded m) ∧
      unescape caret line = wide "/C " ++ script ∧
      script = fullyQuoted path ++
        ((args.drop 1).map fun s => fullyQuoted (widen s)).flatMap (space :: ·) ∧
      argvRules.split script = path :: (args.drop 1).map widen := by
  constructor
  · cases args with
    | nil => exact ⟨[], rfl, rfl⟩
    | cons s args =>
        exact ⟨_, commandLine_plain widen s args,
          Rules.split_forms rfl (plainForm_form _) (forms_plain widen args)⟩
  · intro path
    obtain ⟨hunescape, hguarded⟩ :=
      unescape_script widen path args (commandLine_script widen path args)
    exact ⟨_, _, commandLine_script widen path args, hguarded, hunescape, rfl,
      Rules.split_forms rfl (fullyQuoted_form _) (forms_quoted widen _)⟩

/-- Up to the first quote of an argument the loop writes no other quote. -/
theorem quoteLoop_first_quote (count : Nat) {s : WString} (hs : dquote ∉ s) (t : WString) :
    ∃ u, quoteLoop false count (s ++ dquote :: t) = u ++ dquote :: quoteLoop false 0 t ∧
      dquote ∉ u := by
  induction s generalizing count with
  | nil =>
      refine ⟨List.replicate (count * 2 + 1) backslash, ?_, ?_⟩
      · rw [List.nil_append, quoteLoop, if_neg (by decide), if_pos rfl]
        rfl
      · intro hmem
        exact absurd (List.eq_of_mem_replicate hmem) (by decide)
  | cons c s ih =>
      have htail := fun count => ih count fun hmem => hs (List.mem_cons_of_mem _ hmem)
      have hq : c ≠ dquote := by
        rintro rfl
        exact hs (List.mem_cons_self ..)
      rw [List.cons_append, quoteLoop]
      by_cases hb : c = backslash
      · rw [if_pos hb]
        exact htail (count + 1)
      · rw [if_neg hb, if_neg hq]
        obtain ⟨u, hu, hno⟩ := htail 0
        refine ⟨List.replicate count backslash ++ c :: u, ?_, ?_⟩
        · rw [hu]
          simp
        · intro hmem
          rcases List.mem_append.mp hmem with hmem | hmem
          · exact absurd (List.eq_of_mem_replicate hmem) (by decide)
          · rcases List.mem_cons.mp hmem with heq | hmem
            · exact hq heq.symm
            · exact hno hmem

theorem quoteLoop_no_quote (count : Nat) {s : WString} (hs : dquote ∉ s) :
    dquote ∉ quoteLoop false count s := by
  induction s generalizing count with
  | nil =>
      intro hmem
      rw [quoteLoop] at hmem
      exact absurd (List.eq_of_mem_replicate hmem) (by decide)
  | cons c s ih =>
      have htail := fun count => ih count fun hmem => hs (List.mem_cons_of_mem _ hmem)
      have hq : c ≠ dquote := by
        rintro rfl
        exact hs (List.mem_cons_self ..)
      rw [quoteLoop]
      by_cases hb : c = backslash
      · rw [if_pos hb]
        exact htail (count + 1)
      · rw [if_neg hb, if_neg hq]
        intro hmem
        rcases List.mem_append.mp hmem with hmem | hmem
        · exact absurd (List.eq_of_mem_replicate hmem) (by decide)
        · rcases List.mem_cons.mp hmem with heq | hmem
          · exact hq heq.symm
          · exact htail 0 hmem

/-- A reader that takes a program name off the front of the line, without
escapes, is left with the other arguments unless the first one has a quote. -/
theorem program_rule_iff (s : Bytes) (args : List Bytes) {line : WString}
    (hline : systemSpawnCommandLine widen none (.table ((s :: args).map .string)) = .ok line) :
    (argvRules.splitProgram line).drop 1 = args.map widen ↔ dquote ∉ widen s := by
  rw [commandLine_plain] at hline
  cases hline
  have hforms := forms_plain widen args
  have hends := @Rules.ends_flatMap _ argvRules space rfl (args.map fun s => plainForm (widen s))
  have hrest : argvRules.split ((args.map fun s => plainForm (widen s)).flatMap (space :: ·)) =
      args.map widen := by
    cases args with
    | nil => rfl
    | cons a args =>
        rw [Rules.split, List.map_cons, List.flatMap_cons, List.cons_append,
          Rules.tokens_sep rfl, Rules.words]
        exact Rules.split_forms rfl (plainForm_form _) (forms_plain widen args)
  rw [Rules.splitProgram, List.drop_one, List.tail_cons, plainForm_eq]
  split
  · rename_i hbare
    have hno : dquote ∉ widen s := fun hmem => absurd (hbare.2 _ hmem) (by decide)
    have hsolid : ∀ c ∈ widen s, argvRules.blank c = false := by
      intro c hc
      have hquote := hbare.2 c hc
      simp only [mustQuote, List.contains_cons, Bool.or_eq_false_iff, beq_eq_false_iff_ne] at hquote
      simp [argvRules, space, hquote.1, hquote.2.1]
    rw [Rules.programName_bare hbare.1 hsolid hno hends]
    exact iff_of_true hrest hno
  · by_cases hquote : dquote ∈ widen s
    · refine iff_of_false ?_ (not_not.mpr hquote)
      obtain ⟨u, t, hsplit, hu⟩ := List.eq_append_cons_of_mem hquote
      obtain ⟨v, hloop, hv⟩ := quoteLoop_first_quote 0 hu t
      have hname := @Rules.programName_quoted _ _ argvRules v hv
        (quoteLoop false 0 t ++ dquote :: (args.map fun s => plainForm (widen s)).flatMap (space :: ·))
      have hline : fullyQuoted (widen s) ++
          (args.map fun s => plainForm (widen s)).flatMap (space :: ·) =
          argvRules.quote :: (v ++ argvRules.quote :: (quoteLoop false 0 t ++
            dquote :: (args.map fun s => plainForm (widen s)).flatMap (space :: ·))) := by
        rw [fullyQuoted, hsplit, hloop]
        simp [argvRules]
      rw [hline, hname, Rules.split, tokens_quoteLoop]
      exact Rules.words_misread rfl hforms t
    · refine iff_of_true ?_ hquote
      have hname := @Rules.programName_quoted _ _ argvRules _ (quoteLoop_no_quote 0 hquote)
        ((args.map fun s => plainForm (widen s)).flatMap (space :: ·))
      have hline : fullyQuoted (widen s) ++
          (args.map fun s => plainForm (widen s)).flatMap (space :: ·) =
          argvRules.quote :: (quoteLoop false 0 (widen s) ++ argvRules.quote ::
            (args.map fun s => plainForm (widen s)).flatMap (space :: ·)) := by
        rw [fullyQuoted]
        simp [argvRules]
      rw [hline, hname]
      exact hrest

end Spawn

end Emilua.Windows
