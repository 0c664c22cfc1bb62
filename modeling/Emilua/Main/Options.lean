import Emilua.Import.Loading

/-!
The command line of the program, and what it takes from the environment. The
scanners' rules are told apart by the longest match, and the end of an argument
stands for its NUL.
-/
namespace Emilua.Main

abbrev Text := List Char

def text (s : String) : Text := s.toList

/-- `main_ctx_concurrency_hint` -/
inductive Hint where
  | one
  | safe
deriving DecidableEq, Repr

inductive Stream where
  | out
  | err
deriving DecidableEq, Repr

/-- The end of the program before a VM is made. -/
structure Exit where
  code : Nat
  stream : Stream
  message : Text
deriving DecidableEq, Repr

def fail (message : Text) : Exit := ⟨2, .err, message⟩

def helpText (program : Text) : Text :=
  text "Emilua: Execution engine for luaJIT\nUsage: " ++ program ++ text (" [OPTIONS] [file]\n\n" ++
    "Positionals:\n" ++
    "  file TEXT                   Script filename\n\n" ++
    "Options:\n" ++
    "  -h,--help                   Print this help message and exit\n" ++
    "  --main-context-concurrency-hint INT\n" ++
    "                              Concurrency hint for the main execution engine context\n" ++
    "  --test Run tests\n" ++
    "  --version                   Output version information and exit\n")

/-- The versions the program was built with. -/
structure Build where
  version : Text
  luajit : Text
  boost : Text
  libraryRoot : Text

def Build.versionText (b : Build) : Text :=
  text "Emilua " ++ b.version ++ text "\n" ++ b.luajit ++ text "\nBoost " ++ b.boost ++ text "\n"

/-- The labels `opt`, `opt_short`, `opt_long` and `opt_main_context_concurrency_hint`. -/
inductive Opt where
  | args
  | stdin
  | file
  | short (rest : Text)
  | long (rest : Text)
  | bad
deriving DecidableEq, Repr

def opt : Text → Opt
  | [] => .bad
  | ['-', '-'] => .args
  | ['-'] => .stdin
  | '-' :: '-' :: rest => .long rest
  | '-' :: rest => .short rest
  | _ => .file

inductive OptShort where
  | none
  | help
  | bad
deriving DecidableEq, Repr

def optShort : Text → OptShort
  | [] => .none
  | 'h' :: _ => .help
  | _ => .bad

inductive OptLong where
  | help
  | version
  | hintValue (value : Text)
  | hint
  | test
  | bad
deriving DecidableEq, Repr

def hintName : Text := text "main-context-concurrency-hint"

def optLong (s : Text) : OptLong :=
  if s = text "help" then .help
  else if s = text "version" then .version
  else if s = hintName then .hint
  else if s = text "test" then .test
  else if hintName ++ ['='] <+: s then .hintValue (s.drop (hintName.length + 1))
  else .bad

def optHint (value : Text) : Except Exit Hint :=
  if value = text "1" then .ok .one
  else if value = text "safe" then .ok .safe
  else .error (fail (text "value `" ++ value ++ text "` not supported for option `--main-context-concurrency-hint`\n"))

/-- The variables that the scanner fills. -/
structure State where
  filename : Text
  hint : Hint
  contextType : Import.ContextType
  appArgs : List Text
deriving DecidableEq

def State.start : State := ⟨[], .safe, .main, []⟩

variable (build : Build) (program : Text)

/-- From the label `opt` on; the arguments are those behind `cur_arg`. -/
def scan (s : State) : List Text → Except Exit State
  | [] => .ok s
  | arg :: args =>
      match opt arg with
      | .bad => .error (fail (text "bad option: `" ++ arg ++ text "`\n"))
      | .args => .ok { s with appArgs := program :: s.filename :: args }
      | .stdin => .error (fail (text "stdin not supported as input file\n"))
      | .file =>
          if s.filename ≠ [] then .error (fail (text "emilua doesn't support more than one input file\n"))
          else scan { s with filename := arg } args
      | .short rest =>
          match optShort rest with
          | .none => scan s args
          | .help => .error ⟨0, .out, helpText program⟩
          | .bad => .error (fail (text "bad short option: " ++ arg ++ text "\n"))
      | .long rest =>
          match optLong rest with
          | .help => .error ⟨0, .out, helpText program⟩
          | .version => .error ⟨0, .out, build.versionText⟩
          | .hintValue value => do
              let hint ← optHint value
              scan { s with hint := hint } args
          | .hint =>
              match args with
              | [] => .error (fail (text "missing value for option `--main-context-concurrency-hint`\n"))
              | value :: args => do
                  let hint ← optHint value
                  scan { s with hint := hint } args
          | .test => scan { s with contextType := .test } args
          | .bad => .error (fail (text "bad long option: " ++ arg ++ text "\n"))

/-- The arguments of a program, up to the label `end` and what is checked there. -/
def options (args : List Text) : Except Exit State := do
  let s ← scan build program .start args
  if s.filename = [] then .error (fail (text "missing filename\n"))
  else if s.appArgs = [] then .ok { s with appArgs := [program, s.filename] }
  else .ok s

/-- The name of a file, as the scanner takes it. -/
abbrev FileName := { name : Text // name ≠ [] ∧ name.head? ≠ some '-' }

/-- An option with its value, which may be an argument of its own, or the file. -/
inductive Item where
  | hint (value : Hint) (apart : Bool)
  | test
  | file (name : FileName)
deriving DecidableEq

def Hint.text : Hint → Text
  | .one => ['1']
  | .safe => ['s', 'a', 'f', 'e']

def Item.words : Item → List Text
  | .hint value false => ['-' :: '-' :: (hintName ++ '=' :: value.text)]
  | .hint value true => ['-' :: '-' :: hintName, value.text]
  | .test => ['-' :: '-' :: Main.text "test"]
  | .file name => [name.val]

def Item.hint? : Item → Option Hint
  | .hint value _ => some value
  | _ => none

def Item.file? : Item → Option Text
  | .file name => some name.val
  | _ => none

def hints (items : List Item) : List Hint := items.filterMap Item.hint?

def files (items : List Item) : List Text := items.filterMap Item.file?

def words (items : List Item) : List Text := items.flatMap Item.words

/-- What an argument is answered with. -/
def answer (arg : Text) : Option Text :=
  if arg = text "--version" then some build.versionText
  else if arg = text "--help" ∨ ['-', 'h'] <+: arg then some (helpText program)
  else none

def State.take (s : State) : Item → State
  | .hint value _ => { s with hint := value }
  | .test => { s with contextType := .test }
  | .file name => { s with filename := name.val }

section
variable {build program} {s : State} {item : Item} {items : List Item} {arg : Text} {args rest : List Text}

theorem foldl_take_hint : (items.foldl State.take s).hint = ((hints items).getLast?).getD s.hint := by
  induction items generalizing s with
  | nil => rfl
  | cons item items ih =>
      rw [List.foldl_cons, ih]
      cases item with
      | hint value apart =>
          change _ = (List.getLast? (value :: hints items)).getD _
          rw [List.getLast?_cons]
          rfl
      | test => rfl
      | file name => rfl

theorem foldl_take_filename : (items.foldl State.take s).filename = ((files items).getLast?).getD s.filename := by
  induction items generalizing s with
  | nil => rfl
  | cons item items ih =>
      rw [List.foldl_cons, ih]
      cases item with
      | file name =>
          change _ = (List.getLast? (name.val :: files items)).getD _
          rw [List.getLast?_cons]
          rfl
      | test => rfl
      | hint value apart => rfl

theorem foldl_take_contextType :
    (items.foldl State.take s).contextType = if .test ∈ items then .test else s.contextType := by
  induction items generalizing s with
  | nil => rfl
  | cons item items ih =>
      rw [List.foldl_cons, ih]
      cases item with
      | test => simp [State.take]
      | file name => simp [State.take]
      | hint value apart => simp [State.take]

theorem foldl_take_appArgs : (items.foldl State.take s).appArgs = s.appArgs := by
  induction items generalizing s with
  | nil => rfl
  | cons item items ih =>
      rw [List.foldl_cons, ih]
      cases item <;> rfl

/-- A file may only be named if none was. -/
def State.Fits (s : State) : Item → Prop
  | .file _ => s.filename = []
  | _ => True

theorem opt_plain (h : arg ≠ []) (hhead : arg.head? ≠ some '-') : opt arg = .file := by
  rw [opt.eq_def]
  split
  · exact absurd rfl h
  · exact absurd rfl hhead
  · exact absurd rfl hhead
  · exact absurd rfl hhead
  · exact absurd rfl hhead
  · rfl

/-- What an argument is, for each of the scanner's rules. -/
inductive Reads : Text → Opt → Prop
  | bad : Reads [] .bad
  | args : Reads ['-', '-'] .args
  | stdin : Reads ['-'] .stdin
  | long (rest : Text) : Reads ('-' :: '-' :: rest) (.long rest)
  | short (c : Char) (rest : Text) : Reads ('-' :: c :: rest) (.short (c :: rest))
  | file (name : FileName) : Reads name.val .file

theorem opt_reads (arg : Text) : Reads arg (opt arg) := by
  cases arg with
  | nil => exact .bad
  | cons c cs =>
      by_cases hc : c = '-'
      · subst hc
        cases cs with
        | nil => exact .stdin
        | cons d ds =>
            by_cases hd : d = '-'
            · subst hd
              cases ds with
              | nil => exact .args
              | cons e es => exact .long (e :: es)
            · have hopt : opt ('-' :: d :: ds) = .short (d :: ds) := by
                rw [opt.eq_def]
                split <;> simp_all
              rw [hopt]
              exact .short d ds
      · have hname : c :: cs ≠ [] ∧ (c :: cs).head? ≠ some '-' :=
          ⟨List.cons_ne_nil c cs, fun hhead => hc (Option.some.inj hhead)⟩
        rw [opt_plain hname.1 hname.2]
        exact .file ⟨c :: cs, hname⟩

inductive ReadsLong : Text → OptLong → Prop
  | help : ReadsLong (text "help") .help
  | version : ReadsLong (text "version") .version
  | hint : ReadsLong hintName .hint
  | test : ReadsLong (text "test") .test
  | hintValue (value : Text) : ReadsLong (hintName ++ '=' :: value) (.hintValue value)
  | bad (s : Text) : ReadsLong s .bad

theorem optLong_reads (s : Text) : ReadsLong s (optLong s) := by
  rw [optLong]
  split
  · rename_i h
    rw [h]
    exact .help
  · split
    · rename_i h
      rw [h]
      exact .version
    · split
      · rename_i h
        rw [h]
        exact .hint
      · split
        · rename_i h
          rw [h]
          exact .test
        · split
          · rename_i h
            obtain ⟨value, rfl⟩ := h
            rw [List.append_assoc]
            exact .hintValue value
          · exact .bad s

theorem optLong_hintValue (value : Text) : optLong (hintName ++ '=' :: value) = .hintValue value := by
  have hprefix : hintName ++ ['='] <+: hintName ++ '=' :: value := ⟨value, by rw [List.append_assoc]; rfl⟩
  have hne : ∀ t : Text, t.head? ≠ some 'm' → hintName ++ '=' :: value ≠ t := by
    rintro t hhead rfl
    exact hhead rfl
  have hself : hintName ++ '=' :: value ≠ hintName := fun h => by
    have := congrArg List.length h
    simp at this
  rw [optLong, if_neg (hne _ (by decide)), if_neg (hne _ (by decide)), if_neg hself, if_neg (hne _ (by decide)), if_pos hprefix]
  rfl

theorem optHint_text (value : Hint) : optHint value.text = .ok value := by
  cases value <;> rfl

theorem optHint_cases (value : Text) : (∃ h : Hint, value = h.text ∧ optHint value = .ok h) ∨
    ∃ e, optHint value = .error (fail e) := by
  rw [optHint]
  split
  · rename_i h
    exact .inl ⟨.one, h, rfl⟩
  · split
    · rename_i h
      exact .inl ⟨.safe, h, rfl⟩
    · exact .inr ⟨_, rfl⟩

/-- The scanner at an item goes on behind it. -/
theorem scan_item (h : s.Fits item) : scan build program s (item.words ++ rest) = scan build program (s.take item) rest := by
  cases item with
  | hint value apart =>
      cases apart with
      | false =>
          have hopt : opt ('-' :: '-' :: (hintName ++ '=' :: value.text)) = .long (hintName ++ '=' :: value.text) := rfl
          change scan build program s (_ :: rest) = _
          rw [scan.eq_def]
          dsimp only
          rw [hopt]
          dsimp only
          rw [optLong_hintValue]
          dsimp only
          rw [optHint_text]
          rfl
      | true =>
          change scan build program s (_ :: value.text :: rest) = _
          have hopt : opt ('-' :: '-' :: hintName) = .long hintName := rfl
          have hlong : optLong hintName = .hint := by decide
          rw [scan.eq_def]
          dsimp only
          rw [hopt]
          dsimp only
          rw [hlong]
          dsimp only
          rw [optHint_text]
          rfl
  | test =>
      change scan build program s (_ :: rest) = _
      have hopt : opt ('-' :: '-' :: text "test") = .long (text "test") := rfl
      have hlong : optLong (text "test") = .test := by decide
      rw [scan.eq_def]
      dsimp only
      rw [hopt]
      dsimp only
      rw [hlong]
      rfl
  | file name =>
      change scan build program s (name.val :: rest) = _
      have hempty : s.filename = [] := h
      rw [scan.eq_def]
      dsimp only
      rw [opt_plain name.property.1 name.property.2]
      dsimp only
      rw [if_neg (not_not.mpr hempty)]
      rfl

theorem answer_help (h : ['-', 'h'] <+: arg) : answer build program arg = some (helpText program) := by
  have hversion : arg ≠ text "--version" := by
    rintro rfl
    revert h
    decide
  rw [answer, if_neg hversion, if_pos (.inr h)]

/-- What the scanner does at an argument. -/
theorem scan_cons (s : State) (arg : Text) (args : List Text) :
    (∃ item rest, s.Fits item ∧ arg :: args = item.words ++ rest) ∨
    (arg = ['-', '-'] ∧ scan build program s (arg :: args) = .ok { s with appArgs := program :: s.filename :: args }) ∨
    (∃ message, answer build program arg = some message ∧ scan build program s (arg :: args) = .error ⟨0, .out, message⟩) ∨
    ∃ message, scan build program s (arg :: args) = .error (fail message) := by
  rw [scan.eq_def]
  dsimp only
  have hreads := opt_reads arg
  generalize opt arg = o at hreads
  cases hreads with
  | bad => exact .inr (.inr (.inr ⟨_, rfl⟩))
  | args => exact .inr (.inl ⟨rfl, rfl⟩)
  | stdin => exact .inr (.inr (.inr ⟨_, rfl⟩))
  | file name =>
      by_cases hempty : s.filename = []
      · exact .inl ⟨.file name, args, hempty, rfl⟩
      · dsimp only
        rw [if_pos hempty]
        exact .inr (.inr (.inr ⟨_, rfl⟩))
  | short c rest =>
      by_cases hc : c = 'h'
      · subst hc
        exact .inr (.inr (.inl ⟨helpText program, answer_help ⟨rest, rfl⟩, rfl⟩))
      · have hbad : optShort (c :: rest) = .bad := by
          rw [optShort.eq_def]
          split <;> simp_all
        dsimp only
        rw [hbad]
        exact .inr (.inr (.inr ⟨_, rfl⟩))
  | long rest =>
      have hlong := optLong_reads rest
      dsimp only
      generalize optLong rest = o at hlong
      cases hlong with
      | help => exact .inr (.inr (.inl ⟨helpText program, rfl, rfl⟩))
      | version => exact .inr (.inr (.inl ⟨build.versionText, rfl, rfl⟩))
      | test => exact .inl ⟨.test, args, trivial, rfl⟩
      | bad => exact .inr (.inr (.inr ⟨_, rfl⟩))
      | hintValue value =>
          rcases optHint_cases value with ⟨h, rfl, -⟩ | ⟨e, he⟩
          · exact .inl ⟨.hint h false, args, trivial, rfl⟩
          · dsimp only
            rw [he]
            exact .inr (.inr (.inr ⟨e, rfl⟩))
      | hint =>
          cases args with
          | nil => exact .inr (.inr (.inr ⟨_, rfl⟩))
          | cons value args =>
              rcases optHint_cases value with ⟨h, rfl, -⟩ | ⟨e, he⟩
              · exact .inl ⟨.hint h true, args, trivial, rfl⟩
              · dsimp only
                rw [he]
                exact .inr (.inr (.inr ⟨e, rfl⟩))

/-- So many files can be named from a state on. -/
def State.Room (s : State) (items : List Item) : Prop := files items = [] ∨ s.filename = [] ∧ (files items).length = 1

theorem room_cons : s.Room (item :: items) ↔ s.Fits item ∧ (s.take item).Room items := by
  cases item with
  | hint value apart => exact ⟨fun h => ⟨trivial, h⟩, And.right⟩
  | test => exact ⟨fun h => ⟨trivial, h⟩, And.right⟩
  | file name =>
      change (name.val :: files items = [] ∨ s.filename = [] ∧ (files items).length + 1 = 1) ↔
        s.filename = [] ∧ (files items = [] ∨ name.val = [] ∧ (files items).length = 1)
      constructor
      · rintro (h | ⟨h, hlen⟩)
        · cases h
        · exact ⟨h, .inl (List.length_eq_zero_iff.mp (by omega))⟩
      · rintro ⟨h, hnil | ⟨hname, -⟩⟩
        · exact .inr ⟨h, by rw [hnil]; rfl⟩
        · exact absurd hname name.property.1

theorem scan_items (h : s.Room items) :
    scan build program s (words items ++ rest) = scan build program (items.foldl State.take s) rest := by
  induction items generalizing s with
  | nil => rfl
  | cons item items ih =>
      obtain ⟨hfits, hroom⟩ := room_cons.mp h
      have hwords : words (item :: items) ++ rest = item.words ++ (words items ++ rest) := by
        rw [words, List.flatMap_cons, List.append_assoc]
        rfl
      rw [hwords, scan_item hfits, ih hroom]
      rfl

/-- The items that are read before the scanner ends, and why it does. -/
inductive Ends (build : Build) (program : Text) (s : State) : List Text → Except Exit State → Prop
  | all (items : List Item) (hroom : s.Room items) : Ends build program s (words items) (.ok (items.foldl State.take s))
  | args (items : List Item) (hroom : s.Room items) (rest : List Text) :
      Ends build program s (words items ++ ['-', '-'] :: rest)
        (.ok { items.foldl State.take s with appArgs := program :: (items.foldl State.take s).filename :: rest })
  | answered (items : List Item) (hroom : s.Room items) {arg : Text} (rest : List Text) {message : Text}
      (hanswer : answer build program arg = some message) :
      Ends build program s (words items ++ arg :: rest) (.error ⟨0, .out, message⟩)
  | failed (args : List Text) (message : Text) : Ends build program s args (.error (fail message))

theorem Ends.cons {r : Except Exit State} (hfits : s.Fits item) (h : Ends build program (s.take item) rest r) :
    Ends build program s (item.words ++ rest) r := by
  have hwords : ∀ items more, item.words ++ (words items ++ more) = words (item :: items) ++ more := by
    intro items more
    rw [words, words, List.flatMap_cons, List.append_assoc]
  cases h with
  | all items hroom => exact .all (item :: items) (room_cons.mpr ⟨hfits, hroom⟩)
  | args items hroom rest =>
      rw [hwords]
      exact .args (item :: items) (room_cons.mpr ⟨hfits, hroom⟩) rest
  | answered items hroom rest hanswer =>
      rw [hwords]
      exact .answered (item :: items) (room_cons.mpr ⟨hfits, hroom⟩) rest hanswer
  | failed args message => exact .failed _ message

theorem Item.words_pos (item : Item) : 0 < item.words.length := by
  cases item with
  | hint value apart => cases apart <;> exact Nat.succ_pos _
  | test => exact Nat.one_pos
  | file name => exact Nat.one_pos

theorem scan_ends (s : State) (args : List Text) : Ends build program s args (scan build program s args) := by
  induction hn : args.length using Nat.strong_induction_on generalizing s args with
  | h n ih =>
      subst hn
      cases args with
      | nil => exact .all [] (.inl rfl)
      | cons arg args =>
          rcases @scan_cons build program s arg args with
            ⟨item, rest, hfits, heq⟩ | ⟨rfl, hok⟩ | ⟨message, hanswer, herr⟩ | ⟨message, herr⟩
          · have hlen : rest.length < (arg :: args).length := by
              rw [heq, List.length_append]
              have hpos := item.words_pos
              omega
            rw [heq, scan_item hfits]
            exact .cons hfits (ih _ hlen _ _ rfl)
          · rw [hok]
            exact .args [] (.inl rfl) args
          · rw [herr]
            exact .answered [] (.inl rfl) args hanswer
          · rw [herr]
            exact .failed _ message

theorem scan_answered {message : Text} (h : answer build program arg = some message) :
    scan build program s (arg :: rest) = .error ⟨0, .out, message⟩ := by
  rw [answer] at h
  split at h
  · rename_i hversion
    cases h
    rw [hversion]
    rfl
  · split at h
    · rename_i hhelp
      cases h
      rcases hhelp with rfl | ⟨more, rfl⟩
      · rfl
      · rfl
    · cases h

theorem scan_dashes : scan build program s (['-', '-'] :: rest) = .ok { s with appArgs := program :: s.filename :: rest } := rfl

theorem options_error {e : Exit} (hscan : scan build program .start args = .error e) : options build program args = .error e := by
  rw [options, hscan]
  rfl

theorem options_scan {r : State} (hscan : scan build program .start args = .ok r) :
    options build program args = if r.filename = [] then .error (fail (text "missing filename\n"))
      else if r.appArgs = [] then .ok { r with appArgs := [program, r.filename] } else .ok r := by
  rw [options, hscan]
  rfl

theorem room_start : State.start.Room items ↔ (files items).length ≤ 1 := by
  rw [State.Room, ← List.length_eq_zero_iff]
  constructor
  · rintro (h | ⟨-, h⟩) <;> omega
  · intro h
    rcases Nat.le_one_iff_eq_zero_or_eq_one.mp h with h | h
    · exact .inl h
    · exact .inr ⟨rfl, h⟩

theorem files_ne {name : Text} (h : name ∈ files items) : name ≠ [] := by
  obtain ⟨item, -, hitem⟩ := List.mem_filterMap.mp h
  cases item with
  | hint value apart => cases hitem
  | test => cases hitem
  | file name' =>
      cases hitem
      exact name'.property.1

/-- The state behind the items, with one file among them or none. -/
def State.behind (items : List Item) (filename : Text) (appArgs : List Text) : State :=
  ⟨filename, (hints items).getLast?.getD .safe, if .test ∈ items then .test else .main, appArgs⟩

theorem foldl_start (items : List Item) :
    items.foldl State.take .start = .behind items ((files items).getLast?.getD []) [] := by
  have hhint := @foldl_take_hint .start items
  have hname := @foldl_take_filename .start items
  have htype := @foldl_take_contextType .start items
  have happ := @foldl_take_appArgs .start items
  generalize items.foldl State.take .start = r at hhint hname htype happ
  cases r
  cases hhint
  cases hname
  cases htype
  cases happ
  rfl

theorem options_missing {appArgs : List Text} (hfiles : files items = [])
    (hscan : scan build program .start args = .ok { items.foldl State.take .start with appArgs := appArgs }) :
    options build program args = .error (fail (text "missing filename\n")) := by
  have hempty : (items.foldl State.take .start).filename = [] := by
    rw [foldl_start, hfiles]
    rfl
  rw [options_scan hscan, if_pos hempty]

theorem options_named {name : Text} {appArgs : List Text} (hfiles : files items = [name])
    (hscan : scan build program .start args = .ok { items.foldl State.take .start with appArgs := appArgs }) :
    options build program args = .ok (.behind items name (if appArgs = [] then [program, name] else appArgs)) := by
  have hne : name ≠ [] := files_ne (by rw [hfiles]; exact List.mem_singleton_self name)
  have hstate : ({ items.foldl State.take .start with appArgs := appArgs } : State) = .behind items name appArgs := by
    rw [foldl_start, hfiles]
    rfl
  rw [hstate] at hscan
  rw [options_scan hscan]
  change (if name = [] then _ else if appArgs = [] then _ else _) = _
  rw [if_neg hne]
  split
  · rename_i happ
    cases happ
    rfl
  · rfl

/-- How the command line is taken as a whole. -/
inductive Taken (build : Build) (program : Text) : List Text → Except Exit State → Prop
  | all (items : List Item) {name : Text} (hfiles : files items = [name]) :
      Taken build program (words items) (.ok (.behind items name [program, name]))
  | args (items : List Item) {name : Text} (hfiles : files items = [name]) (rest : List Text) :
      Taken build program (words items ++ ['-', '-'] :: rest) (.ok (.behind items name (program :: name :: rest)))
  | answered (items : List Item) (hfiles : (files items).length ≤ 1) {arg : Text} (rest : List Text) {message : Text}
      (hanswer : answer build program arg = some message) :
      Taken build program (words items ++ arg :: rest) (.error ⟨0, .out, message⟩)
  | failed (args : List Text) (message : Text) : Taken build program args (.error (fail message))

theorem options_taken (args : List Text) : Taken build program args (options build program args) := by
  have hends := @scan_ends build program .start args
  generalize hscan : scan build program .start args = r at hends
  cases hends with
  | failed args message =>
      rw [options_error hscan]
      exact .failed args message
  | answered items hroom rest hanswer =>
      rw [options_error hscan]
      exact .answered items (room_start.mp hroom) rest hanswer
  | all items hroom =>
      rcases Nat.le_one_iff_eq_zero_or_eq_one.mp (room_start.mp hroom) with hlen | hlen
      · rw [@options_missing build program items _ [] (List.length_eq_zero_iff.mp hlen)]
        · exact .failed _ _
        · rw [hscan]
          congr 1
          rw [foldl_start]
          rfl
      · obtain ⟨name, hfiles⟩ := List.length_eq_one_iff.mp hlen
        rw [@options_named build program items _ name [] hfiles]
        · exact .all items hfiles
        · rw [hscan]
          congr 1
          rw [foldl_start]
          rfl
  | args items hroom rest =>
      rcases Nat.le_one_iff_eq_zero_or_eq_one.mp (room_start.mp hroom) with hlen | hlen
      · rw [options_missing (List.length_eq_zero_iff.mp hlen) hscan]
        exact .failed _ _
      · obtain ⟨name, hfiles⟩ := List.length_eq_one_iff.mp hlen
        rw [options_named hfiles hscan]
        have hname : (items.foldl State.take .start).filename = name := by
          rw [foldl_start, hfiles]
          rfl
        rw [hname]
        exact .args items hfiles rest

theorem options_answered {message : Text} (hfiles : (files items).length ≤ 1) (h : answer build program arg = some message) :
    options build program (words items ++ arg :: rest) = .error ⟨0, .out, message⟩ := by
  have hscan : scan build program .start (words items ++ arg :: rest) = .error ⟨0, .out, message⟩ := by
    rw [scan_items (room_start.mpr hfiles), scan_answered h]
  exact options_error hscan

theorem options_all {name : Text} (hfiles : files items = [name]) :
    options build program (words items) = .ok (.behind items name [program, name]) := by
  have hroom : State.start.Room items := room_start.mpr (by rw [hfiles]; exact Nat.le_refl 1)
  have hscan : scan build program .start (words items) = .ok { items.foldl State.take .start with appArgs := [] } := by
    have h := @scan_items build program _ items [] hroom
    rw [List.append_nil] at h
    rw [h, foldl_start]
    rfl
  rw [options_named hfiles hscan]
  rfl

theorem options_args {name : Text} (hfiles : files items = [name]) :
    options build program (words items ++ ['-', '-'] :: rest) = .ok (.behind items name (program :: name :: rest)) := by
  have hroom : State.start.Room items := room_start.mpr (by rw [hfiles]; exact Nat.le_refl 1)
  have hscan : scan build program .start (words items ++ ['-', '-'] :: rest) =
      .ok { items.foldl State.take .start with appArgs := program :: name :: rest } := by
    have hname : (items.foldl State.take .start).filename = name := by
      rw [foldl_start, hfiles]
      rfl
    rw [scan_items hroom, scan_dashes]
    subst hname
    rfl
  rw [options_named hfiles hscan]
  rfl

/-- A command line is accepted if it is made of options and exactly one file, up to
the end or to a `--` with anything behind it. The last hint counts. It is answered
if there is an argument that asks for it behind options and at most one file, and
anything else is an error. -/
theorem options_iff (build : Build) (program : Text) (args : List Text) :
    (∀ s, options build program args = .ok s ↔ ∃ items rest, files items = [s.filename] ∧
      (args = words items ∧ rest = [] ∨ args = words items ++ ['-', '-'] :: rest) ∧
      s.hint = (hints items).getLast?.getD .safe ∧ (s.contextType = if .test ∈ items then .test else .main) ∧
      s.appArgs = program :: s.filename :: rest) ∧
    (∀ message, options build program args = .error ⟨0, .out, message⟩ ↔ ∃ items arg rest,
      args = words items ++ arg :: rest ∧ (files items).length ≤ 1 ∧ answer build program arg = some message) ∧
    ∀ e, options build program args = .error e → e.code = 2 ∧ e.stream = .err ∨ e.code = 0 ∧ e.stream = .out := by
  have htaken := @options_taken build program args
  refine ⟨fun s => ⟨fun h => ?_, ?_⟩, fun message => ⟨fun h => ?_, ?_⟩, fun e h => ?_⟩
  · rw [h] at htaken
    cases htaken with
    | all items hfiles => exact ⟨items, [], hfiles, .inl ⟨rfl, rfl⟩, rfl, rfl, rfl⟩
    | args items hfiles rest => exact ⟨items, rest, hfiles, .inr rfl, rfl, rfl, rfl⟩
  · rintro ⟨items, rest, hfiles, hargs, hhint, htype, happ⟩
    obtain ⟨filename, hint, contextType, appArgs⟩ := s
    dsimp only at hhint htype happ hfiles
    subst hhint htype happ
    rcases hargs with ⟨rfl, rfl⟩ | rfl
    · exact options_all hfiles
    · exact options_args hfiles
  · rw [h] at htaken
    cases htaken with
    | answered items hfiles rest hanswer => exact ⟨items, _, rest, rfl, hfiles, hanswer⟩
  · rintro ⟨items, arg, rest, rfl, hfiles, hanswer⟩
    exact options_answered hfiles hanswer
  · rw [h] at htaken
    cases htaken with
    | answered items hfiles rest hanswer => exact .inr ⟨rfl, rfl⟩
    | failed args message => exact .inl ⟨rfl, rfl⟩

end

end Emilua.Main
