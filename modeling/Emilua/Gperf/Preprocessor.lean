import Emilua.Lib.Fuel
import Emilua.Lib.Scan

/-!
`emilua_gperf.awk`. The functions share one text buffer, `$0`, that each consumes
from the front, and puts another text into for a while. What the tool gperf makes
of a block is a parameter.
-/
namespace Emilua.Gperf
open Fuel Scan

abbrev Text := List Char

inductive Macro where
  | blockBegin
  | blockEnd
  | param
  | defaultValue
  | pair
  | ppguard
  | declsBegin
  deriving DecidableEq

def Macro.word : Macro → Text
  | .blockBegin => "EMILUA_GPERF_BEGIN".toList
  | .blockEnd => "EMILUA_GPERF_END".toList
  | .param => "EMILUA_GPERF_PARAM".toList
  | .defaultValue => "EMILUA_GPERF_DEFAULT_VALUE".toList
  | .pair => "EMILUA_GPERF_PAIR".toList
  | .ppguard => "EMILUA_GPERF_PPGUARD".toList
  | .declsBegin => "EMILUA_GPERF_DECLS_BEGIN".toList

/-- The macros that are looked for in a block. -/
def blockMacros : List Macro := [.blockBegin, .blockEnd, .param, .defaultValue, .pair, .ppguard]

def topMacros : List Macro := [.blockBegin, .declsBegin]

inductive Exit where
  | openParensExpected (got : Text)
  | duplicateValue (key : Text)
  | badName (symbol : Text)
  | blockCannotAppearHere
  | mismatchedBlocks (symbol : Text)
  | gperfFailed
  deriving DecidableEq

/-- What is written to the standard error. -/
def Exit.message : Exit → Text
  | .openParensExpected got => "Open parens expected. Got: `".toList ++ got ++ "`\n".toList
  | .duplicateValue key => "ERROR: Duplicate value found: `".toList ++ key ++ "`\n".toList
  | .badName symbol => "Bad name for block: `".toList ++ symbol ++ "`\n".toList
  | .blockCannotAppearHere => "GPERF block cannot appear here\n".toList
  | .mismatchedBlocks symbol => "Mismatched blocks. Expected `".toList ++ symbol ++ "`\n".toList
  | .gperfFailed => "gperf exited with failure\n".toList

structure Globals where
  outputHeader : Text
  /-- `context["next"]` -/
  next : Nat
  /-- `context["next_value"]` -/
  nextValue : Nat
  deriving DecidableEq

structure Awk where
  /-- `$0` -/
  record : Text
  globals : Globals

/-- `context[context_index, …]`, with the values that the numbers in `pairs` stand for. -/
structure Context where
  index : Nat
  symbol : Text
  param : Text
  pairs : List (Text × Nat × Text)
  defaultValue : Text
  ppguard : Text

/-- The tool: the tables it writes for a block, with the values put in. `none` if it fails. -/
structure Tool where
  symbolPrefix : Text
  tables : Context → Option Text

def namespaced (out : Text) : Text :=
  "namespace emilua::gperf::detail \x7b\n".toList ++ out ++ "\x7d // namespace emilua::gperf::detail\n".toList

def gperf (tool : Tool) (context : Context) (globals : Globals) : Except Exit (Text × Globals) :=
  match tool.tables context with
  | none => .error .gperfFailed
  | some out =>
      let tables :=
        if context.ppguard.length > 0 then
          "#if ".toList ++ context.ppguard ++ "\n".toList ++ namespaced out ++
            "#endif // ".toList ++ context.ppguard ++ "\n".toList
        else namespaced out
      let name := tool.symbolPrefix ++ context.index.repr.toList
      let call := "::in_word_set((".toList ++ context.symbol ++ ").data(), (".toList ++ context.symbol ++ ").size())".toList
      let value :=
        if context.defaultValue.length > 0 then
          " ::emilua::gperf::detail::value_or(::emilua::gperf::detail::".toList ++ name ++ call ++ ", ".toList ++
            context.defaultValue ++ ")".toList
        else " ::emilua::gperf::detail::make_optional(::emilua::gperf::detail::".toList ++ name ++ call ++ ")".toList
      .ok (value, { globals with outputHeader := globals.outputHeader ++ tables })

/-! Arguments. Past the end of a string `substr` is empty. -/

def argumentsLoop (s : Text) : Nat → Nat → Nat → Option Nat
  | 0, _, _ => none
  | fuel + 1, i, levels =>
      if levels = 0 then some i
      else if s[i - 1]? = some '(' then argumentsLoop s fuel (i + 1) (levels + 1)
      else if s[i - 1]? = some ')' then argumentsLoop s fuel (i + 1) (levels - 1)
      else argumentsLoop s fuel (i + 1) levels

def processArguments (fuel : Nat) (g : Awk) : Run Exit (Text × Awk) :=
  if g.record.take 1 ≠ ['('] then some (.error (.openParensExpected (g.record.take 1)))
  else
    match argumentsLoop g.record fuel 2 1 with
    | none => none
    | some i => some (.ok ((g.record.drop 1).take (i - 3), { g with record := g.record.drop (i - 1) }))

/-- `([[:alpha:]_][[:alnum:]_]*)?` -/
def isName (s : Text) : Bool :=
  match s with
  | [] => true
  | c :: s => (c.isAlpha || c == '_') && s.all fun c => c.isAlphanum || c == '_'

/-- The text between the first two quotes. -/
def pairKey (s : Text) : Text :=
  let quoted := (s.dropWhile (· ≠ '"')).drop 1
  if '"' ∈ quoted then quoted.takeWhile (· ≠ '"') else []

/-- What stands up to the first comma, and what is behind it. -/
def splitComma (s : Text) : Text × Text :=
  if ',' ∈ s then (s.takeWhile (· ≠ ',') ++ [','], (s.dropWhile (· ≠ ',')).drop 1) else ([], s)

/-- The ampersands, written so that `sub` puts them in as they are. -/
def escapeAmpersands (s : Text) : Text := s.flatMap fun c => if c = '&' then ['\\', '&'] else [c]

/-! Blocks. -/

mutual

/-- The loop that the functions for the values of a block and for declarations
share: `$0` with the blocks in it expanded. What it leaves in `$0` is not read. -/
def expandBlocks (tool : Tool) : Nat → Text → Awk → Run Exit (Text × Globals)
  | 0, _, _ => none
  | fuel + 1, value, g =>
      match firstMatch Macro.word [.blockBegin] g.record with
      | none => some (.ok (value ++ g.record, g.globals))
      | some (before, _, after) =>
          andThen (processGperfBlock tool fuel { g with record := after }) fun r =>
            expandBlocks tool fuel (value ++ before ++ r.1) r.2

def processDefaultValue (tool : Tool) : Nat → Context → Awk → Run Exit (Context × Awk)
  | 0, _, _ => none
  | fuel + 1, context, g =>
      andThen (processArguments fuel g) fun (value, g) =>
        let aux := g.record
        andThen (expandBlocks tool fuel [] { g with record := value }) fun (value, globals) =>
          some (.ok ({ context with defaultValue := value }, ⟨aux, globals⟩))

def processPair (tool : Tool) : Nat → Context → Awk → Run Exit (Context × Awk)
  | 0, _, _ => none
  | fuel + 1, context, g =>
      andThen (processArguments fuel g) fun (arg, g) =>
        let key := pairKey arg
        if (context.pairs.map Prod.fst).contains key then some (.error (.duplicateValue key))
        else
          let savedInput := g.record
          andThen (expandBlocks tool fuel [] { g with record := (splitComma arg).2 }) fun (value, globals) =>
            let number := globals.nextValue
            some (.ok ({ context with pairs := context.pairs ++ [(key, number, escapeAmpersands value)] },
              ⟨savedInput, { globals with nextValue := number + 1 }⟩))

def processGperfBlock (tool : Tool) : Nat → Awk → Run Exit (Text × Awk)
  | 0, _ => none
  | fuel + 1, g =>
      let index := g.globals.next
      andThen (processArguments fuel { g with globals := { g.globals with next := index + 1 } }) fun (symbol, g) =>
        if isName symbol then blockLoop tool fuel ⟨index, symbol, [], [], [], []⟩ g
        else some (.error (.badName symbol))

/-- The loop over the macros of a block. -/
def blockLoop (tool : Tool) : Nat → Context → Awk → Run Exit (Text × Awk)
  | 0, _, _ => none
  | fuel + 1, context, g =>
      match firstMatch Macro.word blockMacros g.record with
      | none => some (.ok ([], g))
      | some (_, found, after) =>
          let g := { g with record := after }
          match found with
          | .blockBegin => some (.error .blockCannotAppearHere)
          | .blockEnd =>
              andThen (processArguments fuel g) fun (symbol, g) =>
                if symbol ≠ context.symbol then some (.error (.mismatchedBlocks context.symbol))
                else some ((gperf tool context g.globals).map fun r => (r.1, { g with globals := r.2 }))
          | .param =>
              andThen (processArguments fuel g) fun (param, g) => blockLoop tool fuel { context with param := param } g
          | .defaultValue =>
              andThen (processDefaultValue tool fuel context g) fun (context, g) => blockLoop tool fuel context g
          | .pair => andThen (processPair tool fuel context g) fun (context, g) => blockLoop tool fuel context g
          | .ppguard =>
              andThen (processArguments fuel g) fun (guard, g) => blockLoop tool fuel { context with ppguard := guard } g
          -- not one of the macros looked for
          | .declsBegin => none

end

/-! Declarations. -/

def namespaceWord : Text := "EMILUA_GPERF_NAMESPACE(".toList

/-- The name of the namespace macro that the text starts with. -/
def namespaceAt (s : Text) : Option Text :=
  if namespaceWord.isPrefixOf s then
    let rest := s.drop namespaceWord.length
    let name := rest.takeWhile fun c => c.isAlphanum || c == '_'
    if isName name && (rest.drop name.length).take 1 == [')'] then some name else none
  else none

/-- The name in the first namespace macro; empty if there is none. -/
def firstNamespace : Text → Text
  | [] => []
  | c :: s => (namespaceAt (c :: s)).getD (firstNamespace s)

/-- The text without the namespace macros, from behind the characters to skip. -/
def removeNamespaces : Nat → Text → Text
  | _, [] => []
  | skip + 1, _ :: s => removeNamespaces skip s
  | 0, c :: s =>
      match namespaceAt (c :: s) with
      | some name => removeNamespaces (namespaceWord.length + name.length) s
      | none => c :: removeNamespaces 0 s

def declsHeader (outputHeader value : Text) : Text :=
  let name := firstNamespace value
  let value := removeNamespaces 0 value
  if name.length > 0 then
    outputHeader ++ "namespace ".toList ++ name ++ " \x7b\n".toList ++ value ++ "\n\x7d // namespace ".toList ++ name ++
      "\n".toList
  else outputHeader ++ value

def declsEnd (symbol : Text) : Text := "EMILUA_GPERF_DECLS_END(".toList ++ symbol ++ ")".toList

/-- The text before the end of the declarations, and what is left in `$0`. Where
the end is not found, its index is 0. -/
def splitDecls (symbol s : Text) : Text × Text :=
  match firstMatch (fun _ => declsEnd symbol) [()] s with
  | none => ([], s.drop ((declsEnd symbol).length - 1))
  | some (value, _, rest) => (value, rest)

def processDeclsBlock (tool : Tool) (fuel : Nat) (g : Awk) : Run Exit Awk :=
  andThen (processArguments fuel g) fun (symbol, g) =>
    let savedInput := (splitDecls symbol g.record).2
    andThen (expandBlocks tool fuel [] { g with record := (splitDecls symbol g.record).1 }) fun (value, globals) =>
      some (.ok ⟨savedInput, { globals with outputHeader := declsHeader globals.outputHeader value }⟩)

/-! The whole input. -/

def mainLoop (tool : Tool) : Nat → Text → Awk → Run Exit (Text × Globals)
  | 0, _, _ => none
  | fuel + 1, outputBody, g =>
      match firstMatch Macro.word topMacros g.record with
      | none => some (.ok (outputBody ++ g.record, g.globals))
      | some (before, found, after) =>
          let g := { g with record := after }
          if found = .declsBegin then
            andThen (processDeclsBlock tool fuel g) fun g => mainLoop tool fuel (outputBody ++ before) g
          else
            andThen (processGperfBlock tool fuel g) fun (value, g) =>
              mainLoop tool fuel (outputBody ++ before ++ value) g

def initialGlobals : Globals where
  outputHeader :=
    "#include <cstring>\n\nnamespace emilua::gperf::detail \x7b using std::size_t; using std::strcmp; \x7d\n\n".toList
  next := 1
  nextValue := 1

/-- The file that is written for an input. -/
def preprocess (tool : Tool) (fuel : Nat) (input : Text) : Run Exit Text :=
  andThen (mainLoop tool fuel [] ⟨input, initialGlobals⟩) fun (outputBody, globals) =>
    some (.ok (globals.outputHeader ++ outputBody))

end Emilua.Gperf
