import Emilua.Lib.Wire
import Emilua.Lib.LexicalPath

/-!
How `require` and `spawn_vm` turn a module id into the path of a file. Each of
the two functions scans the id by the patterns of `modules.re` and walks from
the importing module's directory, or from its import root, to the directory in
which it looks for the file.

An id is a Lua string, which a NUL follows; the scanners stop at the first one.
-/
namespace Emilua.Import
open Wire

abbrev Path := LexicalPath UInt8

/-- `badSource` is what reading or compiling a file raises. -/
inductive Errc where
  | invalidModuleName
  | leafCannotImportChild
  | rootCannotImportParent
  | moduleNotFound
  | cyclicImport
  | currentModuleNotKnown
  | onlyMainFiberMayImport
  | system (errno : Nat)
  | badSource
deriving DecidableEq, Repr

/-- The error code, and the `module` field of the error object. -/
structure Raised where
  code : Errc
  module : Option Bytes
deriving DecidableEq, Repr

/-- `.lua`, `init.lua` and `.ttl`. -/
def luaSuffix : Bytes := [46, 108, 117, 97]
def initLua : Bytes := [105, 110, 105, 116] ++ luaSuffix
def ttlSuffix : Bytes := [46, 116, 116, 108]

/-- What `modules_cache_registry` and `rdf_ec_cache_registry` hold, and what
`fs::exists` answers. -/
structure Files where
  cached : Path → Bool
  rdfCached : Path → Bool
  onDisk : Path → Except Nat Bool

/-- The importing module with its entry of the import tree. -/
structure Importer where
  path : Path
  isLeaf : Bool
  importRoot : Path

def isNameStart (c : UInt8) : Bool :=
  (97 ≤ c && c ≤ 122) || (65 ≤ c && c ≤ 90) || c == 95

def isNameChar (c : UInt8) : Bool := isNameStart c || (48 ≤ c && c ≤ 57)

/-- `emilua_modnamepat`, the longest match and what follows it. -/
def scanName : Bytes → Option (Bytes × Bytes)
  | [] => none
  | c :: s =>
      if isNameStart c then some (c :: s.takeWhile isNameChar, s.dropWhile isNameChar) else none

/-- `*YYCURSOR == '\0'` -/
def atEnd : Bytes → Bool
  | [] => true
  | c :: _ => c == 0

/-- `loop_parse_dot`: the number of `../` and the module name after them. -/
def parseDot : Nat → Bytes → Option (Nat × Bytes)
  | nparents, 46 :: 46 :: 47 :: s => parseDot (nparents + 1) s
  | nparents, s =>
      match scanName s with
      | some (name, rest) => if atEnd rest then some (nparents, name) else none
      | none => none

/-- `loop_parse_slash`: the components of an absolute id before the last one,
and the last one. A component takes at least two characters of the id. -/
def parseSlashFrom : Nat → Bytes → Option (List Bytes × Bytes)
  | fuel + 1, 47 :: s =>
      match scanName s with
      | some (name, rest) =>
          if atEnd rest then some ([], name)
          else (parseSlashFrom fuel rest).map fun (dirs, last) => (name :: dirs, last)
      | none => none
  | _, _ => none

def parseSlash (id : Bytes) : Option (List Bytes × Bytes) := parseSlashFrom id.length id

/-- `module_id.starts_with("./")`, `remove_prefix(2)` -/
def dropLocal : Bytes → Bytes
  | 46 :: 47 :: s => s
  | s => s

/-- The walk to the parent directories, which does not go above the root. -/
def climb (importRoot : Path) : Nat → Path → Except Errc Path
  | 0, p => .ok p
  | n + 1, p =>
      if !p.hasParentPath || p = importRoot then .error .rootCannotImportParent
      else climb importRoot n p.parentPath

/-- Steps of the loop `for (int i = (is_leaf ? 1 : 0) ; i != nparents ; ++i)`. -/
def parentSteps (isLeaf : Bool) (nparents : Nat) : Nat :=
  nparents - if isLeaf then 1 else 0

section Probe
variable (files : Files) (dir : Path) (name : Bytes)

def leafPath : Path := dir.child (name ++ luaSuffix)
def initPath : Path := (dir.child name).child initLua
def ttlPath : Path := dir.child (name ++ ttlSuffix)

/-- The file of a Lua module, and whether the module is a leaf. -/
def probeLua : Except Errc (Path × Bool) :=
  if files.cached (leafPath dir name) then .ok (leafPath dir name, true)
  else if files.cached (initPath dir name) then .ok (initPath dir name, false)
  else
    match files.onDisk (leafPath dir name) with
    | .error errno => .error (.system errno)
    | .ok true => .ok (leafPath dir name, true)
    | .ok false =>
        match files.onDisk (initPath dir name) with
        | .error errno => .error (.system errno)
        | .ok true => .ok (initPath dir name, false)
        | .ok false => .error .moduleNotFound

inductive Resolved where
  | module (path : Path) (isLeaf : Bool)
  | errorCategory (path : Path)
deriving DecidableEq

/-- The absolute branch of `require` looks for an error category too. -/
def probeAbsolute : Except Errc Resolved :=
  if files.cached (leafPath dir name) then .ok (.module (leafPath dir name) true)
  else if files.cached (initPath dir name) then .ok (.module (initPath dir name) false)
  else if files.rdfCached (ttlPath dir name) then .ok (.errorCategory (ttlPath dir name))
  else
    match files.onDisk (leafPath dir name) with
    | .error errno => .error (.system errno)
    | .ok true => .ok (.module (leafPath dir name) true)
    | .ok false =>
        match files.onDisk (initPath dir name) with
        | .error errno => .error (.system errno)
        | .ok true => .ok (.module (initPath dir name) false)
        | .ok false =>
            match files.onDisk (ttlPath dir name) with
            | .error errno => .error (.system errno)
            | .ok true => .ok (.errorCategory (ttlPath dir name))
            | .ok false => .error .moduleNotFound

end Probe

def raise {α : Type} (code : Errc) (module : Option Bytes) : Except Raised α :=
  .error ⟨code, module⟩

def withModule {α : Type} (r : Except Errc α) (module : Option Bytes) : Except Raised α :=
  r.mapError fun code => ⟨code, module⟩

/-- `require`, for an id that starts with a dot. -/
def requireRelative (files : Files) (importer : Importer) (id : Bytes) :
    Except Raised (Path × Bool) :=
  match parseDot 0 (dropLocal id) with
  | none => raise .invalidModuleName (some id)
  | some (nparents, name) =>
      if nparents = 0 ∧ importer.isLeaf = true then raise .leafCannotImportChild none
      else do
        let dir ← withModule (climb importer.importRoot (parentSteps importer.isLeaf nparents)
          importer.path.parentPath) none
        withModule (probeLua files dir name) (some id)

/-- `require`, for an id that starts with a slash. The import tree is searched
for the directory, not for the file. -/
def requireAbsolute (files : Files) (inTree : Path → Bool) (importer : Importer) (id : Bytes) :
    Except Raised Resolved :=
  match parseSlash id with
  | none => raise .invalidModuleName (some id)
  | some (dirs, name) =>
      let dir := dirs.foldl LexicalPath.child importer.importRoot
      if inTree dir then raise .cyclicImport none
      else withModule (probeAbsolute files dir name) (some id)

/-- `spawn_vm`, for an id that starts with a dot. -/
def spawnRelative (files : Files) (importer : Importer) (id : Bytes) : Except Raised Path :=
  let id := dropLocal id
  match parseDot 0 id with
  | none => raise .invalidModuleName (some id)
  | some (nparents, name) =>
      if nparents = 0 ∧ importer.isLeaf = true then raise .leafCannotImportChild none
      else do
        let dir ← withModule (climb importer.importRoot (parentSteps importer.isLeaf nparents)
          importer.path.parentPath) none
        let found ← withModule (probeLua files dir name) (some name)
        .ok found.1

/-- `spawn_vm`, for an id that starts with a slash. The components before the
last one go into `module_path`, which is then set to the import root. -/
def spawnAbsolute (files : Files) (importer : Importer) (id : Bytes) : Except Raised Path :=
  match parseSlash id with
  | none => raise .invalidModuleName (some id)
  | some (_, name) => do
      let found ← withModule (probeLua files importer.importRoot name) (some name)
      .ok found.1

inductive Kind where
  | relative
  | absolute
  | external
deriving DecidableEq, Repr

def kind : Bytes → Kind
  | 46 :: _ => .relative
  | 47 :: _ => .absolute
  | _ => .external

/-- The file `require` finds for an id that is not an external package's. -/
def requireResolve (files : Files) (inTree : Path → Bool) (importer : Importer) (id : Bytes) :
    Except Raised Resolved :=
  match kind id with
  | .relative => do
      let found ← requireRelative files importer id
      .ok (.module found.1 found.2)
  | .absolute => requireAbsolute files inTree importer id
  | .external => raise .moduleNotFound (some id)

/-- The file `spawn_vm` finds for an id. -/
def spawnResolve (files : Files) (importer : Importer) (id : Bytes) : Except Raised Path :=
  if id = [46] then .ok importer.path
  else
    match kind id with
    | .relative => spawnRelative files importer id
    | .absolute => spawnAbsolute files importer id
    | .external => raise .invalidModuleName none

end Emilua.Import
