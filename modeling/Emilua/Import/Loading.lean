import Emilua.Import.Resolution
import Emilua.Lib.Transition

/-!
The modules of a process: its VMs, each with an import tree, and the caches
they share. A module is loaded by a fiber of its own, during which the
importing fiber waits, so the modules being loaded in a VM form a chain. Only
the innermost one runs its main fiber, and only main fibers may import.

The importer of an id is the module whose function calls `require`, which need
not be the innermost one: a loaded module may have handed out a function.
-/
namespace Emilua.Import
open Wire LexicalPath

inductive ContextType where
  | regular
  | main
  | test
  | worker
deriving DecidableEq, Repr

/-- `vm_context::import_data` -/
structure ImportData where
  isLeaf : Bool
  context : ContextType
  importRoot : Path
deriving DecidableEq

/-- What the process finds outside: `EMILUA_PATH` with the library directory,
the file system, the built-in modules and the native plugins. -/
structure App where
  cwd : Path
  cwd_absolute : cwd.absolute = true
  emiluaPath : List Path
  onDisk : Path → Except Nat Bool
  readable : Path → Bool
  compiles : Path → Bool
  rdfReadable : Path → Bool
  builtin : Bytes → Bool
  native : Path → Bytes → Bool

/-- `modules_cache_registry` and `rdf_ec_cache_registry` -/
structure Caches where
  modules : List Path
  rdf : List Path

/-- A VM as far as modules go. `chain` holds the modules being loaded, the
innermost one first, and `loads` every module whose loading was started. -/
structure Vm where
  importTree : List (Path × ImportData)
  loadedModules : List Path
  nativeModules : List Bytes
  visitedExternalPackages : List Bytes
  chain : List Path
  loads : List Path

def Vm.inTree (vm : Vm) (path : Path) : Bool := (vm.importTree.lookup path).isSome

/-- What `require` answers: a module that is there already, a module whose fiber
was started, something that is no Lua module, or an error. -/
inductive Reply where
  | loaded (path : Path)
  | started (path : Path)
  | other
  | raised (e : Raised)
deriving DecidableEq

def Reply.raise (code : Errc) (module : Option Bytes) : Reply := .raised ⟨code, module⟩

def Caches.files (app : App) (caches : Caches) : Files where
  cached p := caches.modules.contains p
  rdfCached p := caches.rdf.contains p
  onDisk := app.onDisk

/-- A module about to be loaded: where it lies, how it was found, and the id of
its package if it is an external one. -/
structure Candidate where
  path : Path
  isLeaf : Bool
  importRoot : Path
  package : Option Bytes

/-- A module becomes the innermost one being loaded. -/
def Vm.enter (vm : Vm) (context : ContextType) (m : Candidate) : Vm :=
  { vm with
    importTree := (m.path, ⟨m.isLeaf, context, m.importRoot⟩) :: vm.importTree
    visitedExternalPackages := m.package.toList ++ vm.visitedExternalPackages
    chain := m.path :: vm.chain
    loads := vm.loads ++ [m.path] }

/-- `start_module_fiber`. The source is compiled before anything is recorded. -/
def startModuleFiber (app : App) (vm : Vm) (context : ContextType) (m : Candidate)
    (module : Option Bytes) : Reply × Vm :=
  if app.compiles m.path then (.started m.path, vm.enter context m)
  else (.raise .badSource module, vm)

/-- The end of every branch: the source comes from the cache or from the file. -/
def loadModule (app : App) (caches : Caches) (vm : Vm) (context : ContextType) (m : Candidate)
    (module : Option Bytes) : Reply × Caches × Vm :=
  if caches.modules.contains m.path then
    let (reply, vm) := startModuleFiber app vm context m module
    (reply, caches, vm)
  else if app.readable m.path then
    let (reply, vm) := startModuleFiber app vm context m module
    (reply, { caches with modules := m.path :: caches.modules }, vm)
  else (.raise .badSource module, caches, vm)

/-- What one entry of `EMILUA_PATH` holds under the id of a package. -/
inductive Found where
  | lua (path : Path) (isLeaf : Bool)
  | category (path : Path)
  | native
deriving DecidableEq

/-- One round of the loop over `EMILUA_PATH`. An exception moves on to the next
entry, and so does an error category that cannot be read. -/
def findPackage (app : App) (caches : Caches) (p : Path) (id : Bytes) : Option Found :=
  let leaf := leafPath p id
  let init := initPath p id
  let ttl := ttlPath p id
  let fallback := if app.native p id then some .native else none
  let category := if app.rdfReadable (toAbsolute app.cwd ttl) then
    some (.category (toAbsolute app.cwd ttl)) else none
  if caches.modules.contains (toAbsolute app.cwd leaf) then
    some (.lua (toAbsolute app.cwd leaf) true)
  else if caches.modules.contains (toAbsolute app.cwd init) then
    some (.lua (toAbsolute app.cwd init) false)
  else if caches.rdf.contains (toAbsolute app.cwd ttl) then
    some (.category (toAbsolute app.cwd ttl))
  else
    match app.onDisk leaf with
    | .error _ => none
    | .ok true => some (.lua (toAbsolute app.cwd leaf) true)
    | .ok false =>
        match app.onDisk init with
        | .error _ => none
        | .ok true => some (.lua (toAbsolute app.cwd init) false)
        | .ok false =>
            match app.onDisk ttl with
            | .error _ => none
            | .ok true => category
            | .ok false => fallback

/-- The first entry of the path list that holds the package. -/
def searchPackage (app : App) (caches : Caches) (id : Bytes) : List Path → Option (Path × Found)
  | [] => none
  | p :: ps =>
      match findPackage app caches p id with
      | some found => some (p, found)
      | none => searchPackage app caches id ps

/-- `on_external_package` -/
def onExternalPackage (app : App) (caches : Caches) (vm : Vm) (context : ContextType)
    (id : Bytes) : Reply × Caches × Vm :=
  if vm.nativeModules.contains id then (.other, caches, vm)
  else
    match searchPackage app caches id app.emiluaPath with
    | none => (.raise .moduleNotFound (some id), caches, vm)
    | some (_, .native) =>
        (.other, caches, { vm with nativeModules := id :: vm.nativeModules })
    | some (_, .category path) =>
        (.other, { caches with rdf := path :: caches.rdf }, vm)
    | some (p, .lua path isLeaf) =>
        if vm.loadedModules.contains path then (.loaded path, caches, vm)
        else if vm.visitedExternalPackages.contains id then
          (.raise .cyclicImport (some id), caches, vm)
        else loadModule app caches vm context ⟨path, isLeaf, p, some id⟩ (some id)

/-- The context of an imported module: only a test hands its own down. -/
def childContext (context : ContextType) (id : Bytes) : ContextType :=
  if context = .test ∧ kind id = .relative then .test else .regular

section Require
variable (app : App) (caches : Caches) (vm : Vm)

def requireDot (importer : Importer) (context : ContextType) (id : Bytes) : Reply × Caches × Vm :=
  match requireRelative (caches.files app) importer id with
  | .error e => (.raised e, caches, vm)
  | .ok (path, isLeaf) =>
      if vm.loadedModules.contains path then (.loaded path, caches, vm)
      else if vm.inTree path then (.raise .cyclicImport none, caches, vm)
      else loadModule app caches vm context ⟨path, isLeaf, importer.importRoot, none⟩ none

def requireSlash (importer : Importer) (context : ContextType) (id : Bytes) :
    Reply × Caches × Vm :=
  match requireAbsolute (caches.files app) vm.inTree importer id with
  | .error e => (.raised e, caches, vm)
  | .ok (.errorCategory path) =>
      if caches.rdf.contains path then (.other, caches, vm)
      else if app.rdfReadable (toAbsolute app.cwd path) then
        (.other, { caches with rdf := toAbsolute app.cwd path :: caches.rdf }, vm)
      else (.raise .badSource none, caches, vm)
  | .ok (.module path isLeaf) =>
      if vm.loadedModules.contains path then (.loaded path, caches, vm)
      else loadModule app caches vm context ⟨path, isLeaf, importer.importRoot, none⟩ none

def requireExternal (context : ContextType) (id : Bytes) : Reply × Caches × Vm :=
  match scanName id with
  | none => (.raise .invalidModuleName (some id), caches, vm)
  | some (_, rest) =>
      if !atEnd rest then (.raise .invalidModuleName (some id), caches, vm)
      else if app.builtin id then (.other, caches, vm)
      else onExternalPackage app caches vm context id

/-- `require`, called by a function of the module `importer` on a fiber that is
the main fiber of its module or not. -/
def require (importer : Path) (onMainFiber : Bool) (id : Bytes) : Reply × Caches × Vm :=
  match vm.importTree.lookup importer with
  | none => (.raise .currentModuleNotKnown none, caches, vm)
  | some data =>
      if !onMainFiber then (.raise .onlyMainFiberMayImport none, caches, vm)
      else
        let context := childContext data.context id
        let importer : Importer := ⟨importer, data.isLeaf, data.importRoot⟩
        match kind id with
        | .relative => requireDot app caches vm importer context id
        | .absolute => requireSlash app caches vm importer context id
        | .external => requireExternal app caches vm context id

end Require

/-- The innermost module's fiber has ended. `mark_module_as_loaded` is the last
thing a module fiber does, and the fiber of the VM's entry point lacks it. -/
def Vm.finish (vm : Vm) (ok : Bool) : Vm :=
  match vm.chain with
  | [] => vm
  | [_] => { vm with chain := [] }
  | path :: rest =>
      { vm with
        chain := rest
        loadedModules := if ok then path :: vm.loadedModules else vm.loadedModules }

/-- `make_vm`, with the entry point as given and an import root that is empty
for the first VM of the process. -/
def makeVm (app : App) (context : ContextType) (entryPoint importRoot : Path) : Vm :=
  let entryPoint := toAbsolute app.cwd entryPoint
  let isLeaf := !importRoot.isEmpty && entryPoint.comps.getLast? ≠ some initLua
  let importRoot := if importRoot.isEmpty then entryPoint.parentPath else importRoot
  { importTree := [(entryPoint, ⟨isLeaf, context, importRoot⟩)]
    loadedModules := []
    nativeModules := []
    visitedExternalPackages := []
    chain := [entryPoint]
    loads := [entryPoint] }

structure Process where
  vms : List Vm
  caches : Caches

inductive Action where
  | require (vm : Nat) (importer : Path) (onMainFiber : Bool) (id : Bytes)
  | finish (vm : Nat) (ok : Bool)
  | spawnVm (vm : Nat) (importer : Path) (id : Bytes)
deriving DecidableEq

/-- The process right after the start: one VM for the program's file. -/
def Process.start (app : App) (context : ContextType) (filename : Path) : Process where
  vms := [makeVm app context filename ⟨false, [], by decide⟩]
  caches := ⟨[], []⟩

namespace Process

/-- `spawn_vm`, as far as it is about modules. -/
def spawnVm (app : App) (s : Process) (vm : Vm) (importer : Path) (id : Bytes) :
    Except Raised Process :=
  match vm.importTree.lookup importer with
  | none => raise .currentModuleNotKnown none
  | some data => do
      let path ← spawnResolve (s.caches.files app) ⟨importer, data.isLeaf, data.importRoot⟩ id
      .ok { s with vms := s.vms ++ [makeVm app .worker path data.importRoot] }

/-- One step. No main fiber is left to import once the chain is empty. -/
def exec (app : App) (s : Process) : Action → Except Raised Process
  | .require i importer onMainFiber id =>
      match s.vms[i]? with
      | none => .ok s
      | some vm =>
          if onMainFiber && vm.chain.isEmpty then .ok s
          else
            let (_, caches, vm) := Import.require app s.caches vm importer onMainFiber id
            .ok { vms := s.vms.set i vm, caches }
  | .finish i ok =>
      match s.vms[i]? with
      | none => .ok s
      | some vm => .ok { s with vms := s.vms.set i (vm.finish ok) }
  | .spawnVm i importer id =>
      match s.vms[i]? with
      | none => .ok s
      | some vm => s.spawnVm app vm importer id

def Initial (app : App) (s : Process) : Prop :=
  ∃ context filename, s = start app context filename

end Process

theorem Vm.enter_lookup (vm : Vm) (context : ContextType) (m : Candidate) (p : Path) :
    (vm.enter context m).importTree.lookup p =
      if p = m.path then some ⟨m.isLeaf, context, m.importRoot⟩ else vm.importTree.lookup p := by
  by_cases h : p = m.path
  · simp [Vm.enter, h]
  · simp only [Vm.enter, List.lookup_cons, show (p == m.path) = false by simpa using h, if_neg h]

@[simp] theorem Vm.finish_importTree (vm : Vm) (ok : Bool) :
    (vm.finish ok).importTree = vm.importTree := by
  unfold Vm.finish
  split <;> rfl

theorem makeVm_lookup {app : App} {context : ContextType} {entryPoint importRoot p : Path}
    {data : ImportData}
    (h : (makeVm app context entryPoint importRoot).importTree.lookup p = some data) :
    p = toAbsolute app.cwd entryPoint ∧ data.importRoot =
      if importRoot.isEmpty then p.parentPath else importRoot := by
  simp only [makeVm, List.lookup_cons, List.lookup_nil] at h
  split at h
  · rename_i heq
    rw [beq_iff_eq] at heq
    cases h
    exact ⟨heq, by rw [heq]⟩
  · cases h

section Cases
variable {app : App} {caches : Caches} {vm : Vm} {importer : Path} {onMainFiber : Bool}
  {id : Bytes}

/-- An id that is looked up in `EMILUA_PATH`. -/
def namesPackage (app : App) (vm : Vm) (id : Bytes) : Bool :=
  (scanName id).any (fun r => atEnd r.2) && !app.builtin id && !vm.nativeModules.contains id

theorem namesPackage_iff : namesPackage app vm id = true ↔
    ∃ found, scanName id = some found ∧ atEnd found.2 = true ∧ app.builtin id = false ∧
      vm.nativeModules.contains id = false := by
  cases h : scanName id <;> simp [namesPackage, h, and_assoc]

theorem ne_nil_of_namesPackage (h : namesPackage app vm id = true) : id ≠ [] := by
  rintro rfl
  cases h

/-- The module a call of `require` sets out to load. -/
inductive Picks (app : App) (caches : Caches) (vm : Vm) (importer : Path) (id : Bytes) :
    Candidate → Prop where
  | relative {data path isLeaf} (hdata : vm.importTree.lookup importer = some data)
      (hkind : kind id = .relative)
      (hfound : requireRelative (caches.files app) ⟨importer, data.isLeaf, data.importRoot⟩ id =
        .ok (path, isLeaf))
      (hnew : path ∉ vm.loadedModules) (htree : vm.inTree path = false) :
      Picks app caches vm importer id ⟨path, isLeaf, data.importRoot, none⟩
  | absolute {data path isLeaf} (hdata : vm.importTree.lookup importer = some data)
      (hkind : kind id = .absolute)
      (hfound : requireAbsolute (caches.files app) vm.inTree
        ⟨importer, data.isLeaf, data.importRoot⟩ id = .ok (.module path isLeaf))
      (hnew : path ∉ vm.loadedModules) :
      Picks app caches vm importer id ⟨path, isLeaf, data.importRoot, none⟩
  | external {data p path isLeaf} (hdata : vm.importTree.lookup importer = some data)
      (hkind : kind id = .external) (hname : namesPackage app vm id = true)
      (hfound : searchPackage app caches id app.emiluaPath = some (p, .lua path isLeaf))
      (hnew : path ∉ vm.loadedModules) (hvisit : id ∉ vm.visitedExternalPackages) :
      Picks app caches vm importer id ⟨path, isLeaf, p, some id⟩

/-- What a call of `require` leaves behind: the modules as they were, or one
more being loaded. -/
inductive Change (app : App) (caches : Caches) (vm : Vm) (importer : Path) (id : Bytes) :
    Vm → Prop where
  | same (natives : List Bytes) :
      Change app caches vm importer id { vm with nativeModules := natives }
  | started {m : Candidate} (context : ContextType) (h : Picks app caches vm importer id m) :
      Change app caches vm importer id (vm.enter context m)

theorem loadModule_change {m : Candidate} (h : Picks app caches vm importer id m)
    (context : ContextType) (module : Option Bytes) :
    Change app caches vm importer id (loadModule app caches vm context m module).2.2 := by
  have hstart : Change app caches vm importer id (startModuleFiber app vm context m module).2 := by
    unfold startModuleFiber
    split
    · exact .started context h
    · exact .same vm.nativeModules
  unfold loadModule
  split
  · exact hstart
  · split
    · exact hstart
    · exact .same vm.nativeModules

theorem requireDot_change {data : ImportData} (hdata : vm.importTree.lookup importer = some data)
    (hkind : kind id = .relative) (context : ContextType) :
    Change app caches vm importer id
      (requireDot app caches vm ⟨importer, data.isLeaf, data.importRoot⟩ context id).2.2 := by
  unfold requireDot
  split
  · exact .same vm.nativeModules
  · rename_i path isLeaf hfound
    split
    · exact .same vm.nativeModules
    · rename_i hnew
      split
      · exact .same vm.nativeModules
      · rename_i htree
        apply loadModule_change
        exact .relative hdata hkind hfound (by simpa using hnew) (by simpa using htree)

theorem requireSlash_change {data : ImportData} (hdata : vm.importTree.lookup importer = some data)
    (hkind : kind id = .absolute) (context : ContextType) :
    Change app caches vm importer id
      (requireSlash app caches vm ⟨importer, data.isLeaf, data.importRoot⟩ context id).2.2 := by
  unfold requireSlash
  split
  · exact .same vm.nativeModules
  · split
    · exact .same vm.nativeModules
    · split <;> exact .same vm.nativeModules
  · rename_i path isLeaf hfound
    split
    · exact .same vm.nativeModules
    · rename_i hnew
      apply loadModule_change
      exact .absolute hdata hkind hfound (by simpa using hnew)

theorem requireExternal_change {data : ImportData}
    (hdata : vm.importTree.lookup importer = some data) (hkind : kind id = .external)
    (context : ContextType) :
    Change app caches vm importer id (requireExternal app caches vm context id).2.2 := by
  unfold requireExternal
  split
  · exact .same vm.nativeModules
  · rename_i name rest hscan
    split
    · exact .same vm.nativeModules
    · rename_i hend
      split
      · exact .same vm.nativeModules
      · rename_i hbuiltin
        unfold onExternalPackage
        split
        · exact .same vm.nativeModules
        · rename_i hnative
          have hname : namesPackage app vm id = true := by
            simp only [namesPackage, hscan, Option.any_some, Bool.and_eq_true]
            exact ⟨⟨by simpa using hend, by simpa using hbuiltin⟩, by simpa using hnative⟩
          split
          · exact .same vm.nativeModules
          · exact .same (id :: vm.nativeModules)
          · exact .same vm.nativeModules
          · rename_i p path isLeaf hfound
            split
            · exact .same vm.nativeModules
            · rename_i hnew
              split
              · exact .same vm.nativeModules
              · rename_i hvisit
                apply loadModule_change
                exact .external hdata hkind hname hfound (by simpa using hnew) (by simpa using hvisit)

theorem require_change :
    Change app caches vm importer id (require app caches vm importer onMainFiber id).2.2 := by
  unfold require
  split
  · exact .same vm.nativeModules
  · rename_i data hdata
    split
    · exact .same vm.nativeModules
    · cases hkind : kind id with
      | relative => exact requireDot_change hdata hkind _
      | absolute => exact requireSlash_change hdata hkind _
      | external => exact requireExternal_change hdata hkind _

end Cases

namespace Process
variable {app : App} {s s' : Process} {a : Action}

/-- A property of VMs that every change of a VM keeps, and a new VM has. -/
structure Keeps (app : App) (s : Process) (a : Action) (P : Vm → Prop) : Prop where
  natives : ∀ vm natives, P vm → P { vm with nativeModules := natives }
  finish : ∀ vm ok, P vm → P (vm.finish ok)
  enter : ∀ i importer main id vm m context, a = .require i importer main id →
    s.vms[i]? = some vm → P vm → Picks app s.caches vm importer id m → P (vm.enter context m)
  spawn : ∀ vm importer data id path, P vm → vm.importTree.lookup importer = some data →
    spawnResolve (s.caches.files app) ⟨importer, data.isLeaf, data.importRoot⟩ id = .ok path →
    P (makeVm app .worker path data.importRoot)

theorem forall_set {P : Vm → Prop} {vms : List Vm} {i : Nat} {vm : Vm} (h : ∀ v ∈ vms, P v)
    (hvm : P vm) : ∀ v ∈ vms.set i vm, P v := by
  intro v hv
  rcases List.mem_or_eq_of_mem_set hv with hv | rfl
  · exact h v hv
  · exact hvm

theorem exec_keeps {P : Vm → Prop} (hk : Keeps app s a P) (h : ∀ vm ∈ s.vms, P vm)
    (hexec : exec app s a = .ok s') : ∀ vm ∈ s'.vms, P vm := by
  cases a with
  | require i importer main id =>
      simp only [exec] at hexec
      split at hexec
      · cases hexec
        exact h
      · rename_i vm hvm
        have hp : P vm := h vm (List.mem_of_getElem? hvm)
        split at hexec
        · cases hexec
          exact h
        · cases hexec
          apply forall_set h
          have hc := @require_change app s.caches vm importer main id
          revert hc
          generalize (Import.require app s.caches vm importer main id).2.2 = vm'
          rintro (natives | ⟨context, hm⟩)
          · exact hk.natives vm natives hp
          · exact hk.enter i importer main id vm _ context rfl hvm hp hm
  | finish i ok =>
      simp only [exec] at hexec
      split at hexec
      · cases hexec
        exact h
      · rename_i vm hvm
        cases hexec
        exact forall_set h (hk.finish vm ok (h vm (List.mem_of_getElem? hvm)))
  | spawnVm i importer id =>
      simp only [exec] at hexec
      split at hexec
      · cases hexec
        exact h
      · rename_i vm hvm
        unfold spawnVm at hexec
        split at hexec
        · cases hexec
        · rename_i data hdata
          cases hpath : spawnResolve (s.caches.files app) ⟨importer, data.isLeaf, data.importRoot⟩
              id with
          | error e => rw [hpath] at hexec; cases hexec
          | ok path =>
              rw [hpath] at hexec
              cases hexec
              intro v hv
              rcases List.mem_append.mp hv with hv | hv
              · exact h v hv
              · rw [List.mem_singleton] at hv
                rw [hv]
                exact hk.spawn vm importer data id path (h vm (List.mem_of_getElem? hvm)) hdata
                  hpath

end Process

end Emilua.Import
