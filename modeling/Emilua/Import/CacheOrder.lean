import Emilua.Import.Confinement
import Emilua.Lib.Probe

/-!
What the caches do to the choice of a file. The branches of `require` look for
the candidates for an id in the caches first, all of them, and then on the disk.
What is in the caches depends on what the VMs of the process have loaded.
-/
namespace Emilua.Import
open Wire LexicalPath Probe

/-! The lookups as probes of a list of candidates. -/

def luaCandidates (dir : Path) (name : Bytes) : List Resolved :=
  [.module (leafPath dir name) true, .module (initPath dir name) false]

def absoluteCandidates (dir : Path) (name : Bytes) : List Resolved :=
  luaCandidates dir name ++ [.errorCategory (ttlPath dir name)]

namespace Files

def has (files : Files) : Resolved → Bool
  | .module p _ => files.cached p
  | .errorCategory p => files.rdfCached p

def lookup (files : Files) : Resolved → Except Nat Bool
  | .module p _ | .errorCategory p => files.onDisk p

/-- The same disk with nothing in the caches. -/
def uncached (files : Files) : Files :=
  { files with cached := fun _ => false, rdfCached := fun _ => false }

end Files

def settle : Except Nat (Option Resolved) → Except Errc Resolved
  | .error errno => .error (.system errno)
  | .ok none => .error .moduleNotFound
  | .ok (some r) => .ok r

theorem settle_injective {r r' : Except Nat (Option Resolved)} (h : settle r = settle r') : r = r' := by
  cases r with
  | error errno =>
      cases r' with
      | error errno' => rw [Errc.system.inj (Except.error.inj h)]
      | ok found' => cases found' <;> cases h
  | ok found =>
      cases r' with
      | error errno' => cases found <;> cases h
      | ok found' =>
          cases found <;> cases found' <;> cases h <;> rfl

section
variable {files : Files} {inTree : Path → Bool} {importer : Importer} {dir : Path} {name id : Bytes}

theorem probeLua_eq : (probeLua files dir name).map (fun r => .module r.1 r.2) =
    settle (probe files.has files.lookup (luaCandidates dir name)) := by
  rw [probeLua, probe, luaCandidates]
  cases hleaf : files.cached (leafPath dir name) with
  | true => simp only [List.find?, Files.has, hleaf, if_true, settle, Except.map]
  | false =>
      cases hinit : files.cached (initPath dir name) with
      | true => simp only [List.find?, Files.has, hleaf, hinit, Bool.false_eq_true, if_true, if_false, settle, Except.map]
      | false =>
          simp only [List.find?, Files.has, hleaf, hinit, Bool.false_eq_true, if_false, onDisk, Files.lookup]
          rcases files.onDisk (leafPath dir name) with errno | found
          · rfl
          · cases found with
            | true => rfl
            | false =>
                rcases files.onDisk (initPath dir name) with errno | found
                · rfl
                · cases found <;> rfl

theorem probeAbsolute_probe : probeAbsolute files dir name =
    settle (probe files.has files.lookup (absoluteCandidates dir name)) := by
  rw [probeAbsolute, probe, absoluteCandidates, luaCandidates, List.cons_append, List.cons_append, List.nil_append]
  cases hleaf : files.cached (leafPath dir name) with
  | true => simp only [List.find?, Files.has, hleaf, if_true, settle]
  | false =>
      cases hinit : files.cached (initPath dir name) with
      | true => simp only [List.find?, Files.has, hleaf, hinit, Bool.false_eq_true, if_true, if_false, settle]
      | false =>
          cases httl : files.rdfCached (ttlPath dir name) with
          | true => simp only [List.find?, Files.has, hleaf, hinit, httl, Bool.false_eq_true, if_true, if_false, settle]
          | false =>
              simp only [List.find?, Files.has, hleaf, hinit, httl, Bool.false_eq_true, if_false, onDisk, Files.lookup]
              rcases files.onDisk (leafPath dir name) with errno | found
              · rfl
              · cases found with
                | true => rfl
                | false =>
                    rcases files.onDisk (initPath dir name) with errno | found
                    · rfl
                    · cases found with
                      | true => rfl
                      | false =>
                          rcases files.onDisk (ttlPath dir name) with errno | found
                          · rfl
                          · cases found <;> rfl

/-- What is in the caches can be found on the disk. -/
def Files.Backed (files : Files) : Prop := ∀ r, files.has r = true → files.lookup r = .ok true

theorem probe_uncached_iff (hb : files.Backed) (cs : List Resolved) :
    settle (probe files.has files.lookup cs) = settle (probe files.uncached.has files.uncached.lookup cs) ↔
      ¬ Misled files.has files.lookup cs := by
  have hnone : probe files.uncached.has files.uncached.lookup cs = onDisk files.lookup cs :=
    probe_nothing fun c _ => by cases c <;> rfl
  rw [hnone, ← probe_iff fun c _ => hb c]
  exact ⟨settle_injective, congrArg settle⟩

/-- The candidates for an id, if it comes to a lookup. -/
def looksFor (inTree : Path → Bool) (importer : Importer) (id : Bytes) : List Resolved :=
  match kind id with
  | .relative =>
      match parseDot 0 (dropLocal id) with
      | none => []
      | some (nparents, name) =>
          if nparents = 0 ∧ importer.isLeaf = true then []
          else match climb importer.importRoot (parentSteps importer.isLeaf nparents) importer.path.parentPath with
            | .error _ => []
            | .ok dir => luaCandidates dir name
  | .absolute =>
      match parseSlash id with
      | none => []
      | some (dirs, name) =>
          if inTree (dirs.foldl child importer.importRoot) then []
          else absoluteCandidates (dirs.foldl child importer.importRoot) name
  | .external => []

theorem mapError_injective {α : Type} {r r' : Except Errc α} {module : Option Bytes}
    (h : withModule r module = withModule r' module) : r = r' := by
  cases r <;> cases r' <;> simp [withModule, Except.mapError] at h <;> rw [h]

theorem withModule_module (r : Except Errc (Path × Bool)) (module : Option Bytes) :
    (withModule r module >>= fun found => .ok (.module found.1 found.2)) =
      withModule (r.map fun found => Resolved.module found.1 found.2) module := by
  cases r <;> rfl

theorem nothing_iff {α : Type} {r : α} : r = r ↔ ¬ Misled files.has files.lookup [] :=
  iff_of_true rfl fun h => h

theorem relative_iff (hb : files.Backed) (hkind : kind id = .relative) :
    requireResolve files inTree importer id = requireResolve files.uncached inTree importer id ↔
      ¬ Misled files.has files.lookup (looksFor inTree importer id) := by
  simp only [requireResolve, hkind, looksFor, requireRelative]
  cases hparse : parseDot 0 (dropLocal id) with
  | none => exact nothing_iff
  | some nr =>
      obtain ⟨nparents, name⟩ := nr
      simp only
      by_cases hleaf : nparents = 0 ∧ importer.isLeaf = true
      · rw [if_pos hleaf, if_pos hleaf, if_pos hleaf]
        exact nothing_iff
      rw [if_neg hleaf, if_neg hleaf, if_neg hleaf]
      cases hclimb : climb importer.importRoot (parentSteps importer.isLeaf nparents) importer.path.parentPath with
      | error e => exact nothing_iff
      | ok dir =>
          have hfound (files : Files) : ((withModule (.ok dir : Except Errc Path) none >>= fun dir =>
              withModule (probeLua files dir name) (some id)) >>= fun found => .ok (.module found.1 found.2)) =
              withModule (settle (probe files.has files.lookup (luaCandidates dir name))) (some id) := by
            rw [← probeLua_eq]
            exact withModule_module _ _
          rw [hfound files, hfound files.uncached, ← probe_uncached_iff hb]
          exact ⟨mapError_injective, fun h => by rw [h]⟩

theorem absolute_iff (hb : files.Backed) (hkind : kind id = .absolute) :
    requireResolve files inTree importer id = requireResolve files.uncached inTree importer id ↔
      ¬ Misled files.has files.lookup (looksFor inTree importer id) := by
  simp only [requireResolve, hkind, looksFor, requireAbsolute]
  cases hparse : parseSlash id with
  | none => exact nothing_iff
  | some dl =>
      obtain ⟨dirs, name⟩ := dl
      simp only
      by_cases htree : inTree (dirs.foldl child importer.importRoot) = true
      · rw [if_pos htree, if_pos htree, if_pos htree]
        exact nothing_iff
      rw [if_neg htree, if_neg htree, if_neg htree, probeAbsolute_probe, probeAbsolute_probe, ← probe_uncached_iff hb]
      exact ⟨mapError_injective, fun h => by rw [h]⟩

/-- What the caches do to an id that is not a package's. -/
theorem requireResolve_iff (hb : files.Backed) :
    requireResolve files inTree importer id = requireResolve files.uncached inTree importer id ↔
      ¬ Misled files.has files.lookup (looksFor inTree importer id) := by
  cases hkind : kind id with
  | relative => exact relative_iff hb hkind
  | absolute => exact absolute_iff hb hkind
  | external =>
      simp only [requireResolve, hkind, looksFor]
      exact iff_of_true trivial fun h => h

end

/-! External packages. -/

section
variable {app : App} {c : Caches} {p q : Path} {id : Bytes}

/-- The file system is one: it answers for a path as for the absolute one, and
what can be read exists. -/
structure App.Consistent (app : App) : Prop where
  absolute : ∀ p, app.onDisk (toAbsolute app.cwd p) = app.onDisk p
  readable : ∀ p, app.readable p = true → app.onDisk p = .ok true
  rdfReadable : ∀ p, app.rdfReadable p = true → app.onDisk p = .ok true

/-- What loads of files that do not change leave in the caches. -/
structure Caches.Backed (app : App) (c : Caches) : Prop where
  modules : ∀ p ∈ c.modules, app.onDisk p = .ok true
  rdf : ∀ p ∈ c.rdf, app.rdfReadable p = true

def packageCandidates (app : App) (p : Path) (id : Bytes) : List Found :=
  [.lua (toAbsolute app.cwd (leafPath p id)) true, .lua (toAbsolute app.cwd (initPath p id)) false,
    .category (toAbsolute app.cwd (ttlPath p id))]

def Caches.has (c : Caches) : Found → Bool
  | .lua p _ => c.modules.contains p
  | .category p => c.rdf.contains p
  | .native => false

def App.lookup (app : App) : Found → Except Nat Bool
  | .lua p _ | .category p => app.onDisk p
  | .native => .ok false

/-- What a round of the loop makes of a candidate. -/
def settlePackage (app : App) (p : Path) (id : Bytes) : Except Nat (Option Found) → Option Found
  | .error _ => none
  | .ok none => if app.native p id then some .native else none
  | .ok (some (.category ttl)) => if app.rdfReadable ttl then some (.category ttl) else none
  | .ok (some found) => some found

theorem findPackage_probe (hfs : app.Consistent) (hb : c.Backed app) :
    findPackage app c p id = settlePackage app p id (probe c.has app.lookup (packageCandidates app p id)) := by
  rw [probe, packageCandidates]
  simp only [findPackage]
  cases hleaf : c.modules.contains (toAbsolute app.cwd (leafPath p id)) with
  | true => simp only [List.find?, Caches.has, hleaf, if_true, settlePackage]
  | false =>
      cases hinit : c.modules.contains (toAbsolute app.cwd (initPath p id)) with
      | true => simp only [List.find?, Caches.has, hleaf, hinit, Bool.false_eq_true, if_true, if_false, settlePackage]
      | false =>
          cases httl : c.rdf.contains (toAbsolute app.cwd (ttlPath p id)) with
          | true =>
              have hread := hb.rdf _ (List.contains_iff_mem.mp httl)
              simp only [List.find?, Caches.has, hleaf, hinit, httl, Bool.false_eq_true, if_true, if_false, settlePackage,
                hread]
          | false =>
              simp only [List.find?, Caches.has, hleaf, hinit, httl, Bool.false_eq_true, if_false, onDisk, App.lookup,
                hfs.absolute]
              rcases app.onDisk (leafPath p id) with errno | found
              · rfl
              · cases found with
                | true => rfl
                | false =>
                    rcases app.onDisk (initPath p id) with errno | found
                    · rfl
                    · cases found with
                      | true => rfl
                      | false =>
                          rcases app.onDisk (ttlPath p id) with errno | found
                          · rfl
                          · cases found <;> rfl

theorem backed_nothing (app : App) : (⟨[], []⟩ : Caches).Backed app := ⟨nofun, nofun⟩

theorem Caches.Backed.candidates (hfs : app.Consistent) (hb : c.Backed app) (cs : List Found) : Probe.Backed c.has app.lookup cs := by
  intro r _ hr
  cases r with
  | lua p isLeaf => exact hb.modules p (List.contains_iff_mem.mp hr)
  | category p => exact hfs.rdfReadable p (hb.rdf p (List.contains_iff_mem.mp hr))
  | native => cases hr

/-- A round of the loop is misled. -/
def MisledAt (app : App) (c : Caches) (id : Bytes) (p : Path) : Prop :=
  Misled c.has app.lookup (packageCandidates app p id)

theorem findPackage_disk (hfs : app.Consistent) (p : Path) (id : Bytes) : findPackage app ⟨[], []⟩ p id =
    settlePackage app p id (onDisk app.lookup (packageCandidates app p id)) := by
  rw [findPackage_probe hfs (backed_nothing app), probe_nothing]
  intro r _
  cases r <;> rfl

theorem findPackage_same (hfs : app.Consistent) (hb : c.Backed app) (h : ¬ MisledAt app c id p) :
    findPackage app c p id = findPackage app ⟨[], []⟩ p id := by
  rw [findPackage_probe hfs hb, findPackage_disk hfs, probe_onDisk (hb.candidates hfs _) h]

/-- From the disk comes the file that was looked for, after the ones before it. -/
theorem settlePackage_found {r : Except Nat (Option Found)} {found : Found} (hne : found ≠ .native)
    (h : settlePackage app p id r = some found) : r = .ok (some found) := by
  rcases r with errno | _ | _ | _ | _
  · cases h
  · rw [settlePackage] at h
    split at h
    · exact absurd (Option.some.inj h).symm hne
    · cases h
  · cases h
    rfl
  · rw [settlePackage] at h
    split at h
    · cases h
      rfl
    · cases h
  · exact absurd (Option.some.inj h).symm hne

/-- The components that every candidate for a package in `p` starts with. -/
def packageStem (app : App) (p : Path) : List Bytes := (if p.absolute then [] else app.cwd.stem) ++ p.stem

theorem toAbsolute_stem {r : Path} {tail : List Bytes} (habsolute : r.absolute = p.absolute) (hcomps : r.comps = p.stem ++ tail) :
    (toAbsolute app.cwd r).comps = packageStem app p ++ tail := by
  rw [toAbsolute, packageStem, habsolute]
  split
  · rw [hcomps, List.nil_append]
  · change app.cwd.stem ++ r.comps = _
    rw [hcomps, List.append_assoc]

theorem toAbsolute_iff {r r' : Path} {tail : List Bytes} (hr : r.absolute = p.absolute ∧ r.comps = p.stem ++ tail)
    (hr' : r'.absolute = q.absolute ∧ r'.comps = q.stem ++ tail) :
    toAbsolute app.cwd r = toAbsolute app.cwd r' ↔ packageStem app p = packageStem app q := by
  have hp := @toAbsolute_stem app p r tail hr.1 hr.2
  have hq := @toAbsolute_stem app q r' tail hr'.1 hr'.2
  constructor
  · intro h
    rw [h, hq] at hp
    exact (List.append_cancel_right hp).symm
  · intro h
    refine LexicalPath.ext' ?_ ?_
    · rw [toAbsolute_absolute, toAbsolute_absolute]
    · rw [hp, hq, h]

theorem initPath_stem (dir : Path) (name : Bytes) :
    (initPath dir name).comps = dir.stem ++ ((if name = [] then [] else [name]) ++ [initLua]) := by
  by_cases hname : name = []
  · subst hname
    have hstem : (dir.child []).stem = dir.stem := by
      rw [stem, child_comps, List.getLast?_concat]
      simp
    rw [initPath, child_comps, hstem, if_pos rfl, List.nil_append]
  · rw [initPath, child_comps, stem_child dir hname, if_neg hname, List.append_assoc]

/-- The candidates in two entries of the path list share one only if they are the same. -/
theorem packageCandidates_eq {found : Found} (hp : found ∈ packageCandidates app p id)
    (hq : found ∈ packageCandidates app q id) : packageCandidates app p id = packageCandidates app q id := by
  have hleaf : toAbsolute app.cwd (leafPath p id) = toAbsolute app.cwd (leafPath q id) ↔ packageStem app p = packageStem app q :=
    toAbsolute_iff ⟨rfl, rfl⟩ ⟨rfl, rfl⟩
  have hinit : toAbsolute app.cwd (initPath p id) = toAbsolute app.cwd (initPath q id) ↔ packageStem app p = packageStem app q :=
    toAbsolute_iff ⟨rfl, initPath_stem p id⟩ ⟨rfl, initPath_stem q id⟩
  have httl : toAbsolute app.cwd (ttlPath p id) = toAbsolute app.cwd (ttlPath q id) ↔ packageStem app p = packageStem app q :=
    toAbsolute_iff ⟨rfl, rfl⟩ ⟨rfl, rfl⟩
  have hstem : packageStem app p = packageStem app q := by
    simp only [packageCandidates, List.mem_cons, List.not_mem_nil, or_false] at hp hq
    rcases hp with rfl | rfl | rfl
    · simpa [hleaf] using hq
    · simpa [hinit] using hq
    · simpa [httl] using hq
  rw [packageCandidates, packageCandidates, hleaf.mpr hstem, hinit.mpr hstem, httl.mpr hstem]

theorem findPackage_misled (hfs : app.Consistent) (hb : c.Backed app) (h : MisledAt app c id p) : ∃ found,
    findPackage app c p id = some found ∧ ∀ q, findPackage app ⟨[], []⟩ q id ≠ some found := by
  obtain ⟨found, hcached, hprobe, hne⟩ := Misled.differs h
  have hnative : found ≠ .native := by
    rintro rfl
    cases hcached
  refine ⟨found, ?_, fun q hq => hne ?_⟩
  · rw [findPackage_probe hfs hb, hprobe]
    cases found with
    | lua path isLeaf => rfl
    | category path => rw [settlePackage, if_pos (hb.rdf path (List.contains_iff_mem.mp hcached))]
    | native => exact absurd rfl hnative
  · rw [findPackage_disk hfs] at hq
    have hdisk := settlePackage_found hnative hq
    rwa [packageCandidates_eq (probe_mem hprobe) (onDisk_mem hdisk)]

theorem searchPackage_some {app : App} {c : Caches} {ps : List Path} {found : Path × Found}
    (h : searchPackage app c id ps = some found) : ∃ p, findPackage app c p id = some found.2 := by
  induction ps with
  | nil => cases h
  | cons p ps ih =>
      rw [searchPackage] at h
      cases hp : findPackage app c p id with
      | some found' =>
          rw [hp] at h
          cases h
          exact ⟨p, hp⟩
      | none =>
          rw [hp] at h
          exact ih h

/-- What the caches do to a search for a package: the first entry that holds it,
or is misled. -/
def MisledSearch (app : App) (c : Caches) (id : Bytes) : List Path → Prop
  | [] => False
  | p :: ps => MisledAt app c id p ∨ (findPackage app ⟨[], []⟩ p id = none ∧ MisledSearch app c id ps)

theorem searchPackage_iff (hfs : app.Consistent) (hb : c.Backed app) (ps : List Path) :
    (searchPackage app c id ps).map Prod.snd = (searchPackage app ⟨[], []⟩ id ps).map Prod.snd ↔
      ¬ MisledSearch app c id ps := by
  induction ps with
  | nil => exact iff_of_true rfl fun h => h
  | cons p ps ih =>
      rw [searchPackage, searchPackage, MisledSearch]
      by_cases hmisled : MisledAt app c id p
      · obtain ⟨found, hfound, hnone⟩ := findPackage_misled hfs hb hmisled
        refine iff_of_false (fun heq => ?_) fun h => h (.inl hmisled)
        rw [hfound] at heq
        cases hp : findPackage app ⟨[], []⟩ p id with
        | some found' =>
            rw [hp] at heq
            exact hnone p (hp.trans heq.symm)
        | none =>
            rw [hp] at heq
            obtain ⟨found', hsearch, hsame⟩ := Option.map_eq_some_iff.mp heq.symm
            obtain ⟨q, hq⟩ := searchPackage_some hsearch
            exact hnone q (hq.trans (congrArg some hsame))
      · rw [findPackage_same hfs hb hmisled]
        cases hp : findPackage app ⟨[], []⟩ p id with
        | some found => exact iff_of_true rfl fun h => h.elim hmisled fun h => by cases h.1
        | none =>
            simp only [hmisled, true_and, false_or]
            exact ih

end

/-! What the loads of all VMs leave in the caches. -/

inductive Load where
  | require (vm : Vm) (importer : Path) (onMainFiber : Bool) (id : Bytes)
  | entryPoint (path : Path)

/-- Any VM calls `require`, or `make_vm` reads the file of a new one. -/
def Caches.load (app : App) (c : Caches) : Load → Caches
  | .require vm importer onMainFiber id => (Import.require app c vm importer onMainFiber id).2.1
  | .entryPoint path =>
      if c.modules.contains path then c
      else if app.readable path then { c with modules := path :: c.modules }
      else c

def Caches.Produced (app : App) (c : Caches) : Prop :=
  Relation.ReflTransGen (fun c c' => ∃ l, c' = Caches.load app c l) ⟨[], []⟩ c

section
variable {app : App} {c : Caches} {vm : Vm} {importer : Path} {id : Bytes}

theorem Caches.Backed.cons_module (hfs : app.Consistent) (hb : c.Backed app) {p : Path} (hread : app.readable p = true) :
    ({ c with modules := p :: c.modules } : Caches).Backed app where
  modules := by
    intro q hq
    rcases List.mem_cons.mp hq with rfl | hq
    · exact hfs.readable q hread
    · exact hb.modules q hq
  rdf := hb.rdf

theorem Caches.Backed.cons_rdf (hb : c.Backed app) {p : Path} (hread : app.rdfReadable p = true) :
    ({ c with rdf := p :: c.rdf } : Caches).Backed app where
  modules := hb.modules
  rdf := by
    intro q hq
    rcases List.mem_cons.mp hq with rfl | hq
    · exact hread
    · exact hb.rdf q hq

theorem loadModule_backed (hfs : app.Consistent) (hb : c.Backed app) (context : ContextType) (m : Candidate)
    (module : Option Bytes) : (loadModule app c vm context m module).2.1.Backed app := by
  rw [loadModule]
  split
  · exact hb
  · split
    · rename_i hread
      exact hb.cons_module hfs hread
    · exact hb

theorem requireDot_backed (hfs : app.Consistent) (hb : c.Backed app) (importer : Importer) (context : ContextType) :
    (requireDot app c vm importer context id).2.1.Backed app := by
  rw [requireDot]
  split
  · exact hb
  · split
    · exact hb
    · split
      · exact hb
      · exact loadModule_backed hfs hb _ _ _

theorem requireSlash_backed (hfs : app.Consistent) (hb : c.Backed app) (importer : Importer) (context : ContextType) :
    (requireSlash app c vm importer context id).2.1.Backed app := by
  rw [requireSlash]
  split
  · exact hb
  · split
    · exact hb
    · split
      · rename_i hread
        exact hb.cons_rdf hread
      · exact hb
  · split
    · exact hb
    · exact loadModule_backed hfs hb _ _ _

theorem searchPackage_readable (hfs : app.Consistent) (hb : c.Backed app) {ps : List Path} {p path : Path}
    (h : searchPackage app c id ps = some (p, .category path)) : app.rdfReadable path = true := by
  obtain ⟨q, hq⟩ : ∃ q, findPackage app c q id = some (.category path) := searchPackage_some h
  rw [findPackage_probe hfs hb] at hq
  have hne : Found.category path ≠ .native := nofun
  have hfound := settlePackage_found hne hq
  rw [hfound, settlePackage] at hq
  by_contra hread
  rw [if_neg hread] at hq
  cases hq

theorem requireExternal_backed (hfs : app.Consistent) (hb : c.Backed app) (context : ContextType) :
    (requireExternal app c vm context id).2.1.Backed app := by
  rw [requireExternal]
  split
  · exact hb
  · split
    · exact hb
    · split
      · exact hb
      · rw [onExternalPackage]
        split
        · exact hb
        · split
          · exact hb
          · exact hb
          · rename_i path hfound
            exact hb.cons_rdf (searchPackage_readable hfs hb hfound)
          · split
            · exact hb
            · split
              · exact hb
              · exact loadModule_backed hfs hb _ _ _

theorem load_backed (hfs : app.Consistent) (hb : c.Backed app) (l : Load) : (c.load app l).Backed app := by
  cases l with
  | entryPoint path =>
      rw [Caches.load]
      split
      · exact hb
      · split
        · rename_i hread
          exact hb.cons_module hfs hread
        · exact hb
  | require vm importer onMainFiber id =>
      rw [Caches.load, Import.require]
      split
      · exact hb
      · split
        · exact hb
        · cases kind id with
          | relative => exact requireDot_backed hfs hb _ _
          | absolute => exact requireSlash_backed hfs hb _ _
          | external => exact requireExternal_backed hfs hb _

theorem produced_backed (hfs : app.Consistent) (hc : c.Produced app) : c.Backed app := by
  induction hc with
  | refl => exact backed_nothing app
  | tail _ hload ih =>
      obtain ⟨l, rfl⟩ := hload
      exact load_backed hfs ih l

theorem files_backed (hfs : app.Consistent) (hb : c.Backed app) : (c.files app).Backed := by
  intro r hr
  cases r with
  | module p isLeaf => exact hb.modules p (List.contains_iff_mem.mp hr)
  | errorCategory p => exact hfs.rdfReadable p (hb.rdf p (List.contains_iff_mem.mp hr))

/-- The caches of a process are made by loads. -/
theorem produced_of_reachable {s : Process} (hs : Transition.Reachable (Process.Initial app)
    (fun s a s' => Process.exec app s a = .ok s') s) : s.caches.Produced app := by
  refine Transition.Reachable.invariant (I := fun s => s.caches.Produced app) hs ?_ ?_
  · rintro s ⟨context, filename, rfl⟩
    exact .refl
  · intro s a s' ih hexec
    cases a with
    | require i importer onMainFiber id =>
        simp only [Process.exec] at hexec
        split at hexec
        · cases hexec
          exact ih
        · rename_i vm hvm
          split at hexec
          · cases hexec
            exact ih
          · cases hexec
            exact ih.tail ⟨.require vm importer onMainFiber id, rfl⟩
    | finish i ok =>
        simp only [Process.exec] at hexec
        split at hexec <;> cases hexec <;> exact ih
    | spawnVm i importer id =>
        simp only [Process.exec] at hexec
        split at hexec
        · cases hexec
          exact ih
        · rename_i vm hvm
          rw [Process.spawnVm] at hexec
          split at hexec
          · cases hexec
          · rename_i data hdata
            cases hpath : spawnResolve (s.caches.files app) ⟨importer, data.isLeaf, data.importRoot⟩ id with
            | error e =>
                rw [hpath] at hexec
                cases hexec
            | ok path =>
                rw [hpath] at hexec
                cases hexec
                exact ih

end

theorem root_named : ∀ c ∈ ([] : List Bytes).dropLast, c ≠ [] := by decide

/-- A disk with every file on it. -/
def fullApp : App where
  cwd := ⟨true, [], root_named⟩
  cwd_absolute := rfl
  emiluaPath := []
  onDisk _ := .ok true
  readable _ := true
  compiles _ := true
  rdfReadable _ := true
  builtin _ := false
  native _ _ := false

theorem mainFile_named : ∀ c ∈ [[109] ++ luaSuffix].dropLast, c ≠ [] := by decide

def mainFile : Path := ⟨true, [[109] ++ luaSuffix], mainFile_named⟩

/-- The module `/foo/init` has been required by `/m.lua`. -/
def afterInit : Caches :=
  Caches.load fullApp ⟨[], []⟩
    (.require (makeVm fullApp .main mainFile ⟨false, [], root_named⟩) mainFile true [47, 102, 111, 111, 47, 105, 110, 105, 116])

theorem afterInit_produced : afterInit.Produced fullApp := .single ⟨_, rfl⟩

end Emilua.Import
