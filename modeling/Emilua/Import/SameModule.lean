import Emilua.Import.Resolution

/-!
`require` and `spawn_vm` side by side: from one importing module, which ids
lead both to one file or to one error. Relative ids always do. Of an absolute
id `spawn_vm` keeps the last component only, so there both look into the same
directory only when the id has a single component.
-/
namespace Emilua.Import
open Wire LexicalPath

variable {files : Files} {inTree : Path → Bool} {importer : Importer} {id : Bytes}

def SameModule : Except Raised Resolved → Except Raised Path → Prop
  | .ok (.module p _), .ok q => p = q
  | .error e, .error e' => e.code = e'.code
  | _, _ => False

/-- An absolute id does not name an error category. -/
def LuaOnly (files : Files) (importer : Importer) (id : Bytes) : Prop :=
  ∀ dirs name, parseSlash id = some (dirs, name) →
    files.rdfCached (ttlPath (dirs.foldl child importer.importRoot) name) = false ∧
      files.onDisk (ttlPath (dirs.foldl child importer.importRoot) name) = .ok false

def initName : Bytes := [105, 110, 105, 116]

/-- Looking for `name` in `dir` and in the root comes to the same: both fail
alike, or `init` in `init` is the package that `init` names. -/
def LookupsCoincide (files : Files) (root dir : Path) (dirs : List Bytes) (name : Bytes) : Prop :=
  dirs = [] ∨
    (∃ e, probeLua files dir name = .error e ∧ probeLua files root name = .error e) ∨
    (dirs = [initName] ∧ name = initName ∧
      probeLua files dir name = .ok (leafPath dir name, true) ∧
      probeLua files root name = .ok (initPath root name, false))

/-- When both functions agree: on every relative id, and on an absolute id whose
directory is no module being imported, if both lookups come to the same. -/
def Agreeable (files : Files) (inTree : Path → Bool) (importer : Importer) (id : Bytes) : Prop :=
  kind id = .relative ∨
    ∀ dirs name, parseSlash id = some (dirs, name) →
      inTree (dirs.foldl child importer.importRoot) = false ∧
        LookupsCoincide files importer.importRoot (dirs.foldl child importer.importRoot) dirs name

theorem scanName_ne_nil {s name rest : Bytes} (h : scanName s = some (name, rest)) : name ≠ [] := by
  rintro rfl
  cases s with
  | nil => cases h
  | cons c s =>
      by_cases hc : isNameStart c = true
      · simp [scanName, hc] at h
      · simp [scanName, hc] at h

/-- An absolute id starts with a separator and a name; either it ends there, or
the rest is an absolute id again. -/
theorem parseSlashFrom_some {fuel : Nat} {s name : Bytes} {dirs : List Bytes}
    (h : parseSlashFrom fuel s = some (dirs, name)) :
    ∃ n c rest, c ≠ [] ∧ ((dirs = [] ∧ name = c) ∨
      ∃ ds, dirs = c :: ds ∧ parseSlashFrom n rest = some (ds, name)) := by
  unfold parseSlashFrom at h
  split at h
  · rename_i fuel t
    split at h
    · rename_i c rest hscan
      refine ⟨fuel, c, rest, scanName_ne_nil hscan, ?_⟩
      split at h
      · cases h
        exact .inl ⟨rfl, rfl⟩
      · obtain ⟨⟨ds, l⟩, hrec, heq⟩ := Option.map_eq_some_iff.mp h
        cases heq
        exact .inr ⟨ds, rfl, hrec⟩
    · cases h
  · cases h

theorem parseSlashFrom_ne_nil {fuel : Nat} {s name : Bytes} {dirs : List Bytes}
    (h : parseSlashFrom fuel s = some (dirs, name)) : (∀ d ∈ dirs, d ≠ []) ∧ name ≠ [] := by
  induction dirs generalizing fuel s with
  | nil =>
      obtain ⟨n, c, rest, hc, ⟨_, rfl⟩ | ⟨ds, hds, _⟩⟩ := parseSlashFrom_some h
      · exact ⟨by simp, hc⟩
      · cases hds
  | cons d dirs ih =>
      obtain ⟨n, c, rest, hc, ⟨hnil, _⟩ | ⟨ds, hds, hrec⟩⟩ := parseSlashFrom_some h
      · cases hnil
      · cases hds
        obtain ⟨hall, hname⟩ := ih hrec
        refine ⟨fun e he => ?_, hname⟩
        rcases List.mem_cons.mp he with rfl | he
        · exact hc
        · exact hall e he

theorem probeLua_ok {dir p : Path} {name : Bytes} {leaf : Bool}
    (h : probeLua files dir name = .ok (p, leaf)) :
    (p = leafPath dir name ∧ leaf = true) ∨ (p = initPath dir name ∧ leaf = false) := by
  unfold probeLua at h
  repeat' split at h
  all_goals cases h
  all_goals simp

theorem probeLua_code {dir : Path} {name : Bytes} {e : Errc}
    (h : probeLua files dir name = .error e) : e ≠ .cyclicImport := by
  unfold probeLua at h
  repeat' split at h
  all_goals cases h
  all_goals simp

/-- Without an error category the lookups of both functions are one. -/
theorem probeAbsolute_eq {dir : Path} {name : Bytes}
    (hrdf : files.rdfCached (ttlPath dir name) = false)
    (hdisk : files.onDisk (ttlPath dir name) = .ok false) :
    probeAbsolute files dir name = (probeLua files dir name).map fun r => .module r.1 r.2 := by
  unfold probeAbsolute probeLua
  rw [hrdf, hdisk]
  repeat' split
  all_goals first | rfl | simp_all

/-- Relative ids: both functions walk and look in the same way. -/
theorem relative_same (hkind : kind id = .relative) (hdot : id ≠ [46]) :
    SameModule (requireResolve files inTree importer id) (spawnResolve files importer id) := by
  simp only [requireResolve, spawnResolve, hkind, if_neg hdot, requireRelative, spawnRelative]
  cases parseDot 0 (dropLocal id) with
  | none => exact rfl
  | some found =>
      obtain ⟨nparents, name⟩ := found
      by_cases hleaf : nparents = 0 ∧ importer.isLeaf = true
      · simp only [if_pos hleaf]
        exact rfl
      · simp only [if_neg hleaf]
        cases climb importer.importRoot (parentSteps importer.isLeaf nparents)
            importer.path.parentPath with
        | error e => exact rfl
        | ok dir =>
            have hprobe (m : Option Bytes) : withModule (probeLua files dir name) m =
                (probeLua files dir name).mapError fun code => ⟨code, m⟩ := rfl
            cases hp : probeLua files dir name with
            | error e => simp only [withModule, Except.mapError, bind, Except.bind, hp, SameModule]
            | ok r => simp only [withModule, Except.mapError, bind, Except.bind, hp, SameModule]

section Walked
variable {root : Path} {dirs : List Bytes} {name : Bytes}

theorem leafPath_comps (dir : Path) (name : Bytes) :
    (leafPath dir name).comps = dir.stem ++ [name ++ luaSuffix] := rfl

theorem initPath_comps (dir : Path) {name : Bytes} (h : name ≠ []) :
    (initPath dir name).comps = dir.stem ++ [name, initLua] := by
  show (dir.child name).stem ++ [initLua] = _
  rw [stem_child dir h, List.append_assoc]
  rfl

/-- Files found in a walked directory and in the root are the same file only if
`init` is looked for in the root's own directory of that name. -/
theorem found_same (hdirs : ∀ d ∈ dirs, d ≠ []) (hname : name ≠ []) (hne : dirs ≠ [])
    {p : Path} {leaf leaf' : Bool}
    (hdir : probeLua files (dirs.foldl child root) name = .ok (p, leaf))
    (hroot : probeLua files root name = .ok (p, leaf')) :
    dirs = [initName] ∧ name = initName ∧ leaf = true ∧ leaf' = false := by
  have hstem : (dirs.foldl child root).stem = root.stem ++ dirs := stem_foldl_child root hdirs
  obtain ⟨d, ds, rfl⟩ := List.exists_cons_of_ne_nil hne
  obtain ⟨hp, rfl⟩ | ⟨hp, rfl⟩ := probeLua_ok hdir <;>
    obtain ⟨hq, rfl⟩ | ⟨hq, rfl⟩ := probeLua_ok hroot <;>
    have hcomps := congrArg LexicalPath.comps (hp.symm.trans hq)
  · rw [leafPath_comps, leafPath_comps, hstem, List.append_assoc, List.append_cancel_left_eq] at hcomps
    simp at hcomps
  · rw [leafPath_comps, initPath_comps _ hname, hstem, List.append_assoc,
      List.append_cancel_left_eq] at hcomps
    simp only [List.cons_append, List.cons.injEq] at hcomps
    obtain ⟨rfl, htail⟩ := hcomps
    cases ds with
    | nil =>
        have hinit : d ++ luaSuffix = initLua := by simpa using htail
        have hd : d = initName :=
          List.append_cancel_right (show d ++ luaSuffix = initName ++ luaSuffix from hinit)
        exact ⟨by rw [hd], hd, rfl, rfl⟩
    | cons e es => simp at htail
  · rw [initPath_comps _ hname, leafPath_comps, hstem, List.append_assoc,
      List.append_cancel_left_eq] at hcomps
    have hlen := congrArg List.length hcomps
    simp at hlen
  · rw [initPath_comps _ hname, initPath_comps _ hname, hstem, List.append_assoc,
      List.append_cancel_left_eq] at hcomps
    have hlen := congrArg List.length hcomps
    simp at hlen

end Walked

/-- An absolute id, scanned into the directories before the last component. -/
theorem absolute_same_iff {dirs : List Bytes} {name : Bytes} (hkind : kind id = .absolute)
    (hparse : parseSlash id = some (dirs, name)) (hlua : LuaOnly files importer id) :
    SameModule (requireResolve files inTree importer id) (spawnResolve files importer id) ↔
      inTree (dirs.foldl child importer.importRoot) = false ∧
        LookupsCoincide files importer.importRoot (dirs.foldl child importer.importRoot)
          dirs name := by
  have hdot : id ≠ [46] := by rintro rfl; cases hkind
  obtain ⟨hrdf, hdisk⟩ := hlua dirs name hparse
  obtain ⟨hdirs, hname⟩ := parseSlashFrom_ne_nil hparse
  have hrequire : requireResolve files inTree importer id =
      if inTree (dirs.foldl child importer.importRoot) then raise .cyclicImport none
      else withModule ((probeLua files (dirs.foldl child importer.importRoot) name).map
        fun r => Resolved.module r.1 r.2) (some id) := by
    simp only [requireResolve, hkind, requireAbsolute, hparse, probeAbsolute_eq hrdf hdisk]
  have hspawn : spawnResolve files importer id =
      (withModule (probeLua files importer.importRoot name) (some name)).map Prod.fst := by
    simp only [spawnResolve, hkind, if_neg hdot, spawnAbsolute, hparse]
    cases probeLua files importer.importRoot name <;> rfl
  rw [hrequire, hspawn]
  cases htree : inTree (dirs.foldl child importer.importRoot) with
  | true =>
      refine iff_of_false (fun hsame => ?_) (fun h => by cases h.1)
      cases hroot : probeLua files importer.importRoot name with
      | error e =>
          rw [hroot] at hsame
          exact probeLua_code hroot hsame.symm
      | ok r => rw [hroot] at hsame; exact hsame
  | false =>
      simp only [Bool.false_eq_true, if_false, true_and]
      constructor
      · intro hsame
        by_cases hnil : dirs = []
        · exact .inl hnil
        refine .inr ?_
        cases hdir : probeLua files (dirs.foldl child importer.importRoot) name with
        | error e =>
            cases hroot : probeLua files importer.importRoot name with
            | error e' =>
                rw [hdir, hroot] at hsame
                cases show e = e' from hsame
                exact .inl ⟨e, rfl, rfl⟩
            | ok r => rw [hdir, hroot] at hsame; exact hsame.elim
        | ok r =>
            cases hroot : probeLua files importer.importRoot name with
            | error e => rw [hdir, hroot] at hsame; exact hsame.elim
            | ok r' =>
                rw [hdir, hroot] at hsame
                obtain ⟨p, leaf⟩ := r
                obtain ⟨q, leaf'⟩ := r'
                cases show p = q from hsame
                obtain ⟨hinit, hinit', rfl, rfl⟩ := found_same hdirs hname hnil hdir hroot
                obtain ⟨rfl, _⟩ | ⟨_, h⟩ := probeLua_ok hdir
                · obtain ⟨_, h⟩ | ⟨hp, _⟩ := probeLua_ok hroot
                  · cases h
                  · exact .inr ⟨hinit, hinit', rfl, by rw [← hp]⟩
                · cases h
      · rintro (rfl | ⟨e, hdir, hroot⟩ | ⟨hinit, hinit', hdir, hroot⟩)
        · show SameModule (withModule ((probeLua files importer.importRoot name).map _) _) _
          cases probeLua files importer.importRoot name <;> exact rfl
        · rw [hdir, hroot]
          exact rfl
        · rw [hdir, hroot]
          show leafPath _ _ = initPath _ _
          rw [hinit, hinit']
          rfl

/-- `require` and `spawn_vm` find the same file, or fail with the same code,
exactly when the id is agreeable. -/
theorem same_module_iff (hkind : kind id ≠ .external) (hdot : id ≠ [46])
    (hlua : LuaOnly files importer id) :
    SameModule (requireResolve files inTree importer id) (spawnResolve files importer id) ↔
      Agreeable files inTree importer id := by
  cases hk : kind id with
  | external => exact absurd hk hkind
  | relative => exact iff_of_true (relative_same hk hdot) (.inl hk)
  | absolute =>
      cases hparse : parseSlash id with
      | none =>
          refine iff_of_true ?_ (.inr fun dirs name h => by rw [hparse] at h; cases h)
          simp only [requireResolve, spawnResolve, hk, if_neg hdot, requireAbsolute,
            spawnAbsolute, hparse]
          exact rfl
      | some found =>
          obtain ⟨dirs, name⟩ := found
          rw [absolute_same_iff hk hparse hlua, Agreeable, hk, hparse]
          constructor
          · exact fun h => .inr fun dirs' name' heq => by cases heq; exact h
          · rintro (h | h)
            · cases h
            · exact h dirs name rfl

/-- The root `/r` with the modules `/r/b.lua` and `/r/a/b.lua`. -/
theorem upperFile_named : ∀ c ∈ [[114], [98] ++ luaSuffix].dropLast, c ≠ [] := by decide

def twoFiles : Files where
  cached _ := false
  rdfCached _ := false
  onDisk p := .ok (p = ⟨true, [[114], [98] ++ luaSuffix], upperFile_named⟩ ∨
    p = .mk true [[114], [97], [98] ++ luaSuffix])

theorem importer_named : ∀ c ∈ [[114], [109] ++ luaSuffix].dropLast, c ≠ [] := by decide

theorem importRoot_named : ∀ c ∈ ([[114]] : List Bytes).dropLast, c ≠ [] := by decide

def mainImporter : Importer :=
  ⟨⟨true, [[114], [109] ++ luaSuffix], importer_named⟩, false, ⟨true, [[114]], importRoot_named⟩⟩

/-- `/a/b` is `/r/a/b.lua` for `require`, and `/r/b.lua` for `spawn_vm`. -/
theorem spawn_vm_drops_components :
    LuaOnly twoFiles mainImporter [47, 97, 47, 98] ∧
      ¬ SameModule (requireResolve twoFiles (fun p => p = mainImporter.path) mainImporter
          [47, 97, 47, 98])
        (spawnResolve twoFiles mainImporter [47, 97, 47, 98]) := by
  constructor
  · intro dirs name h
    have hparse : parseSlash [47, 97, 47, 98] = some ([[97]], [98]) := by decide
    rw [hparse] at h
    cases h
    decide
  · have hrequire : requireResolve twoFiles (fun p => p = mainImporter.path) mainImporter
        [47, 97, 47, 98] = .ok (.module (.mk true [[114], [97], [98] ++ luaSuffix]) true) := by decide
    have hspawn : spawnResolve twoFiles mainImporter [47, 97, 47, 98] =
        .ok (.mk true [[114], [98] ++ luaSuffix]) := by decide
    rw [hrequire, hspawn]
    show ¬ (_ = _)
    decide

/-- `./b` from the main module, found by both. -/
theorem same_module_local :
    SameModule (requireResolve twoFiles (fun p => p = mainImporter.path) mainImporter [46, 47, 98])
        (spawnResolve twoFiles mainImporter [46, 47, 98]) ↔
      Agreeable twoFiles (fun p => p = mainImporter.path) mainImporter [46, 47, 98] :=
  same_module_iff (by decide) (by decide) fun _ _ h => by
    have hparse : parseSlash [46, 47, 98] = none := by decide
    rw [hparse] at h
    cases h

end Emilua.Import
