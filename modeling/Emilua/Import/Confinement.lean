import Emilua.Import.SameModule
import Emilua.Import.Loading

/-!
What confines imports to a directory: relative ids climb no higher than the root
recorded for their module, absolute ids start there. `climb` compares the
directory it has reached with the root, so the root must be an ancestor of the
module's path in the very spelling the path has. `make_vm` takes care of that
for the program's file. For an external package the root is the entry of
`EMILUA_PATH` as it was written, and the path is made absolute.
-/
namespace Emilua.Import
open Wire LexicalPath

def Resolved.path : Resolved → Path
  | .module path _ => path
  | .errorCategory path => path

/-- No relative or absolute id leads a module of the VM out of its import root,
and going up too often is an error. -/
def Confined (vm : Vm) : Prop :=
  ∀ path data, vm.importTree.lookup path = some data → ∀ files id,
    (∀ r, requireResolve files vm.inTree ⟨path, data.isLeaf, data.importRoot⟩ id = .ok r →
      Under data.importRoot r.path) ∧
    (∀ nparents name, kind id = .relative → parseDot 0 (dropLocal id) = some (nparents, name) →
      path.parentPath.comps.length - data.importRoot.comps.length <
        parentSteps data.isLeaf nparents →
      requireResolve files vm.inTree ⟨path, data.isLeaf, data.importRoot⟩ id =
        raise .rootCannotImportParent none)

/-- The entry of `EMILUA_PATH` in which a package is found is an absolute path
without a trailing separator. -/
def PlainPackages (app : App) (s : Process) : Action → Prop
  | .require _ _ _ id => ∀ p path isLeaf,
      searchPackage app s.caches id app.emiluaPath = some (p, .lua path isLeaf) →
        p.absolute = true ∧ p.Plain
  | _ => True

/-- The root is an ancestor of the module's path, in one spelling with it. -/
structure Rooted (root path : Path) : Prop where
  absolute : root.absolute = true
  plain : root.Plain
  under : Under root path.parentPath

theorem Rooted.under_self {root path : Path} (h : Rooted root path) : Under root path :=
  ⟨h.under.1, h.under.2.trans (List.dropLast_prefix _)⟩

section Climb
variable {root p q : Path} {n : Nat}

theorem climb_error {e : Errc} (h : climb root n p = .error e) : e = .rootCannotImportParent := by
  induction n generalizing p with
  | zero => cases h
  | succ n ih =>
      unfold climb at h
      split at h
      · cases h
        rfl
      · exact ih h

/-- Below the root the walk stays below it, and every step takes it one up. -/
theorem climb_under (hroot : root.Plain) (hp : Under root p) (hplain : p.Plain)
    (h : climb root n p = .ok q) :
    Under root q ∧ q.Plain ∧ n ≤ p.comps.length - root.comps.length := by
  induction n generalizing p with
  | zero =>
      cases h
      exact ⟨hp, hplain, Nat.zero_le _⟩
  | succ n ih =>
      unfold climb at h
      split at h
      · cases h
      · rename_i hstop
        have hne : p ≠ root := fun heq => hstop (by simp [heq])
        obtain ⟨hunder, hq, hlen⟩ := ih (hp.parentPath hroot hne) (parentPath_plain p) h
        refine ⟨hunder, hq, ?_⟩
        have hpre := (hp.parentPath hroot hne).2.length_le
        have hpos : p.comps ≠ [] := by
          intro hnil
          have hprefix := hp.2
          rw [hroot.stem_eq, hnil, List.prefix_nil] at hprefix
          exact hne (ext' hp.1 (by rw [hnil, hprefix]))
        rw [hroot.stem_eq, parentPath_comps, List.length_dropLast] at hpre
        rw [parentPath_comps, List.length_dropLast] at hlen
        have hlt := List.length_pos_of_ne_nil hpos
        omega

end Climb

section Resolve
variable {files : Files} {inTree : Path → Bool} {importer : Importer} {id : Bytes}

/-- The files looked for in a directory below the root. -/
theorem paths_rooted {root dir : Path} {name : Bytes} (ha : root.absolute = true)
    (hroot : root.Plain) (hdir : dir.Plain) (h : Under root dir) (hname : name ≠ []) :
    Rooted root (leafPath dir name) ∧ Rooted root (initPath dir name) ∧
      Rooted root (ttlPath dir name) := by
  have hchild : (dir.child name).Plain := child_plain dir hname
  refine ⟨⟨ha, hroot, ?_⟩, ⟨ha, hroot, ?_⟩, ⟨ha, hroot, ?_⟩⟩
  · rwa [leafPath, hdir.parentPath_child]
  · rw [initPath, hchild.parentPath_child]
    exact h.child name hdir
  · rwa [ttlPath, hdir.parentPath_child]

theorem parseDot_ne_nil {n nparents : Nat} {s name : Bytes}
    (h : parseDot n s = some (nparents, name)) : name ≠ [] := by
  induction n, s using parseDot.induct with
  | case1 n s ih =>
      rw [parseDot] at h
      exact ih h
  | case2 n s hne c rest hscan hend =>
      rw [parseDot, hscan] at h
      · simp only [hend, if_true, Option.some.injEq, Prod.mk.injEq] at h
        rw [← h.2]
        exact scanName_ne_nil hscan
      · exact hne
  | case3 n s hne c rest hscan hend =>
      rw [parseDot, hscan] at h
      · simp [hend] at h
      · exact hne
  | case4 n s hne hscan =>
      rw [parseDot, hscan] at h
      · cases h
      · exact hne

theorem probeLua_rooted {root dir p : Path} {name : Bytes} {leaf : Bool}
    (ha : root.absolute = true) (hroot : root.Plain) (hdir : dir.Plain) (h : Under root dir)
    (hname : name ≠ []) (hp : probeLua files dir name = .ok (p, leaf)) : Rooted root p := by
  obtain ⟨hleaf, hinit, _⟩ := paths_rooted ha hroot hdir h hname
  obtain ⟨rfl, _⟩ | ⟨rfl, _⟩ := probeLua_ok hp
  · exact hleaf
  · exact hinit

theorem probeAbsolute_rooted {root dir : Path} {name : Bytes} {r : Resolved}
    (ha : root.absolute = true) (hroot : root.Plain) (hdir : dir.Plain) (h : Under root dir)
    (hname : name ≠ []) (hr : probeAbsolute files dir name = .ok r) : Rooted root r.path := by
  obtain ⟨hleaf, hinit, httl⟩ := paths_rooted ha hroot hdir h hname
  unfold probeAbsolute at hr
  repeat' split at hr
  all_goals cases hr
  all_goals assumption

theorem requireRelative_ok {p : Path} {leaf : Bool}
    (h : requireRelative files importer id = .ok (p, leaf)) :
    ∃ nparents name dir, parseDot 0 (dropLocal id) = some (nparents, name) ∧
      climb importer.importRoot (parentSteps importer.isLeaf nparents) importer.path.parentPath =
        .ok dir ∧
      probeLua files dir name = .ok (p, leaf) := by
  unfold requireRelative at h
  split at h
  · cases h
  · rename_i nparents name hparse
    split at h
    · cases h
    · cases hclimb : climb importer.importRoot (parentSteps importer.isLeaf nparents)
          importer.path.parentPath with
      | error e => rw [hclimb] at h; cases h
      | ok dir =>
          rw [hclimb] at h
          cases hprobe : probeLua files dir name with
          | error e =>
              simp only [withModule, Except.mapError, bind, Except.bind, hprobe] at h
              cases h
          | ok found =>
              simp only [withModule, Except.mapError, bind, Except.bind, hprobe] at h
              cases h
              exact ⟨nparents, name, dir, hparse, hclimb, hprobe⟩

/-- `spawn_vm` finds what `require` finds. -/
theorem spawnRelative_ok {p : Path} (h : spawnRelative files importer id = .ok p) :
    ∃ leaf, requireRelative files importer id = .ok (p, leaf) := by
  unfold spawnRelative at h
  simp only at h
  unfold requireRelative
  split at h
  · cases h
  · rename_i nparents name hparse
    split at h
    · cases h
    · rename_i hsome
      simp only [if_neg hsome]
      cases hclimb : climb importer.importRoot (parentSteps importer.isLeaf nparents)
          importer.path.parentPath with
      | error e => rw [hclimb] at h; cases h
      | ok dir =>
          rw [hclimb] at h
          simp only [withModule, Except.mapError, bind, Except.bind] at h ⊢
          cases hprobe : probeLua files dir name with
          | error e => rw [hprobe] at h; cases h
          | ok found =>
              rw [hprobe] at h
              cases h
              exact ⟨found.2, rfl⟩

theorem requireRelative_rooted (h : Rooted importer.importRoot importer.path) {p : Path}
    {leaf : Bool} (hp : requireRelative files importer id = .ok (p, leaf)) :
    Rooted importer.importRoot p := by
  obtain ⟨nparents, name, dir, hparse, hclimb, hprobe⟩ := requireRelative_ok hp
  obtain ⟨hunder, hplain, _⟩ := climb_under h.plain h.under (parentPath_plain _) hclimb
  exact probeLua_rooted h.absolute h.plain hplain hunder (parseDot_ne_nil hparse) hprobe

theorem foldl_child_under {root : Path} {dirs : List Bytes} (hroot : root.Plain)
    (h : ∀ d ∈ dirs, d ≠ []) :
    Under root (dirs.foldl child root) ∧ (dirs.foldl child root).Plain := by
  cases dirs using List.reverseRecOn with
  | nil => exact ⟨hroot.under_self, hroot⟩
  | append_singleton init last _ =>
      have hstem : (init.foldl child root).stem = root.stem ++ init :=
        stem_foldl_child root fun d hd => h d (List.mem_append_left _ hd)
      rw [List.foldl_append]
      constructor
      · refine ⟨by simp, ?_⟩
        simp only [List.foldl_cons, List.foldl_nil, child_comps, hstem, List.append_assoc]
        exact List.prefix_append _ _
      · exact child_plain _ (h last (by simp))

theorem requireAbsolute_rooted (h : Rooted importer.importRoot importer.path) {r : Resolved}
    (hr : requireAbsolute files inTree importer id = .ok r) :
    Rooted importer.importRoot r.path := by
  unfold requireAbsolute at hr
  split at hr
  · cases hr
  · rename_i dirs name hparse
    obtain ⟨hdirs, hname⟩ := parseSlashFrom_ne_nil hparse
    obtain ⟨hunder, hplain⟩ := foldl_child_under h.plain hdirs
    simp only at hr
    split at hr
    · cases hr
    · cases hprobe : probeAbsolute files (dirs.foldl child importer.importRoot) name with
      | error e => rw [hprobe] at hr; cases hr
      | ok r' =>
          rw [hprobe] at hr
          cases hr
          exact probeAbsolute_rooted h.absolute h.plain hplain hunder hname hprobe

theorem requireResolve_rooted (h : Rooted importer.importRoot importer.path) {r : Resolved}
    (hr : requireResolve files inTree importer id = .ok r) :
    Rooted importer.importRoot r.path := by
  unfold requireResolve at hr
  split at hr
  · cases hfound : requireRelative files importer id with
    | error e => rw [hfound] at hr; cases hr
    | ok found =>
        rw [hfound] at hr
        cases hr
        exact requireRelative_rooted h hfound
  · exact requireAbsolute_rooted h hr
  · cases hr

theorem spawnResolve_rooted (h : Rooted importer.importRoot importer.path) {p : Path}
    (hp : spawnResolve files importer id = .ok p) : Rooted importer.importRoot p := by
  unfold spawnResolve at hp
  split at hp
  · cases hp
    exact h
  · split at hp
    · obtain ⟨leaf, hfound⟩ := spawnRelative_ok hp
      exact requireRelative_rooted h hfound
    · unfold spawnAbsolute at hp
      split at hp
      · cases hp
      · rename_i dirs name hparse
        cases hprobe : probeLua files importer.importRoot name with
        | error e => rw [hprobe] at hp; cases hp
        | ok found =>
            rw [hprobe] at hp
            cases hp
            exact probeLua_rooted h.absolute h.plain h.plain h.plain.under_self
              (parseSlashFrom_ne_nil hparse).2 hprobe
    · cases hp

/-- Too many `../` are refused. -/
theorem requireResolve_climbs (h : Rooted importer.importRoot importer.path)
    {nparents : Nat} {name : Bytes} (hkind : kind id = .relative)
    (hparse : parseDot 0 (dropLocal id) = some (nparents, name))
    (hmany : importer.path.parentPath.comps.length - importer.importRoot.comps.length <
      parentSteps importer.isLeaf nparents) :
    requireResolve files inTree importer id = raise .rootCannotImportParent none := by
  have hsome : ¬ (nparents = 0 ∧ importer.isLeaf = true) := by
    rintro ⟨rfl, _⟩
    exact absurd hmany (by simp [parentSteps])
  have hclimb : climb importer.importRoot (parentSteps importer.isLeaf nparents)
      importer.path.parentPath = .error .rootCannotImportParent := by
    cases hc : climb importer.importRoot (parentSteps importer.isLeaf nparents)
        importer.path.parentPath with
    | error e => rw [climb_error hc]
    | ok dir =>
        obtain ⟨_, _, hle⟩ := climb_under h.plain h.under (parentPath_plain _) hc
        exact absurd hle (by omega)
  simp only [requireResolve, hkind, requireRelative, hparse, if_neg hsome, hclimb]
  rfl

end Resolve

/-- Every module of the VM lies below its import root. -/
def Vm.Rooted (vm : Vm) : Prop :=
  ∀ path data, vm.importTree.lookup path = some data → Import.Rooted data.importRoot path

theorem Vm.Rooted.confined {vm : Vm} (h : vm.Rooted) : Confined vm := by
  intro path data hdata files id
  have hrooted := h path data hdata
  constructor
  · intro r hr
    exact (@requireResolve_rooted files vm.inTree ⟨path, data.isLeaf, data.importRoot⟩ id hrooted r
      hr).under_self
  · intro nparents name hkind hparse hmany
    exact @requireResolve_climbs files vm.inTree ⟨path, data.isLeaf, data.importRoot⟩ id hrooted
      nparents name hkind hparse hmany

theorem findPackage_path {app : App} {caches : Caches} {p path : Path} {id : Bytes} {leaf : Bool}
    (h : findPackage app caches p id = some (.lua path leaf)) :
    path = toAbsolute app.cwd (leafPath p id) ∨ path = toAbsolute app.cwd (initPath p id) := by
  unfold findPackage at h
  simp only at h
  repeat' split at h
  all_goals cases h
  all_goals simp

theorem searchPackage_path {app : App} {caches : Caches} {ps : List Path} {p path : Path}
    {id : Bytes} {leaf : Bool} (h : searchPackage app caches id ps = some (p, .lua path leaf)) :
    path = toAbsolute app.cwd (leafPath p id) ∨ path = toAbsolute app.cwd (initPath p id) := by
  induction ps with
  | nil => cases h
  | cons q ps ih =>
      unfold searchPackage at h
      split at h
      · rename_i found hfound
        cases h
        exact findPackage_path hfound
      · exact ih h

section Process
variable {app : App} {s s' : Process} {a : Action}

theorem toAbsolute_absolute (app : App) (p : Path) : (toAbsolute app.cwd p).absolute = true := by
  unfold toAbsolute
  split
  · assumption
  · exact app.cwd_absolute

/-- The first VM: its import root is the directory of the program's file. -/
theorem makeVm_rooted {context : ContextType} {filename root : Path} (hroot : root.isEmpty = true) :
    (makeVm app context filename root).Rooted := by
  intro p data hdata
  obtain ⟨rfl, hdir⟩ := makeVm_lookup hdata
  rw [if_pos hroot] at hdir
  rw [hdir]
  exact ⟨toAbsolute_absolute app filename, parentPath_plain _, (parentPath_plain _).under_self⟩

/-- A VM that `spawn_vm` starts takes over the import root. -/
theorem spawned_rooted {path root : Path} (h : Rooted root path) :
    (makeVm app .worker path root).Rooted := by
  intro p data hdata
  obtain ⟨rfl, hdir⟩ := makeVm_lookup hdata
  have hpath : path.absolute = true := h.under.1.trans h.absolute
  have hroot : root.isEmpty = false := by simp [isEmpty, h.absolute]
  rw [hdir, hroot, toAbsolute, if_pos hpath]
  exact h

theorem Picks.rooted {caches : Caches} {vm : Vm} {importer : Path} {id : Bytes} {m : Candidate}
    (h : vm.Rooted) (hm : Picks app caches vm importer id m)
    (hplain : ∀ p path isLeaf, searchPackage app caches id app.emiluaPath =
      some (p, .lua path isLeaf) → p.absolute = true ∧ p.Plain) :
    Rooted m.importRoot m.path := by
  cases hm with
  | relative hdata _ hfound _ _ =>
      exact @requireRelative_rooted _ ⟨_, _, _⟩ _ (h _ _ hdata) _ _ hfound
  | absolute hdata _ hfound _ =>
      exact @requireAbsolute_rooted _ _ ⟨_, _, _⟩ _ (h _ _ hdata) _ hfound
  | @external data p path isLeaf hdata hkind hname hfound _ _ =>
      obtain ⟨ha, hp⟩ := hplain p path isLeaf hfound
      obtain ⟨hleaf, hinit, _⟩ := paths_rooted ha hp hp hp.under_self
        (ne_nil_of_namesPackage hname)
      have habs (q : Path) (hq : Rooted p q) : toAbsolute app.cwd q = q := by
        exact if_pos (hq.under_self.1.trans ha)
      rcases searchPackage_path hfound with rfl | rfl
      · rwa [habs _ hleaf]
      · rwa [habs _ hinit]

theorem keeps_rooted (hok : PlainPackages app s a) : Process.Keeps app s a Vm.Rooted where
  natives _ _ h := h
  finish vm ok h := by
    intro p data hdata
    rw [Vm.finish_importTree] at hdata
    exact h p data hdata
  enter i importer main id vm m context ha hvm h hm := by
    subst ha
    intro p data hdata
    rw [Vm.enter_lookup] at hdata
    split at hdata
    · rename_i heq
      cases hdata
      rw [heq]
      exact hm.rooted h hok
    · exact h p data hdata
  spawn vm importer data id path h hdata hpath :=
    spawned_rooted (@spawnResolve_rooted _ ⟨_, _, _⟩ _ (h importer data hdata) _ hpath)

/-- As long as external packages come from plainly spelled absolute entries of
`EMILUA_PATH`, every VM confines its imports. -/
theorem imports_confined
    (hs : Transition.Reachable (Process.Initial app)
      (Transition.restrict (PlainPackages app) fun s a s' => Process.exec app s a = .ok s') s) :
    ∀ vm ∈ s.vms, Confined vm := by
  have hinv : ∀ vm ∈ s.vms, vm.Rooted := by
    refine Transition.Reachable.invariant (I := fun s => ∀ vm ∈ s.vms, vm.Rooted) hs ?_ ?_
    · rintro s ⟨context, filename, rfl⟩ vm hvm
      rw [Process.start, List.mem_singleton] at hvm
      rw [hvm]
      exact makeVm_rooted rfl
    · rintro s a s' h ⟨hok, hexec⟩
      exact Process.exec_keeps (keeps_rooted hok) h hexec
  exact fun vm hvm => (hinv vm hvm).confined

end Process

section Escape

def cLib : Bytes := [108, 105, 98]
def cFoo : Bytes := [102, 111, 111]

/-- The program `/c/m.lua` and the package `foo` in `/c/lib`, in the working
directory `/c`, with `EMILUA_PATH` set to `path`. -/
def packageApp (path : Path) : App where
  cwd := .mk true [[99]]
  cwd_absolute := rfl
  emiluaPath := [path]
  onDisk p := .ok (p = .mk true [[99], [109] ++ luaSuffix] ∨
    p = .mk false [cLib, cFoo, initLua] ∨ p = .mk true [[99], cLib, cFoo, initLua])
  readable _ := true
  compiles _ := true
  rdfReadable _ := false
  builtin _ := false
  native _ _ := false

theorem start_named : ∀ c ∈ [[109] ++ luaSuffix].dropLast, c ≠ [] := by decide

def startOf (path : Path) : Process :=
  Process.start (packageApp path) .main ⟨false, [[109] ++ luaSuffix], start_named⟩

/-- The program has just required `foo`. -/
def afterRequire (path : Path) : Process :=
  (Process.exec (packageApp path) (startOf path)
    (.require 0 (.mk true [[99], [109] ++ luaSuffix]) true cFoo)).toOption.getD (startOf path)

/-- With `EMILUA_PATH=lib` the package's root is never reached when climbing from
`/c/lib/foo`, and `../../m` leads to `/c/m.lua`. -/
theorem relative_entry_escapes :
    Transition.Reachable (Process.Initial (packageApp (.mk false [cLib])))
        (fun s a s' => Process.exec (packageApp (.mk false [cLib])) s a = .ok s')
        (afterRequire (.mk false [cLib])) ∧
      ∃ vm ∈ (afterRequire (.mk false [cLib])).vms, ¬ Confined vm := by
  constructor
  · exact ⟨startOf _, ⟨.main, _, rfl⟩, .single ⟨.require 0 (.mk true [[99], [109] ++ luaSuffix])
      true cFoo, rfl⟩⟩
  · refine ⟨_, List.mem_singleton_self _, fun h => ?_⟩
    have hescape := (h (.mk true [[99], cLib, cFoo, initLua]) ⟨false, .regular, .mk false [cLib]⟩
      (by decide) (Caches.files (packageApp (.mk false [cLib])) ⟨[], []⟩)
      [46, 46, 47, 46, 46, 47, 109]).1 (.module (.mk true [[99], [109] ++ luaSuffix]) true)
      (by decide)
    exact absurd hescape (by decide)

/-- With `EMILUA_PATH=/c/lib` the package is confined. -/
theorem imports_confined_absolute_entry :
    (afterRequire (.mk true [[99], cLib])).vms.length = 1 ∧
      ∀ vm ∈ (afterRequire (.mk true [[99], cLib])).vms, Confined vm :=
  ⟨rfl, @imports_confined (packageApp (.mk true [[99], cLib])) _
    ⟨startOf _, ⟨.main, _, rfl⟩, .single ⟨.require 0 (.mk true [[99], [109] ++ luaSuffix])
      true cFoo, fun p path isLeaf h => by
        have hfound : searchPackage (packageApp (.mk true [[99], cLib])) ⟨[], []⟩ cFoo
            [.mk true [[99], cLib]] = some (.mk true [[99], cLib],
              .lua (.mk true [[99], cLib, cFoo, initLua]) false) := by decide
        cases hfound.symm.trans h
        decide, rfl⟩⟩⟩

end Escape

end Emilua.Import
