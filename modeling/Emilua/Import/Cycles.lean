import Mathlib.Data.Finset.Card
import Emilua.Import.Loading

/-!
Cyclic imports. A relative id is resolved to a file before the import tree is
searched, and a package that was visited before is never loaded again. The
absolute branch searches the tree for the directory in which it is about to
look, and a package visited for the first time is not searched for at all; both
load a module a second time while it is still being loaded.

A path is the name of a module file, and `file` says which file it names.
-/
namespace Emilua.Import
open Wire LexicalPath

/-- The Lua file an id leads to, if it leads to one. -/
def target (app : App) (caches : Caches) (vm : Vm) (importer : Path) (id : Bytes) : Option Path :=
  match vm.importTree.lookup importer with
  | none => none
  | some data =>
      match kind id with
      | .external =>
          if namesPackage app vm id then
            match searchPackage app caches id app.emiluaPath with
            | some (_, .lua path _) => some path
            | _ => none
          else none
      | _ =>
          match requireResolve (caches.files app) vm.inTree
              ⟨importer, data.isLeaf, data.importRoot⟩ id with
          | .ok (.module path _) => some path
          | _ => none

/-- A module that is in the import tree without being loaded is only asked for
by a relative id, or by the id of a package that was visited. -/
def Guarded (vm : Vm) (id : Bytes) (path : Path) : Prop :=
  vm.inTree path = true → path ∉ vm.loadedModules →
    kind id = .relative ∨ (kind id = .external ∧ id ∈ vm.visitedExternalPackages)

section Runs
variable {γ : Type} (file : Path → γ)

/-- A path that is not in the import tree names a file that no path in it names. -/
def SoleName (vm : Vm) (path : Path) : Prop :=
  vm.inTree path = false → ∀ q, vm.inTree q = true → file q ≠ file path

/-- A step on which the search for cycles works. -/
def CyclesSeen (app : App) (s : Process) : Action → Prop
  | .require i importer _ id => ∀ vm path, s.vms[i]? = some vm →
      target app s.caches vm importer id = some path → Guarded vm id path ∧ SoleName file vm path
  | _ => True

/-- Every file is loaded once, and a module is marked as loaded when it leaves
the chain. -/
structure LoadedOnce (vm : Vm) : Prop where
  once : (vm.loads.map file).Nodup
  tree : ∀ p, vm.inTree p = true ↔ p ∈ vm.loads
  chain : ∀ p ∈ vm.chain, p ∈ vm.loads
  nodup : vm.chain.Nodup
  apart : ∀ p ∈ vm.chain, p ∉ vm.loadedModules

variable {file} {app : App} {caches : Caches} {vm : Vm} {importer : Path} {id : Bytes}

theorem Picks.target {m : Candidate} (h : Picks app caches vm importer id m) :
    Import.target app caches vm importer id = some m.path := by
  cases h with
  | relative hdata hkind hfound _ _ =>
      simp only [Import.target, hdata, hkind, requireResolve, hfound]
      rfl
  | absolute hdata hkind hfound _ => simp only [Import.target, hdata, hkind, requireResolve, hfound]
  | external hdata hkind hname hfound _ _ =>
      simp only [Import.target, hdata, hkind, hname, hfound, if_true]

/-- A guarded step only starts modules that are not in the import tree. -/
theorem Picks.fresh {m : Candidate} (h : Picks app caches vm importer id m)
    (hguard : Guarded vm id m.path) : vm.inTree m.path = false ∧ m.path ∉ vm.loadedModules := by
  cases h with
  | relative _ _ _ hnew htree => exact ⟨htree, hnew⟩
  | absolute _ hkind _ hnew =>
      refine ⟨?_, hnew⟩
      by_contra htree
      rcases hguard (by simpa using htree) hnew with h | ⟨h, _⟩
      · rw [hkind] at h; cases h
      · rw [hkind] at h; cases h
  | external _ hkind _ _ hnew hvisit =>
      refine ⟨?_, hnew⟩
      by_contra htree
      rcases hguard (by simpa using htree) hnew with h | ⟨_, h⟩
      · rw [hkind] at h; cases h
      · exact hvisit h

@[simp] theorem inTree_enter (context : ContextType) (m : Candidate) (p : Path) :
    (vm.enter context m).inTree p = true ↔ p = m.path ∨ vm.inTree p = true := by
  unfold Vm.inTree
  rw [Vm.enter_lookup]
  split
  · rename_i h
    simp [h]
  · rename_i h
    simp [h]

theorem LoadedOnce.enter (h : LoadedOnce file vm) {m : Candidate}
    (hnew : vm.inTree m.path = false) (hload : m.path ∉ vm.loadedModules)
    (hsole : SoleName file vm m.path) (context : ContextType) :
    LoadedOnce file (vm.enter context m) where
  once := by
    have hfresh : file m.path ∉ vm.loads.map file := by
      intro hmem
      obtain ⟨q, hq, heq⟩ := List.mem_map.mp hmem
      exact hsole hnew q ((h.tree q).mpr hq) heq
    show ((vm.loads ++ [m.path]).map file).Nodup
    rw [List.map_append, List.nodup_append]
    refine ⟨h.once, List.nodup_singleton _, ?_⟩
    rintro x hx y hy rfl
    rw [List.map_singleton, List.mem_singleton] at hy
    exact hfresh (hy ▸ hx)
  tree p := by
    rw [inTree_enter, h.tree p]
    show _ ↔ p ∈ vm.loads ++ [m.path]
    rw [List.mem_append, List.mem_singleton, or_comm]
  chain p hp := by
    rcases List.mem_cons.mp hp with rfl | hp
    · exact List.mem_append_right _ (List.mem_singleton_self _)
    · exact List.mem_append_left _ (h.chain p hp)
  nodup := by
    refine List.nodup_cons.mpr ⟨fun hmem => ?_, h.nodup⟩
    rw [(h.tree _).mpr (h.chain _ hmem)] at hnew
    cases hnew
  apart p hp := by
    rcases List.mem_cons.mp hp with rfl | hp
    · exact hload
    · exact h.apart p hp

theorem LoadedOnce.finish (h : LoadedOnce file vm) (ok : Bool) : LoadedOnce file (vm.finish ok) := by
  unfold Vm.finish
  split
  · exact h
  · exact ⟨h.once, h.tree, by simp, .nil, by simp⟩
  · rename_i path rest hne hchain
    have hnodup := h.nodup
    rw [hchain, List.nodup_cons] at hnodup
    have hrest (p : Path) (hp : p ∈ rest) : p ∈ vm.chain := by
      rw [hchain]
      exact List.mem_cons_of_mem _ hp
    refine ⟨h.once, h.tree, fun p hp => h.chain p (hrest p hp), hnodup.2, fun p hp => ?_⟩
    cases ok with
    | false => exact h.apart p (hrest p hp)
    | true =>
        rw [if_pos rfl, List.mem_cons, not_or]
        exact ⟨fun heq => hnodup.1 (heq ▸ hp), h.apart p (hrest p hp)⟩

theorem LoadedOnce.makeVm (context : ContextType) (entryPoint importRoot : Path) :
    LoadedOnce file (makeVm app context entryPoint importRoot) where
  once := List.nodup_singleton _
  tree p := by
    by_cases h : p = toAbsolute app.cwd entryPoint
    · simp [Vm.inTree, Import.makeVm, h]
    · have hb : (p == toAbsolute app.cwd entryPoint) = false := by simpa using h
      simp [Vm.inTree, Import.makeVm, List.lookup_cons, hb, h]
  chain _ hp := hp
  nodup := List.nodup_singleton _
  apart _ _ := List.not_mem_nil

theorem keeps_loadedOnce {s : Process} {a : Action} (hok : CyclesSeen file app s a) :
    Process.Keeps app s a (LoadedOnce file) where
  natives _ _ h := ⟨h.once, h.tree, h.chain, h.nodup, h.apart⟩
  finish _ ok h := h.finish ok
  enter i importer main id vm m context ha hvm h hm := by
    subst ha
    obtain ⟨hguard, hsole⟩ := hok vm m.path hvm hm.target
    obtain ⟨hnew, hload⟩ := hm.fresh hguard
    exact h.enter hnew hload hsole context
  spawn _ _ _ _ _ _ _ _ := .makeVm _ _ _

/-- What is being loaded is not loaded again where the guard holds. -/
theorem require_cyclic (h : LoadedOnce file vm) {path : Path}
    (htarget : target app caches vm importer id = some path) (hchain : path ∈ vm.chain)
    (hguard : Guarded vm id path) :
    ∃ module, require app caches vm importer true id =
      (.raise .cyclicImport module, caches, vm) := by
  have htree : vm.inTree path = true := (h.tree path).mpr (h.chain path hchain)
  have hload := h.apart path hchain
  unfold target at htarget
  split at htarget
  · cases htarget
  · rename_i data hdata
    simp only [require, hdata, Bool.not_true, Bool.false_eq_true, if_false]
    rcases hguard htree hload with hkind | ⟨hkind, hvisit⟩
    · rw [hkind] at htarget ⊢
      simp only [requireResolve, hkind] at htarget
      cases hfound : requireRelative (caches.files app) ⟨importer, data.isLeaf, data.importRoot⟩
          id with
      | error e => rw [hfound] at htarget; cases htarget
      | ok found =>
          rw [hfound] at htarget
          cases htarget
          refine ⟨none, ?_⟩
          simp only [requireDot, hfound]
          rw [if_neg (by simpa using hload), if_pos htree]
    · rw [hkind] at htarget ⊢
      simp only at htarget
      split at htarget
      · rename_i hname
        split at htarget
        · rename_i p path' leaf hfound
          cases htarget
          refine ⟨some id, ?_⟩
          obtain ⟨⟨name, rest⟩, hscan, hend, hbuiltin, hnative⟩ := namesPackage_iff.mp hname
          simp only [requireExternal, hscan, hend, hbuiltin, onExternalPackage, hnative, hfound,
            Bool.not_true, Bool.false_eq_true, if_false]
          rw [if_neg (by simpa using hload), if_pos (by simpa using hvisit)]
        · cases htarget
      · cases htarget

/-- In a run whose steps see their cycles every VM loads each module file at most
once, the chain of nested loads is no longer than there are module files, and
asking for a module of the chain raises `cyclic_import`. -/
theorem modules_loaded_once {s : Process}
    (hs : Transition.Reachable (Process.Initial app)
      (Transition.restrict (CyclesSeen file app) fun s a s' => Process.exec app s a = .ok s') s) :
    ∀ vm ∈ s.vms, (vm.loads.map file).Nodup ∧
      (∀ F : Finset γ, (∀ p ∈ vm.loads, file p ∈ F) → vm.chain.length ≤ F.card) ∧
      ∀ importer id path, target app s.caches vm importer id = some path → path ∈ vm.chain →
        Guarded vm id path → ∃ module, require app s.caches vm importer true id =
          (.raise .cyclicImport module, s.caches, vm) := by
  have hinv : ∀ vm ∈ s.vms, LoadedOnce file vm := by
    refine Transition.Reachable.invariant (I := fun s => ∀ vm ∈ s.vms, LoadedOnce file vm) hs ?_ ?_
    · rintro s ⟨context, filename, rfl⟩ vm hvm
      rw [Process.start, List.mem_singleton] at hvm
      rw [hvm]
      exact .makeVm _ _ _
    · rintro s a s' h ⟨hok, hexec⟩
      exact Process.exec_keeps (keeps_loadedOnce hok) h hexec
  intro vm hvm
  have h := hinv vm hvm
  refine ⟨h.once, fun F hF => ?_, fun importer id path => require_cyclic h⟩
  classical
  have hle : vm.chain.length ≤ vm.loads.length := by
    have hsub : vm.chain.toFinset ⊆ vm.loads.toFinset := fun p hp => by
      rw [List.mem_toFinset] at hp ⊢
      exact h.chain p hp
    rw [← List.toFinset_card_of_nodup h.nodup]
    exact (Finset.card_le_card hsub).trans (List.toFinset_card_le _)
  have hcard : (vm.loads.map file).toFinset ⊆ F := fun x hx => by
    obtain ⟨p, hp, rfl⟩ := List.mem_map.mp (List.mem_toFinset.mp hx)
    exact hF p hp
  have hloads := Finset.card_le_card hcard
  rw [List.toFinset_card_of_nodup h.once, List.length_map] at hloads
  exact hle.trans hloads

end Runs

section Defect

/-- The program `/r/m.lua` and two modules that import each other as `/a` and `/b`. -/
def cycleApp : App where
  cwd := .mk true [[114]]
  cwd_absolute := rfl
  emiluaPath := []
  onDisk p := .ok (p = .mk true [[114], [97] ++ luaSuffix] ∨ p = .mk true [[114], [98] ++ luaSuffix])
  readable _ := true
  compiles _ := true
  rdfReadable _ := false
  builtin _ := false
  native _ _ := false

def cycleStart : Process := Process.start cycleApp .main (.mk false [[109] ++ luaSuffix])

/-- The program requires `/a`, which requires `/b`, which requires `/a`. -/
def cycleRun : List Action :=
  [.require 0 (.mk true [[114], [109] ++ luaSuffix]) true [47, 97],
   .require 0 (.mk true [[114], [97] ++ luaSuffix]) true [47, 98],
   .require 0 (.mk true [[114], [98] ++ luaSuffix]) true [47, 97]]

/-- The cycle goes unnoticed, and `/r/a.lua` is loaded again inside its own load. -/
theorem absolute_cycle_loads_again :
    ∃ s, Transition.Reachable (Process.Initial cycleApp)
        (fun s a s' => Process.exec cycleApp s a = .ok s') s ∧
      ∃ vm ∈ s.vms, ¬ vm.loads.Nodup ∧ ¬ vm.chain.Nodup := by
  have hrun : (Transition.runIf (Process.exec cycleApp) (fun _ _ => true) cycleStart cycleRun).map
      (fun s => s.vms.any fun vm => decide (¬ vm.loads.Nodup ∧ ¬ vm.chain.Nodup)) =
        some true := by decide +kernel
  obtain ⟨s, hs, hvms⟩ := Option.map_eq_some_iff.mp hrun
  obtain ⟨vm, hvm, hbad⟩ := List.any_eq_true.mp hvms
  refine ⟨s, ?_, vm, hvm, of_decide_eq_true hbad⟩
  exact (Transition.reachable_of_runIf ⟨cycleStart, ⟨.main, _, rfl⟩, .refl⟩ hs).of_restrict

/-- The same program importing `./a`, where `./m` is refused in turn. -/
theorem modules_loaded_once_relative :
    ∃ s : Process, ∃ vm ∈ s.vms, vm.chain.length = 2 ∧ (vm.loads.map id).Nodup ∧
      (∀ F : Finset Path, (∀ p ∈ vm.loads, id p ∈ F) → vm.chain.length ≤ F.card) ∧
      ∀ importer i path, target cycleApp s.caches vm importer i = some path → path ∈ vm.chain →
        Guarded vm i path → ∃ module, require cycleApp s.caches vm importer true i =
          (.raise .cyclicImport module, s.caches, vm) := by
  have hstep : CyclesSeen id cycleApp cycleStart
      (.require 0 (.mk true [[114], [109] ++ luaSuffix]) true [46, 47, 97]) :=
    fun _ _ _ _ => ⟨fun _ _ => .inl rfl, fun hnew q hq heq => by
      cases show q = _ from heq
      exact Bool.noConfusion (hnew.symm.trans hq)⟩
  exact ⟨_, _, List.mem_singleton_self _, rfl, modules_loaded_once
    ⟨cycleStart, ⟨.main, _, rfl⟩, .single ⟨_, hstep, rfl⟩⟩ _ (List.mem_singleton_self _)⟩

end Defect

end Emilua.Import
