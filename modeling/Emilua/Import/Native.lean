import Mathlib.Data.Finset.Card
import Emilua.Lib.Dependencies
import Emilua.Lib.Wire

/-!
`load_native_module` and the loop over `EMILUA_PATH` that calls it. The modules
that have been loaded and those whose load has been begun are kept in the
`app_context`, for all VMs and all calls.
-/
namespace Emilua.Native
open Wire Dependencies

abbrev Dir := Bytes
abbrev ModuleId := Bytes

/-- `.deps`: the lines that are read, and whether reading ends at the end of the
file. -/
inductive DepsFile where
  | unreadable
  | lines (ids : List ModuleId) (eof : Bool)

/-- What else a directory has under the name of a module. -/
inductive OtherFile where
  | none
  | loads
  | fails
deriving DecidableEq, Repr

/-- The directories of `EMILUA_PATH` and what is in them; `plugin` says that the
file of a plugin is there and exports the right symbol. -/
structure Files where
  path : List Dir
  other : Dir → ModuleId → OtherFile
  plugin : Dir → ModuleId → Bool
  depsFiles : List ((Dir × ModuleId) × DepsFile)

inductive LoadError where
  | cyclicImport (id : ModuleId) (chain : List ModuleId)
  | stream
  | noPlugin
  | stuck
deriving DecidableEq, Repr

/-- `native_modules_cache_registry` and `visited_native_modules`. `inits` lists
the calls of `init_appctx`. -/
structure Registry where
  cache : List ModuleId
  visited : List ModuleId
  inits : List (Dir × ModuleId)
deriving DecidableEq, Repr

def Registry.empty : Registry := ⟨[], [], []⟩

abbrev Loaded := Registry × Except LoadError Unit

/-- One after the other, until an error. -/
def each (load : Registry → ModuleId → Loaded) : Registry → List ModuleId → Loaded
  | s, [] => (s, .ok ())
  | s, id :: ids =>
      match load s id with
      | (s, .ok ()) => each load s ids
      | (s, .error e) => (s, .error e)

variable (fs : Files)

def Files.deps (dir : Dir) (id : ModuleId) : Option DepsFile := fs.depsFiles.lookup (dir, id)

/-- The plugin itself, when its dependencies are there. -/
def importPlugin (dir : Dir) (s : Registry) (id : ModuleId) : Loaded :=
  if fs.plugin dir id then
    ({ s with cache := id :: s.cache, inits := s.inits ++ [(dir, id)] }, .ok ())
  else (s, .error .noPlugin)

/-- `load_native_module`; `chain` has the modules whose `.deps` are being
followed, the innermost first. -/
def loadNativeModule (dir : Dir) : Nat → List ModuleId → Registry → ModuleId → Loaded
  | 0, _, s, _ => (s, .error .stuck)
  | fuel + 1, chain, s, id =>
      if s.cache.contains id then (s, .ok ())
      else if s.visited.contains id then (s, .error (.cyclicImport id chain))
      else
        let s := { s with visited := id :: s.visited }
        match fs.deps dir id with
        | none => importPlugin fs dir s id
        | some .unreadable => (s, .error .stream)
        | some (.lines ids eof) =>
            match each (loadNativeModule dir fuel (id :: chain)) s ids with
            | (s, .error e) => (s, .error e)
            | (s, .ok ()) => if eof then importPlugin fs dir s id else (s, .error .stream)

/-- An attempt to load a module from a directory. -/
structure Attempt where
  before : Registry
  dir : Dir
  id : ModuleId
  after : Registry
  result : Except LoadError Unit

/-- The loop of `on_external_package`; an exception makes it go on with the next
directory. -/
def search (id : ModuleId) : List Dir → Registry → List Attempt × Registry
  | [], s => ([], s)
  | dir :: dirs, s =>
      match fs.other dir id with
      | .loads => ([], s)
      | .fails => search id dirs s
      | .none =>
          if s.cache.contains id then ([], s)
          else
            match loadNativeModule fs dir (fs.depsFiles.length + 1) [] s id with
            | (s', .ok ()) => ([⟨s, dir, id, s', .ok ()⟩], s')
            | (s', .error e) =>
                let (attempts, s'') := search id dirs s'
                (⟨s, dir, id, s', .error e⟩ :: attempts, s'')

/-- The attempts made by a sequence of calls of `require`. -/
def requires : Registry → List ModuleId → List Attempt × Registry
  | s, [] => ([], s)
  | s, id :: ids =>
      let (attempts, s') := search fs id fs.path s
      let (more, s'') := requires s' ids
      (attempts ++ more, s'')

/-! What loading does to the registries, whatever they hold. -/

/-- The modules that a module's `.deps` names. -/
def Files.needs (dir : Dir) (id : ModuleId) : List ModuleId :=
  match fs.deps dir id with
  | some (.lines ids _) => ids
  | _ => []

/-- Every plugin is initialised once, after those its `.deps` names. -/
structure Inited (s : Registry) : Prop where
  cache : s.cache = (s.inits.map Prod.snd).reverse
  nodup : s.cache.Nodup
  ordered : ∀ pre dir id post, s.inits = pre ++ (dir, id) :: post →
    ∀ d ∈ fs.needs dir id, d ∈ pre.map Prod.snd

/-- Nothing is forgotten, and no module is loaded whose load has been begun. -/
structure Grows (s s' : Registry) : Prop where
  cache : ∀ x ∈ s.cache, x ∈ s'.cache
  visited : ∀ x ∈ s.visited, x ∈ s'.visited
  fresh : ∀ x ∈ s.visited, x ∈ s'.cache → x ∈ s.cache
  inited : Inited fs s → Inited fs s'

variable {fs} {s s' s'' : Registry} {dir : Dir} {id : ModuleId} {chain ids : List ModuleId}

theorem Grows.refl (s : Registry) : Grows fs s s :=
  ⟨fun _ h => h, fun _ h => h, fun _ _ h => h, fun h => h⟩

theorem Grows.trans (h : Grows fs s s') (h' : Grows fs s' s'') : Grows fs s s'' where
  cache x hx := h'.cache x (h.cache x hx)
  visited x hx := h'.visited x (h.visited x hx)
  fresh x hx hcache := h.fresh x hx (h'.fresh x (h.visited x hx) hcache)
  inited hi := h'.inited (h.inited hi)

theorem each_grows {load : Registry → ModuleId → Loaded}
    (hload : ∀ s id, Grows fs s (load s id).1 ∧ ((load s id).2 = .ok () → id ∈ (load s id).1.cache))
    (s : Registry) (ids : List ModuleId) : Grows fs s (each load s ids).1 ∧
      ((each load s ids).2 = .ok () → ∀ id ∈ ids, id ∈ (each load s ids).1.cache) := by
  induction ids generalizing s with
  | nil => exact ⟨.refl s, fun _ => nofun⟩
  | cons id ids ih =>
      obtain ⟨hgrows, hcached⟩ := hload s id
      rw [each]
      generalize load s id = loaded at hgrows hcached
      obtain ⟨s', result⟩ := loaded
      cases result with
      | error e => exact ⟨hgrows, nofun⟩
      | ok _ =>
          obtain ⟨hrest, hall⟩ := ih s'
          refine ⟨hgrows.trans hrest, fun hok x hx => ?_⟩
          rcases List.mem_cons.mp hx with rfl | hx
          · exact hrest.cache x (hcached rfl)
          · exact hall hok x hx

theorem importPlugin_grows (hneeds : ∀ d ∈ fs.needs dir id, d ∈ s.cache) (hfresh : id ∉ s.cache) :
    (∀ x ∈ s.cache, x ∈ (importPlugin fs dir s id).1.cache) ∧
      (importPlugin fs dir s id).1.visited = s.visited ∧
      (∀ x ∈ (importPlugin fs dir s id).1.cache, x ∈ s.cache ∨ x = id) ∧
      (Inited fs s → Inited fs (importPlugin fs dir s id).1) ∧
      ((importPlugin fs dir s id).2 = .ok () → id ∈ (importPlugin fs dir s id).1.cache) := by
  unfold importPlugin
  split
  · refine ⟨fun x hx => List.mem_cons_of_mem _ hx, rfl, ?_, ?_, fun _ => List.mem_cons_self ..⟩
    · intro x hx
      rcases List.mem_cons.mp hx with rfl | hx
      · exact .inr rfl
      · exact .inl hx
    · intro hi
      refine ⟨by simp [hi.cache], List.nodup_cons.mpr ⟨hfresh, hi.nodup⟩, ?_⟩
      intro pre dir' id' post hsplit d hd
      rcases List.eq_nil_or_concat post with rfl | ⟨post, last, rfl⟩
      · obtain ⟨hpre, hlast⟩ := List.append_inj' hsplit rfl
        obtain ⟨hdir, hid⟩ := Prod.mk.inj (List.cons.inj hlast).1
        subst hdir hid
        rw [← hpre]
        have hin := hneeds d hd
        rw [hi.cache] at hin
        exact List.mem_reverse.mp hin
      · change s.inits ++ [(dir, id)] = _ at hsplit
        rw [List.concat_eq_append, ← List.cons_append, ← List.append_assoc] at hsplit
        exact hi.ordered pre dir' id' post (List.append_inj' hsplit rfl).1 d hd
  · exact ⟨fun _ h => h, rfl, fun _ h => .inl h, fun h => h, nofun⟩

theorem load_grows (dir : Dir) (fuel : Nat) (chain : List ModuleId) (s : Registry) (id : ModuleId) :
    Grows fs s (loadNativeModule fs dir fuel chain s id).1 ∧
      ((loadNativeModule fs dir fuel chain s id).2 = .ok () →
        id ∈ (loadNativeModule fs dir fuel chain s id).1.cache) := by
  induction fuel generalizing chain s id with
  | zero => exact ⟨.refl s, nofun⟩
  | succ fuel ih =>
      rw [loadNativeModule]
      by_cases hcache : s.cache.contains id = true
      · rw [if_pos hcache]
        exact ⟨.refl s, fun _ => by simpa using hcache⟩
      · rw [if_neg hcache]
        by_cases hvisited : s.visited.contains id = true
        · rw [if_pos hvisited]
          exact ⟨.refl s, nofun⟩
        · rw [if_neg hvisited]
          have hnot : id ∉ s.cache := by simpa using hcache
          have hnew : id ∉ s.visited := by simpa using hvisited
          -- the load of `id` has begun, and it is not in the cache until its plugin is
          have hbegun : Grows fs s { s with visited := id :: s.visited } :=
            ⟨fun _ h => h, fun _ h => List.mem_cons_of_mem _ h, fun _ _ h => h,
              fun h => ⟨h.cache, h.nodup, h.ordered⟩⟩
          have hfinish : ∀ s', Grows fs { s with visited := id :: s.visited } s' →
              (∀ d ∈ fs.needs dir id, d ∈ s'.cache) →
              Grows fs s (importPlugin fs dir s' id).1 ∧ ((importPlugin fs dir s' id).2 = .ok () →
                id ∈ (importPlugin fs dir s' id).1.cache) := by
            intro s' hs' hneeds
            have hfresh : id ∉ s'.cache := fun hin =>
              hnot (hs'.fresh id (List.mem_cons_self ..) hin)
            have hgrows := hbegun.trans hs'
            obtain ⟨hkept, hsame, hadded, hinited, hin⟩ := importPlugin_grows hneeds hfresh
            refine ⟨⟨fun x hx => hkept x (hgrows.cache x hx), ?_, ?_, fun hi => hinited (hgrows.inited hi)⟩, hin⟩
            · intro x hx
              rw [hsame]
              exact hgrows.visited x hx
            · intro x hx hcached
              rcases hadded x hcached with hold | rfl
              · exact hgrows.fresh x hx hold
              · exact absurd hx hnew
          cases hdeps : fs.deps dir id with
          | none => exact hfinish _ (.refl _) (by simp [Files.needs, hdeps])
          | some file =>
              cases file with
              | unreadable => exact ⟨hbegun, nofun⟩
              | lines ids eof =>
                  obtain ⟨hgrows, hall⟩ := each_grows (fun s d => ih (id :: chain) s d)
                    { s with visited := id :: s.visited } ids
                  simp only
                  generalize each (loadNativeModule fs dir fuel (id :: chain))
                    { s with visited := id :: s.visited } ids = loaded at hgrows hall
                  obtain ⟨s', result⟩ := loaded
                  cases result with
                  | error e => exact ⟨hbegun.trans hgrows, nofun⟩
                  | ok _ =>
                      cases eof with
                      | false => exact ⟨hbegun.trans hgrows, nofun⟩
                      | true =>
                          refine hfinish s' hgrows ?_
                          simp only [Files.needs, hdeps]
                          exact hall rfl

/-! The recursion ends. -/

/-- The modules with a `.deps` file whose load has not been begun. -/
def unvisited (fs : Files) (s : Registry) : Finset ModuleId :=
  (fs.depsFiles.map fun f => f.1.2).toFinset \ s.visited.toFinset

theorem unvisited_card_le (fs : Files) (s : Registry) :
    (unvisited fs s).card ≤ fs.depsFiles.length := by
  refine (Finset.card_le_card Finset.sdiff_subset).trans ?_
  refine (List.toFinset_card_le _).trans ?_
  rw [List.length_map]

theorem Grows.unvisited (h : Grows fs s s') : unvisited fs s' ⊆ unvisited fs s := by
  intro x hx
  rw [Native.unvisited, Finset.mem_sdiff] at hx ⊢
  refine ⟨hx.1, fun hin => hx.2 ?_⟩
  rw [List.mem_toFinset] at hin ⊢
  exact h.visited x hin

/-- Beginning the load of a module that has a `.deps` file. -/
theorem unvisited_begin {file : DepsFile} (hdeps : fs.deps dir id = some file) (hnew : id ∉ s.visited) :
    (unvisited fs { s with visited := id :: s.visited }).card < (unvisited fs s).card := by
  apply Finset.card_lt_card
  have hlisted : id ∈ (fs.depsFiles.map fun f => f.1.2).toFinset := by
    rw [List.mem_toFinset, List.mem_map]
    obtain ⟨pre, post, hsplit, -⟩ := List.lookup_eq_some_iff.mp hdeps
    exact ⟨((dir, id), file), by rw [hsplit]; simp, rfl⟩
  refine ⟨?_, fun hsub => ?_⟩
  · intro x hx
    rw [unvisited, Finset.mem_sdiff] at hx ⊢
    refine ⟨hx.1, fun hin => hx.2 ?_⟩
    rw [List.mem_toFinset] at hin ⊢
    exact List.mem_cons_of_mem _ hin
  · have hin : id ∈ unvisited fs s := by
      rw [unvisited, Finset.mem_sdiff, List.mem_toFinset (l := s.visited)]
      exact ⟨hlisted, hnew⟩
    have hno := hsub hin
    rw [unvisited, Finset.mem_sdiff, List.mem_toFinset (l := id :: s.visited)] at hno
    exact hno.2 (List.mem_cons_self ..)

theorem each_not_stuck {load : Registry → ModuleId → Loaded} {fuel : Nat}
    (hgrows : ∀ s id, Grows fs s (load s id).1)
    (hload : ∀ s id, (unvisited fs s).card < fuel → (load s id).2 ≠ .error .stuck)
    (hfuel : (unvisited fs s).card < fuel) : (each load s ids).2 ≠ .error .stuck := by
  induction ids generalizing s with
  | nil => exact nofun
  | cons id ids ih =>
      have hone := hload s id hfuel
      have hmore := hgrows s id
      rw [each]
      generalize load s id = loaded at hone hmore
      obtain ⟨s', result⟩ := loaded
      cases result with
      | error e => exact hone
      | ok _ =>
          exact ih (Nat.lt_of_le_of_lt (Finset.card_le_card hmore.unvisited) hfuel)

theorem importPlugin_not_stuck (fs : Files) (dir : Dir) (s : Registry) (id : ModuleId) :
    (importPlugin fs dir s id).2 ≠ .error .stuck := by
  unfold importPlugin
  split <;> exact nofun

theorem load_not_stuck (dir : Dir) {fuel : Nat} (hfuel : (unvisited fs s).card < fuel) :
    (loadNativeModule fs dir fuel chain s id).2 ≠ .error .stuck := by
  induction fuel generalizing chain s id with
  | zero => exact absurd hfuel (Nat.not_lt_zero _)
  | succ fuel ih =>
      rw [loadNativeModule]
      by_cases hcache : s.cache.contains id = true
      · rw [if_pos hcache]
        exact nofun
      · rw [if_neg hcache]
        by_cases hvisited : s.visited.contains id = true
        · rw [if_pos hvisited]
          exact nofun
        · rw [if_neg hvisited]
          have hnew : id ∉ s.visited := by simpa using hvisited
          cases hdeps : fs.deps dir id with
          | none => exact importPlugin_not_stuck fs dir _ id
          | some file =>
              have hless := unvisited_begin hdeps hnew
              cases file with
              | unreadable => exact nofun
              | lines ids eof =>
                  have hdone := @each_not_stuck fs { s with visited := id :: s.visited } ids
                    (loadNativeModule fs dir fuel (id :: chain)) fuel
                    (fun s d => (load_grows dir fuel (id :: chain) s d).1)
                    (fun s d h => ih h) (by omega)
                  simp only
                  generalize each (loadNativeModule fs dir fuel (id :: chain))
                    { s with visited := id :: s.visited } ids = loaded at hdone
                  obtain ⟨s', result⟩ := loaded
                  cases result with
                  | error e => exact hdone
                  | ok _ =>
                      cases eof with
                      | false => exact nofun
                      | true => exact importPlugin_not_stuck fs dir s' id

/-! Loading while no load has failed. -/

/-- What can be loaded from a directory: what is in the cache, and a plugin whose
`.deps` can be read and names only such modules. -/
def Files.Whole (fs : Files) (dir : Dir) (id : ModuleId) : Prop :=
  fs.plugin dir id = true ∧
    (fs.deps dir id = none ∨ ∃ ids, fs.deps dir id = some (.lines ids true))

def Files.Can (fs : Files) (dir : Dir) (cache : List ModuleId) (id : ModuleId) : Prop :=
  Loadable (fs.needs dir) (fs.Whole dir) (· ∈ cache) id

abbrev Files.NeedsFirst (fs : Files) (dir : Dir) (cache : List ModuleId) : ModuleId → ModuleId → Prop :=
  Needs (fs.needs dir) (· ∈ cache)

/-- A load has been begun and not been finished only for the modules of the chain. -/
def Registry.Clean (s : Registry) (chain : List ModuleId) : Prop :=
  ∀ x, x ∈ s.visited ↔ x ∈ s.cache ∨ x ∈ chain

/-- The chain of `.deps` files that is being followed, down to `id`. -/
def Files.Follows (fs : Files) (dir : Dir) (chain : List ModuleId) (id : ModuleId) : Prop :=
  List.IsChain (fun d x => d ∈ fs.needs dir x) (id :: chain)

/-- The error is true: the module is one of those being loaded. -/
def LoadError.Truthful (fs : Files) (dir : Dir) : LoadError → Prop
  | .cyclicImport id chain => id ∈ chain ∧ fs.Follows dir chain id
  | .stream | .noPlugin | .stuck => True

structure Succeeds (fs : Files) (dir : Dir) (chain : List ModuleId) (s s' : Registry)
    (ids : List ModuleId) : Prop where
  clean : s'.Clean chain
  loaded : ∀ id ∈ ids, id ∈ s'.cache
  kept : ∀ x ∈ s.cache, x ∈ s'.cache
  can : ∀ x ∈ s'.cache, fs.Can dir s.cache x

/-- A load fails for want of a file, or because the chain comes back to itself. -/
structure Fails (fs : Files) (dir : Dir) (chain : List ModuleId) (cache : List ModuleId)
    (id : ModuleId) (e : LoadError) : Prop where
  truthful : e.Truthful fs dir
  why : ¬ fs.Can dir cache id ∨
    ∃ c ∈ chain, Relation.ReflTransGen (fs.NeedsFirst dir cache) id c

def Meets (fs : Files) (dir : Dir) (chain : List ModuleId) (s : Registry) (id : ModuleId) :
    Loaded → Prop
  | (s', .ok ()) => Succeeds fs dir chain s s' [id]
  | (_, .error e) => e = .stuck ∨ Fails fs dir chain s.cache id e

theorem Fails.mono {cache cache' : List ModuleId} {e : LoadError} (h : Fails fs dir chain cache' id e)
    (hsub : ∀ x ∈ cache, x ∈ cache') : Fails fs dir chain cache id e where
  truthful := h.truthful
  why := by
    rcases h.why with hcannot | ⟨c, hc, hpath⟩
    · exact .inl fun hcan => hcannot (hcan.mono hsub)
    · refine .inr ⟨c, hc, ?_⟩
      exact hpath.lift _ fun a b hneeds => Needs.mono hneeds hsub

/-- The modules that a `.deps` file names, one after the other. -/
theorem each_meets {load : Registry → ModuleId → Loaded}
    (hload : ∀ s, s.Clean chain → ∀ id ∈ ids, Meets fs dir chain s id (load s id))
    (hclean : s.Clean chain) :
    match each load s ids with
    | (s', .ok ()) => Succeeds fs dir chain s s' ids
    | (_, .error e) => e = .stuck ∨ ∃ id ∈ ids, Fails fs dir chain s.cache id e := by
  induction ids generalizing s with
  | nil => exact ⟨hclean, nofun, fun _ h => h, fun x hx => .cached hx⟩
  | cons id ids ih =>
      have hone := hload s hclean id (List.mem_cons_self ..)
      rw [each]
      generalize load s id = loaded at hone
      obtain ⟨s', result⟩ := loaded
      cases result with
      | error e =>
          rcases hone with hstuck | hfails
          · exact .inl hstuck
          · exact .inr ⟨id, List.mem_cons_self .., hfails⟩
      | ok _ =>
          obtain ⟨hclean', hloaded, hkept, hcan⟩ := hone
          have hrest := ih (fun s hs x hx => hload s hs x (List.mem_cons_of_mem _ hx)) hclean'
          simp only
          generalize each load s' ids = loaded at hrest
          obtain ⟨s'', result⟩ := loaded
          cases result with
          | error e =>
              rcases hrest with hstuck | ⟨x, hx, hfails⟩
              · exact .inl hstuck
              · exact .inr ⟨x, List.mem_cons_of_mem _ hx, hfails.mono hkept⟩
          | ok _ =>
              obtain ⟨hclean'', hloaded', hkept', hcan'⟩ := hrest
              refine ⟨hclean'', ?_, fun x hx => hkept' x (hkept x hx), ?_⟩
              · intro x hx
                rcases List.mem_cons.mp hx with rfl | hx
                · exact hkept' x (hloaded x (List.mem_singleton_self x))
                · exact hloaded' x hx
              · intro x hx
                exact (hcan' x hx).cut hcan

theorem load_meets (dir : Dir) (fuel : Nat) (hclean : s.Clean chain) (hchain : fs.Follows dir chain id) :
    Meets fs dir chain s id (loadNativeModule fs dir fuel chain s id) := by
  induction fuel generalizing chain s id with
  | zero => exact .inl rfl
  | succ fuel ih =>
      rw [loadNativeModule]
      by_cases hcache : s.cache.contains id = true
      · rw [if_pos hcache]
        refine ⟨hclean, ?_, fun _ h => h, fun x hx => .cached hx⟩
        intro x hx
        rw [List.mem_singleton.mp hx]
        simpa using hcache
      · rw [if_neg hcache]
        have hnot : id ∉ s.cache := by simpa using hcache
        by_cases hvisited : s.visited.contains id = true
        · rw [if_pos hvisited]
          have hin : id ∈ chain := ((hclean id).mp (by simpa using hvisited)).resolve_left hnot
          exact .inr ⟨⟨hin, hchain⟩, .inr ⟨id, hin, .refl⟩⟩
        · rw [if_neg hvisited]
          have hnew : id ∉ s.visited := by simpa using hvisited
          have hcan_whole : fs.Can dir s.cache id → fs.Whole dir id := by
            intro hcan
            cases hcan with
            | cached h => exact absurd h hnot
            | load h _ => exact h
          have hbegun : Registry.Clean { s with visited := id :: s.visited } (id :: chain) := by
            intro x
            simp only [List.mem_cons, hclean x]
            tauto
          have hfinish : ∀ s', Succeeds fs dir (id :: chain) { s with visited := id :: s.visited } s'
                (fs.needs dir id) →
              (fs.deps dir id = none ∨ ∃ ids, fs.deps dir id = some (.lines ids true)) →
              Meets fs dir chain s id (importPlugin fs dir s' id) := by
            intro s' hs' hread
            unfold importPlugin
            by_cases hplugin : fs.plugin dir id = true
            · rw [if_pos hplugin]
              refine ⟨?_, ?_, fun x hx => List.mem_cons_of_mem _ (hs'.kept x hx), ?_⟩
              · intro x
                have hx := hs'.clean x
                simp only [List.mem_cons] at hx ⊢
                rw [hx]
                tauto
              · intro x hx
                rw [List.mem_singleton.mp hx]
                exact List.mem_cons_self ..
              · intro x hx
                rcases List.mem_cons.mp hx with rfl | hx
                · exact .load ⟨hplugin, hread⟩ fun d hd => hs'.can d (hs'.loaded d hd)
                · exact hs'.can x hx
            · rw [if_neg hplugin]
              exact .inr ⟨trivial, .inl fun hcan => hplugin (hcan_whole hcan).1⟩
          cases hdeps : fs.deps dir id with
          | none =>
              refine hfinish _ ⟨hbegun, ?_, fun _ h => h, fun x hx => .cached hx⟩ (.inl hdeps)
              simp [Files.needs, hdeps]
          | some file =>
              cases file with
              | unreadable =>
                  refine .inr ⟨trivial, .inl fun hcan => ?_⟩
                  rcases (hcan_whole hcan).2 with hnone | ⟨ids, hlines⟩
                  · exact absurd (hdeps.symm.trans hnone) (by simp)
                  · exact absurd (hdeps.symm.trans hlines) (by simp)
              | lines ids eof =>
                  have hneeds : fs.needs dir id = ids := by simp [Files.needs, hdeps]
                  have hall := @each_meets fs { s with visited := id :: s.visited } dir (id :: chain)
                    ids (loadNativeModule fs dir fuel (id :: chain)) (fun s' hs' d hd => ih hs' (by
                      refine List.isChain_cons_cons.mpr ⟨?_, hchain⟩
                      rw [hneeds]
                      exact hd)) hbegun
                  simp only
                  generalize each (loadNativeModule fs dir fuel (id :: chain))
                    { s with visited := id :: s.visited } ids = loaded at hall
                  obtain ⟨s', result⟩ := loaded
                  cases result with
                  | error e =>
                      rcases hall with hstuck | ⟨d, hd, hfails⟩
                      · exact .inl hstuck
                      · have hfirst : fs.NeedsFirst dir s.cache id d := ⟨hnot, hneeds ▸ hd⟩
                        refine .inr ⟨hfails.truthful, ?_⟩
                        rcases hfails.why with hcannot | ⟨c, hc, hpath⟩
                        · exact .inl fun hcan => hcannot (hcan.of_needs hfirst)
                        · rcases List.mem_cons.mp hc with rfl | hc
                          · exact .inl fun hcan =>
                              hcan.not_cyclic (Relation.TransGen.head' hfirst hpath)
                          · exact .inr ⟨c, hc, .head hfirst hpath⟩
                  | ok _ =>
                      cases eof with
                      | false =>
                          refine .inr ⟨trivial, .inl fun hcan => ?_⟩
                          rcases (hcan_whole hcan).2 with hnone | ⟨ids', hlines⟩
                          · exact absurd (hdeps.symm.trans hnone) (by simp)
                          · exact absurd (hdeps.symm.trans hlines) (by simp)
                      | true => exact hfinish s' (hneeds ▸ hall) (.inr ⟨ids, hdeps⟩)

/-- The load of a module that fails leaves a trace of itself. -/
theorem load_failed {fuel : Nat} (hnew : id ∉ s.visited) {e : LoadError}
    (hfailed : (loadNativeModule fs dir (fuel + 1) chain s id).2 = .error e) :
    id ∈ (loadNativeModule fs dir (fuel + 1) chain s id).1.visited := by
  rw [loadNativeModule] at hfailed ⊢
  by_cases hcache : s.cache.contains id = true
  · rw [if_pos hcache] at hfailed
    cases hfailed
  · rw [if_neg hcache] at hfailed ⊢
    rw [if_neg (by simpa using hnew)] at hfailed ⊢
    have himport : ∀ s', id ∈ s'.visited → id ∈ (importPlugin fs dir s' id).1.visited := by
      intro s' hin
      unfold importPlugin
      split <;> exact hin
    cases hdeps : fs.deps dir id with
    | none => exact himport _ (List.mem_cons_self ..)
    | some file =>
        cases file with
        | unreadable => exact List.mem_cons_self ..
        | lines ids eof =>
            obtain ⟨hgrows, -⟩ := @each_grows fs _ (fun s d => load_grows dir fuel (id :: chain) s d)
              { s with visited := id :: s.visited } ids
            have hin := hgrows.visited id (List.mem_cons_self ..)
            simp only
            generalize each (loadNativeModule fs dir fuel (id :: chain))
              { s with visited := id :: s.visited } ids = loaded at hin
            obtain ⟨s', result⟩ := loaded
            cases result with
            | error e => exact hin
            | ok _ =>
                cases eof with
                | false => exact hin
                | true => exact himport s' hin

/-! Sequences of calls of `require`. -/

/-- A failed attempt leaves the registries as they were, and what it says is true. -/
def Attempt.Kept (fs : Files) (a : Attempt) : Prop :=
  ∀ e, a.result = .error e → a.after.cache = a.before.cache ∧ a.after.visited = a.before.visited ∧
    e.Truthful fs a.dir

/-- No directory of the path is tried in vain. -/
def Files.Direct (fs : Files) (cache : List ModuleId) (id : ModuleId) : List Dir → Prop
  | [] => True
  | dir :: dirs =>
      match fs.other dir id with
      | .loads => True
      | .fails => fs.Direct cache id dirs
      | .none => fs.Can dir cache id

/-- Every call of a sequence finds its module at once. -/
def AllDirect (fs : Files) : Registry → List ModuleId → Prop
  | _, [] => True
  | s, id :: ids => fs.Direct s.cache id fs.path ∧ AllDirect fs (search fs id fs.path s).2 ids

theorem load_can (hclean : s.Clean []) (dir : Dir) (id : ModuleId) :
    match loadNativeModule fs dir (fs.depsFiles.length + 1) [] s id with
    | (s', .ok ()) => s'.Clean [] ∧ fs.Can dir s.cache id
    | (_, .error e) => ¬ fs.Can dir s.cache id ∧ e.Truthful fs dir := by
  have hmeets := @load_meets fs s id [] dir (fs.depsFiles.length + 1) hclean
    (List.isChain_singleton id)
  have hdone := @load_not_stuck fs s id [] dir _ (Nat.lt_succ_of_le (unvisited_card_le fs s))
  generalize loadNativeModule fs dir (fs.depsFiles.length + 1) [] s id = loaded at hmeets hdone
  obtain ⟨s', result⟩ := loaded
  cases result with
  | ok _ => exact ⟨hmeets.clean, hmeets.can id (hmeets.loaded id (List.mem_singleton_self id))⟩
  | error e =>
      rcases hmeets with rfl | hfails
      · exact absurd rfl hdone
      · rcases hfails.why with hcannot | ⟨c, hc, -⟩
        · exact ⟨hcannot, hfails.truthful⟩
        · cases hc

/-- In a clean state a call keeps the registries exactly if it is direct. -/
theorem search_kept_iff (hclean : s.Clean []) (id : ModuleId) (dirs : List Dir) :
    ((∀ a ∈ (search fs id dirs s).1, a.Kept fs) ↔ fs.Direct s.cache id dirs) ∧
      (fs.Direct s.cache id dirs → (search fs id dirs s).2.Clean []) := by
  induction dirs with
  | nil => exact ⟨⟨fun _ => trivial, fun _ => nofun⟩, fun _ => hclean⟩
  | cons dir dirs ih =>
      rw [search, Files.Direct]
      cases fs.other dir id with
      | loads => exact ⟨⟨fun _ => trivial, fun _ => nofun⟩, fun _ => hclean⟩
      | fails => exact ih
      | none =>
          simp only
          by_cases hcache : s.cache.contains id = true
          · rw [if_pos hcache]
            have hin : id ∈ s.cache := by simpa using hcache
            exact ⟨⟨fun _ => .cached hin, fun _ => nofun⟩, fun _ => hclean⟩
          · rw [if_neg hcache]
            have hnot : id ∉ s.cache := by simpa using hcache
            have hnew : id ∉ s.visited := fun hin => by
              rcases (hclean id).mp hin with hin | hin
              · exact hnot hin
              · cases hin
            have hload := @load_can fs s hclean dir id
            have hmark := @load_failed fs s dir id [] fs.depsFiles.length hnew
            generalize loadNativeModule fs dir (fs.depsFiles.length + 1) [] s id = loaded at hload hmark
            obtain ⟨s', result⟩ := loaded
            cases result with
            | ok _ =>
                refine ⟨⟨fun _ => hload.2, fun _ => ?_⟩, fun _ => hload.1⟩
                intro a ha e he
                rw [List.mem_singleton.mp ha] at he
                cases he
            | error e =>
                refine ⟨⟨fun hkept => ?_, fun hcan => absurd hcan hload.1⟩, fun hcan => absurd hcan hload.1⟩
                obtain ⟨-, hvisited, -⟩ := hkept ⟨s, dir, id, s', .error e⟩ (List.mem_cons_self ..) e rfl
                have hin : id ∈ s'.visited := hmark rfl
                rw [hvisited] at hin
                exact absurd hin hnew

theorem search_grows (id : ModuleId) (dirs : List Dir) (s : Registry) :
    Grows fs s (search fs id dirs s).2 ∧
      ∀ a ∈ (search fs id dirs s).1, a.result ≠ .error .stuck := by
  induction dirs generalizing s with
  | nil => exact ⟨.refl s, nofun⟩
  | cons dir dirs ih =>
      rw [search]
      cases fs.other dir id with
      | loads => exact ⟨.refl s, nofun⟩
      | fails => exact ih s
      | none =>
          simp only
          split
          · exact ⟨.refl s, nofun⟩
          · obtain ⟨hgrows, -⟩ := @load_grows fs dir (fs.depsFiles.length + 1) [] s id
            have hdone := @load_not_stuck fs s id [] dir _ (Nat.lt_succ_of_le (unvisited_card_le fs s))
            generalize loadNativeModule fs dir (fs.depsFiles.length + 1) [] s id = loaded at hgrows hdone
            obtain ⟨s', result⟩ := loaded
            cases result with
            | ok _ =>
                refine ⟨hgrows, fun a ha => ?_⟩
                rw [List.mem_singleton.mp ha]
                exact nofun
            | error e =>
                obtain ⟨hrest, hall⟩ := ih s'
                refine ⟨hgrows.trans hrest, fun a ha => ?_⟩
                rcases List.mem_cons.mp ha with rfl | ha
                · exact hdone
                · exact hall a ha

theorem requires_kept_iff (hclean : s.Clean []) (ids : List ModuleId) :
    (∀ a ∈ (requires fs s ids).1, a.Kept fs) ↔ AllDirect fs s ids := by
  induction ids generalizing s with
  | nil => exact ⟨fun _ => trivial, fun _ => nofun⟩
  | cons id ids ih =>
      obtain ⟨hiff, hnext⟩ := @search_kept_iff fs s hclean id fs.path
      rw [requires, AllDirect]
      simp only [List.mem_append, or_imp, forall_and]
      rw [hiff]
      exact and_congr_right fun hdirect => ih (hnext hdirect)

theorem requires_grows (s : Registry) (ids : List ModuleId) :
    Grows fs s (requires fs s ids).2 ∧
      ∀ a ∈ (requires fs s ids).1, a.result ≠ .error .stuck := by
  induction ids generalizing s with
  | nil => exact ⟨.refl s, nofun⟩
  | cons id ids ih =>
      obtain ⟨hgrows, hdone⟩ := @search_grows fs id fs.path s
      obtain ⟨hgrows', hdone'⟩ := ih (search fs id fs.path s).2
      rw [requires]
      refine ⟨hgrows.trans hgrows', fun a ha => ?_⟩
      rcases List.mem_append.mp ha with ha | ha
      · exact hdone a ha
      · exact hdone' a ha

theorem inited_empty (fs : Files) : Inited fs .empty where
  cache := rfl
  nodup := List.nodup_nil
  ordered pre dir id post h := by
    have hlen := congrArg List.length h
    simp [Registry.empty] at hlen

/-- A module that only the second of two directories has. -/
def secondDirectory : Files where
  path := [[1], [2]]
  other _ _ := .none
  plugin dir id := dir = [2] && id = [97]
  depsFiles := []

end Emilua.Native
