import Emilua.Sched.Moves

/-!
The life of a fiber: whether it has ended, whether it is in `fiber_list`, who
waits for it, and whether its handle still leads to it. Few operations change
it, and each changes the life of one fiber.
-/
namespace Emilua.Sched
open Transition

def Phase.ended : Phase → Option Bool
  | .finished ok => some ok
  | .running | .suspended _ => none

/-- The fiber whose result is given away by the event. -/
def Event.releases : Event → Option FiberId
  | .joined f | .detached f | .collectHandle f => some f
  | _ => none

/-- The result of `f` has been joined, detached or collected with the handle. -/
def State.released (s : State) (f : FiberId) : Bool := s.log.any fun e => e.releases = some f

structure Life where
  kind : Kind
  listed : Bool
  joiner : Joiner
  status : Option Bool
  userHandle : Bool
  ended : Option Bool
  attached : Bool
  joinInProgress : Bool
  released : Bool
deriving DecidableEq, Repr

def State.life (s : State) (f : FiberId) : Life where
  kind := (s.fibers f).kind
  listed := (s.fibers f).listed
  joiner := (s.fibers f).joiner
  status := (s.fibers f).status
  userHandle := (s.fibers f).userHandle
  ended := (s.fibers f).phase.ended
  attached := (s.handles f).attached
  joinInProgress := (s.handles f).joinInProgress
  released := s.released f

namespace Life

def spawned : Life := ⟨.spawned, true, .nil, none, false, none, true, false, false⟩

def module (importer : FiberId) : Life := ⟨.module, true, .fiber importer, none, false, none, true, false, false⟩

/-- What can happen to a fiber. The label says that it ends. -/
inductive Step (x : Life) : Option Bool → Life → Prop
  | join (f : FiberId) (hkind : x.kind = .spawned) (hattached : x.attached = true)
      (hidle : x.joinInProgress = false) (hlive : x.status = none) :
      Step x none { x with joiner := .fiber f, userHandle := true, joinInProgress := true }
  | leave (f : FiberId) (hjoiner : x.joiner = .fiber f) (hlive : x.ended = none) :
      Step x none { x with joiner := .nil, userHandle := false, joinInProgress := false }
  | take (ok : Bool) (hkind : x.kind = .spawned) (hattached : x.attached = true) (hstatus : x.status = some ok) :
      Step x none { x with listed := false, attached := false, released := true }
  | detach (hkind : x.kind = .spawned) (hattached : x.attached = true) (hidle : x.joinInProgress = false)
      (hlive : x.status = none) :
      Step x none { x with joiner := .detached, attached := false, released := true }
  | collect (hkind : x.kind = .spawned) (hdetached : x.attached = false) : Step x none { x with released := true }
  | endDetached (ok : Bool) (hlive : x.ended = none) (hjoiner : x.joiner = .detached)
      (hmain : x.kind = .main → ok = true) :
      Step x (some ok) { x with ended := some ok, listed := false }
  | endNil (ok : Bool) (hlive : x.ended = none) (hjoiner : x.joiner = .nil) :
      Step x (some ok) { x with ended := some ok, status := some ok }
  | endJoined (ok : Bool) (f : FiberId) (hlive : x.ended = none) (hjoiner : x.joiner = .fiber f) :
      Step x (some ok)
        { x with
          ended := some ok, status := some ok, released := true
          attached := if x.userHandle then false else x.attached }

/-- The handle of a spawned fiber leads to it, and a fiber that waits for it
holds the handle. -/
structure Bound (x : Life) : Prop where
  status : x.attached = true → x.status = x.ended
  joiner : x.attached = true → x.joiner ≠ .detached
  joined : ∀ f, x.joiner = .fiber f → x.ended = none →
    x.attached = true ∧ x.joinInProgress = true ∧ x.userHandle = true

theorem Step.kind {x y : Life} {e : Option Bool} (h : Step x e y) : y.kind = x.kind := by
  cases h <;> rfl

theorem Step.bound {x y : Life} {e : Option Bool} (hx : x.Bound) (h : Step x e y) : y.Bound := by
  cases h with
  | join f hkind hattached hidle hlive => exact ⟨hx.status, fun _ => nofun, fun _ _ _ => ⟨hattached, rfl, rfl⟩⟩
  | leave f hjoiner hlive => exact ⟨hx.status, fun _ => nofun, nofun⟩
  | take ok hkind hattached hstatus =>
      refine ⟨nofun, nofun, fun f hf hlive => ?_⟩
      have hended := hx.status hattached
      rw [hstatus] at hended
      exact absurd (hended.trans hlive) nofun
  | detach hkind hattached hidle hlive => exact ⟨nofun, nofun, nofun⟩
  | collect hkind hdetached => exact ⟨hx.status, hx.joiner, hx.joined⟩
  | endDetached ok hlive hjoiner hmain =>
      refine ⟨fun hattached => absurd hjoiner (hx.joiner hattached), fun hattached => hx.joiner hattached, ?_⟩
      exact fun _ _ hno => absurd hno nofun
  | endNil ok hlive hjoiner => exact ⟨fun _ => rfl, hx.joiner, fun _ _ hno => absurd hno nofun⟩
  | endJoined ok f hlive hjoiner =>
      refine ⟨fun _ => rfl, fun _ hno => ?_, fun _ _ hno => absurd hno nofun⟩
      rw [hjoiner] at hno
      cases hno

end Life

/-- What a step does to the lives of the fibers. -/
inductive LifeChange (s s' : State) (a : Action) : Prop
  | same (hlife : s'.life = s.life) (hcount : s'.fiberCount = s.fiberCount)
  | step (g : FiberId) (e : Option Bool) (x : Life) (h : (s.life g).Step e x)
      (hend : ∀ ok, e = some ok → a = .finish ok ∧ s.current = some g)
      (hlife : s'.life = Function.update s.life g x) (hcount : s'.fiberCount = s.fiberCount)
      (hlt : g < s.fiberCount)
  | fresh (x : Life) (hx : x = .spawned ∨ ∃ f, x = .module f)
      (hlife : s'.life = Function.update s.life s.fiberCount { x with released := s.released s.fiberCount })
      (hcount : s'.fiberCount = s.fiberCount + 1)
  | halt (hvalid : s'.valid = false) (hcount : s'.fiberCount = s.fiberCount)

section
variable {s s' : State} {f g : FiberId} {w : Wait}

/-! The operations that change nobody's life. -/

theorem life_ext (hfibers : ∀ g, (s'.fibers g).kind = (s.fibers g).kind ∧ (s'.fibers g).listed = (s.fibers g).listed ∧
      (s'.fibers g).joiner = (s.fibers g).joiner ∧ (s'.fibers g).status = (s.fibers g).status ∧
      (s'.fibers g).userHandle = (s.fibers g).userHandle ∧ (s'.fibers g).phase.ended = (s.fibers g).phase.ended)
    (hhandles : s'.handles = s.handles) (hreleased : s'.released = s.released) : s'.life = s.life := by
  funext g
  obtain ⟨h₁, h₂, h₃, h₄, h₅, h₆⟩ := hfibers g
  simp only [State.life, h₁, h₂, h₃, h₄, h₅, h₆, hhandles, hreleased]

theorem released_append {l : List Event} (hlog : s'.log = s.log ++ l) (hes : ∀ e ∈ l, e.releases = none) :
    s'.released = s.released := by
  funext g
  have hnone : l.any (fun e => e.releases = some g) = false := by
    rw [List.any_eq_false]
    intro e he
    simp [hes e he]
  rw [State.released, hlog, List.any_append, hnone, Bool.or_false, State.released]

theorem life_setFiber {k : Fiber → Fiber}
    (hk : (k (s.fibers f)).kind = (s.fibers f).kind ∧ (k (s.fibers f)).listed = (s.fibers f).listed ∧
      (k (s.fibers f)).joiner = (s.fibers f).joiner ∧ (k (s.fibers f)).status = (s.fibers f).status ∧
      (k (s.fibers f)).userHandle = (s.fibers f).userHandle ∧
      (k (s.fibers f)).phase.ended = (s.fibers f).phase.ended) : (s.setFiber f k).life = s.life := by
  refine life_ext (fun g => ?_) rfl rfl
  by_cases hg : g = f
  · subst hg
    rw [State.setFiber_fibers_self]
    exact hk
  · rw [State.setFiber_fibers_ne s hg]
    exact ⟨rfl, rfl, rfl, rfl, rfl, rfl⟩

@[simp] theorem life_setQueue (q : Queue) (xs : List FiberId) : (s.setQueue q xs).life = s.life := rfl

@[simp] theorem life_setHolders (m : Nat) (xs : List FiberId) : (s.setHolders m xs).life = s.life := rfl

@[simp] theorem life_setLocked (m : Nat) (b : Bool) : (s.setLocked m b).life = s.life := rfl

@[simp] theorem life_setOwner (m : Nat) (o : Option FiberId) (n : Nat) : (s.setOwner m o n).life = s.life := rfl

@[simp] theorem life_setFuture (p : Nat) (x : FutureState) : (s.setFuture p x).life = s.life := rfl

@[simp] theorem life_setOps (ops : List Op) : (s.setOps ops).life = s.life := rfl

@[simp] theorem life_setSends (sends : List (FiberId × Bool)) : (s.setSends sends).life = s.life := rfl

@[simp] theorem life_setReceiver (r : Option FiberId) : (s.setReceiver r).life = s.life := rfl

theorem life_record {e : Event} (he : e.releases = none) : (s.record e).life = s.life :=
  life_ext (fun _ => ⟨rfl, rfl, rfl, rfl, rfl, rfl⟩) rfl (released_append rfl (by simpa using he))

@[simp] theorem life_post (f : FiberId) (a : Args) (k : Bool) : (s.post f a k).life = s.life :=
  life_ext (fun _ => ⟨rfl, rfl, rfl, rfl, rfl, rfl⟩) rfl (released_append rfl (by simp [Event.releases]))

@[simp] theorem life_wakeAll (q : Queue) (o : Outcome) : (s.wakeAll q o).life = s.life :=
  life_ext (fun _ => ⟨rfl, rfl, rfl, rfl, rfl, rfl⟩) rfl (released_append rfl (by simp [Event.releases]))

theorem life_suspend (hf : (s.fibers f).phase = .running) (w : Wait) (i : Interrupter) :
    (s.suspend f w i).life = s.life := by
  refine life_ext (fun g => ?_) rfl (released_append (l := [.suspend f w (s.fibers f).disabled.on]) rfl
    (by simp [Event.releases]))
  rw [State.suspend_fibers]
  by_cases hg : g = f
  · subst hg
    simp [Phase.ended, hf]
  · rw [Function.update_of_ne hg]
    exact ⟨rfl, rfl, rfl, rfl, rfl, rfl⟩

theorem life_run (hf : (s.fibers f).phase = .suspended w) (o : Outcome) (k : Bool) :
    (s.run f w o k).life = s.life := by
  refine life_ext (fun g => ?_) rfl (released_append (l := [.resume f w o]) rfl (by simp [Event.releases]))
  rw [State.run_fibers]
  by_cases hg : g = f
  · subst hg
    cases k <;> simp [Phase.ended, hf]
  · rw [Function.update_of_ne hg]
    exact ⟨rfl, rfl, rfl, rfl, rfl, rfl⟩

/-! The operations that change one. -/

theorem life_record_releases {e : Event} (he : e.releases = some g) :
    (s.record e).life = Function.update s.life g { s.life g with released := true } := by
  funext h
  by_cases hh : h = g
  · subst hh
    simp [State.life, State.released, State.record, he]
  · have hne : some g ≠ some h := fun heq => hh (Option.some.inj heq).symm
    simp [State.life, State.released, State.record, he, hh, hne]

theorem life_setHandle (k : Handle → Handle) :
    (s.setHandle g k).life = Function.update s.life g
      { s.life g with
        attached := (k (s.handles g)).attached, joinInProgress := (k (s.handles g)).joinInProgress } := by
  funext h
  by_cases hh : h = g
  · subst hh
    simp [State.life, State.released, State.setHandle]
  · simp [State.life, State.released, State.setHandle, hh]

theorem life_setFiber_update (k : Fiber → Fiber) :
    (s.setFiber g k).life = Function.update s.life g
      { s.life g with
        kind := (k (s.fibers g)).kind, listed := (k (s.fibers g)).listed, joiner := (k (s.fibers g)).joiner
        status := (k (s.fibers g)).status, userHandle := (k (s.fibers g)).userHandle
        ended := (k (s.fibers g)).phase.ended } := by
  funext h
  by_cases hh : h = g
  · subst hh
    simp [State.life, State.released, State.setFiber]
  · simp [State.life, State.released, State.setFiber, hh]

theorem State.hasHandle_iff : s.hasHandle g = true ↔
    g < s.fiberCount ∧ (s.fibers g).kind = .spawned ∧ (s.handles g).collected = false := by
  simp [State.hasHandle, and_assoc]

theorem lifeChange_fiberJoin {a : Action} (hf : (s.fibers f).phase = .running) (hg : s.hasHandle g = true) :
    LifeChange s (s.fiberJoin f g) a := by
  obtain ⟨hlt, hkind, -⟩ := State.hasHandle_iff.mp hg
  unfold State.fiberJoin
  split
  · exact .same (life_record rfl) rfl
  · split
    · exact .same rfl rfl
    · rename_i hguard
      push Not at hguard
      simp only [ne_eq, Bool.not_eq_false, Bool.not_eq_true] at hguard
      obtain ⟨hattached, hidle⟩ := hguard
      split
      · exact .same rfl rfl
      · rename_i hne
        split
        · rename_i hlive
          refine .step g none _ (.join f hkind hattached hidle hlive) nofun ?_ rfl hlt
          rw [life_suspend, life_setHandle, life_setFiber_update]
          · simp [State.life, State.setFiber, State.released]
          · simp only [State.setHandle, State.setFiber, Function.update_of_ne (Ne.symm hne)]
            exact hf
        · rename_i ok hstatus
          refine .step g none _ (.take ok hkind hattached hstatus) nofun ?_ rfl hlt
          rw [life_record_releases (g := g) rfl, life_setHandle, State.unlist, life_setFiber_update]
          simp [State.life, State.setFiber, State.released]

theorem lifeChange_fiberDetach {a : Action} (hg : s.hasHandle g = true) : LifeChange s (s.fiberDetach g) a := by
  obtain ⟨hlt, hkind, -⟩ := State.hasHandle_iff.mp hg
  unfold State.fiberDetach
  split
  · exact .same rfl rfl
  · rename_i hguard
    push Not at hguard
    simp only [ne_eq, Bool.not_eq_false, Bool.not_eq_true] at hguard
    obtain ⟨hattached, hidle⟩ := hguard
    split
    · rename_i hlive
      refine .step g none _ (.detach hkind hattached hidle hlive) nofun ?_ rfl hlt
      rw [life_setFiber_update, life_record_releases (g := g) rfl, life_setHandle]
      simp [State.life, State.setHandle, State.record, State.released]
    · rename_i ok hstatus
      refine .step g none _ (.take ok hkind hattached hstatus) nofun ?_ rfl hlt
      rw [State.unlist, life_setFiber_update, life_record_releases (g := g) rfl, life_setHandle]
      simp [State.life, State.setHandle, State.record, State.released]

theorem lifeChange_fiberGc {a : Action} (hg : s.hasHandle g = true)
    (hidle : ¬ ((s.handles g).attached = true ∧ (s.handles g).joinInProgress = true)) :
    LifeChange s (s.fiberGc g) a := by
  obtain ⟨hlt, hkind, -⟩ := State.hasHandle_iff.mp hg
  unfold State.fiberGc
  split
  · rename_i hdetached
    refine .step g none _ (.collect hkind hdetached) nofun ?_ rfl hlt
    rw [life_record_releases (g := g) rfl, life_setHandle]
    simp [State.life, State.released, hdetached]
  · rename_i hattached
    rw [Bool.not_eq_false] at hattached
    have hjip : (s.handles g).joinInProgress = false := by
      by_contra hno
      exact hidle ⟨hattached, by simpa using hno⟩
    split
    · rename_i hlive
      refine .step g none _ (.detach hkind hattached hjip hlive) nofun ?_ rfl hlt
      rw [life_setFiber_update, life_record_releases (g := g) rfl, life_setHandle]
      simp [State.life, State.setHandle, State.record, State.released]
    · rename_i ok hstatus
      refine .step g none _ (.take ok hkind hattached hstatus) nofun ?_ rfl hlt
      rw [State.unlist, life_setFiber_update, life_record_releases (g := g) rfl, life_setHandle]
      simp [State.life, State.setHandle, State.record, State.released]

theorem life_addFiber {x : Fiber} {y : Life}
    (hx : (s.addFiber x).life s.fiberCount = { y with released := s.released s.fiberCount }) :
    (s.addFiber x).life = Function.update s.life s.fiberCount { y with released := s.released s.fiberCount } := by
  funext h
  by_cases hh : h = s.fiberCount
  · subst hh
    rw [Function.update_self, hx]
  · simp [State.life, State.addFiber, State.released, hh]

theorem lifeChange_spawn {a : Action} : LifeChange s s.spawn a := by
  refine .fresh .spawned (.inl rfl) ?_ rfl
  rw [State.spawn, life_post]
  refine life_addFiber ?_
  simp [State.life, State.addFiber, Life.spawned, Fiber.spawned, Fiber.off, Phase.ended, State.released]

theorem lifeChange_importModule {a : Action} (hf : (s.fibers f).phase = .running) (hlt : f < s.fiberCount) :
    LifeChange s (s.importModule f) a := by
  refine .fresh (.module f) (.inr ⟨f, rfl⟩) ?_ rfl
  rw [State.importModule, life_suspend, life_post]
  · refine life_addFiber ?_
    simp [State.life, State.addFiber, Life.module, Fiber.module, Fiber.off, Phase.ended, State.released]
  · simp only [State.post, State.addFiber, Function.update_of_ne (Nat.ne_of_lt hlt)]
    exact hf

/-- A fiber that is waited for has not ended. -/
theorem Fiber.mem_waiter {x : Fiber} (h : f ∈ x.waiter) : x.joiner = .fiber f ∧ x.phase.ended = none := by
  unfold Fiber.waiter at h
  split at h
  · cases h
  all_goals
    unfold Joiner.toList at h
    split at h
    · rename_i hphase _ g hjoiner
      rw [List.mem_singleton] at h
      exact ⟨h ▸ hjoiner, by rw [hphase]; rfl⟩
    all_goals cases h

theorem Coherent.waited_lt (h : Coherent s) (hf : f ∈ s.at (.joiner g)) : g < s.fiberCount := by
  refine (h g).lt_fiberCount fun ok hok => ?_
  have hended := (Fiber.mem_waiter hf).2
  rw [hok] at hended
  cases hended

/-- Fiber `g` has been told of an interruption. -/
def State.mark (s : State) (g : FiberId) : State :=
  (s.setFiber g fun x => { x with interrupted := true }).record (.interrupt g)

theorem State.mark_fibers (s : State) (g : FiberId) :
    (s.mark g).fibers = Function.update s.fibers g { s.fibers g with interrupted := true } := rfl

theorem life_mark (s : State) (g : FiberId) : (s.mark g).life = s.life := by
  rw [State.mark, life_record rfl]
  exact life_setFiber ⟨rfl, rfl, rfl, rfl, rfl, rfl⟩

theorem fiberInterrupt_cases (hs : s.fiberInterrupt f g = .ok s') :
    ((s.handles g).attached = false ∧ s' = s) ∨
    ((s.handles g).attached = true ∧ g = f ∧ s' = s.mark g) ∨
    ((s.handles g).attached = true ∧ g ≠ f ∧
      ∃ t, (s.mark g).interrupterCall g (s.fibers g).interrupter = .ok t ∧
        s' = t.setFiber g fun x => { x with interrupter := .none }) := by
  unfold State.fiberInterrupt at hs
  split at hs
  · rename_i hattached
    exact .inl ⟨hattached, (Except.ok.inj hs).symm⟩
  · rename_i hattached
    rw [Bool.not_eq_false] at hattached
    simp only at hs
    split at hs
    · rename_i hg
      exact .inr (.inl ⟨hattached, hg, (Except.ok.inj hs).symm⟩)
    · rename_i hg
      have hi : ((s.mark g).fibers g).interrupter = (s.fibers g).interrupter := by
        rw [State.mark_fibers, Function.update_self]
      refine .inr (.inr ⟨hattached, hg, ?_⟩)
      change (s.mark g).interrupterCall g ((s.mark g).fibers g).interrupter >>= _ = _ at hs
      rw [hi] at hs
      cases hcall : (s.mark g).interrupterCall g (s.fibers g).interrupter with
      | error e =>
          rw [hcall] at hs
          cases hs
      | ok t =>
          rw [hcall] at hs
          exact ⟨t, rfl, (Except.ok.inj hs).symm⟩

theorem lifeChange_fiberInterrupt {a : Action} (h : Coherent s) (hs : s.fiberInterrupt f g = .ok s') :
    LifeChange s s' a := by
  have hclear : ∀ t : State, (t.setFiber g fun x => { x with interrupter := .none }).life = t.life :=
    fun t => life_setFiber ⟨rfl, rfl, rfl, rfl, rfl, rfl⟩
  have hmark := life_mark s g
  rcases fiberInterrupt_cases hs with ⟨-, rfl⟩ | ⟨-, -, rfl⟩ | ⟨-, -, t, ht, rfl⟩
  · exact .same rfl rfl
  · exact .same hmark rfl
  · cases hint : (s.fibers g).interrupter with
    | none =>
        rw [hint] at ht
        cases ht
        exact .same ((hclear _).trans hmark) rfl
    | queue q =>
        rw [hint] at ht
        simp only [State.interrupterCall] at ht
        split at ht <;> cases ht
        · exact .same (((hclear _).trans (life_post ..)).trans hmark) rfl
        · exact .same ((hclear _).trans hmark) rfl
    | join h' =>
        rw [hint] at ht
        cases ht
        have hmem := (h g).joining h' hint
        obtain ⟨hjoiner, hlive⟩ := Fiber.mem_waiter hmem
        refine .step h' none _ (.leave g hjoiner hlive) nofun ?_ rfl (h.waited_lt hmem)
        rw [hclear, life_post, life_setHandle, life_setFiber_update, hmark]
        have hlife : (s.mark g).life h' = s.life h' := congrFun hmark h'
        simp only [State.life] at hlife
        simp [State.life, State.setFiber, State.released]
        simp_all
    | signal | pipe o | send =>
        rw [hint] at ht
        cases ht
        exact .same ((hclear _).trans hmark) rfl
    | receive =>
        rw [hint] at ht
        simp only [State.interrupterCall] at ht
        split at ht <;> cases ht
        exact .same (((hclear _).trans (life_post ..)).trans hmark) rfl

/-- Fiber `f` runs no more. -/
def State.stop (s : State) (f : FiberId) (ok : Bool) : State :=
  { s.setFiber f fun x => { x with phase := .finished ok } with current := none }

/-- The result of `f` goes to the fiber that waits for it. -/
def State.release (s : State) (f : FiberId) (ok : Bool) : State :=
  let s := (s.setFiber f fun x => { x with status := some ok }).record (.joined f)
  if (s.fibers f).userHandle then s.setHandle f fun h => { h with attached := false } else s

theorem State.stop_fibers (s : State) (f : FiberId) (ok : Bool) :
    (s.stop f ok).fibers = Function.update s.fibers f { s.fibers f with phase := .finished ok } := rfl

theorem State.release_fibers (s : State) (f : FiberId) (ok : Bool) :
    (s.release f ok).fibers = Function.update s.fibers f { s.fibers f with status := some ok } := by
  unfold State.release
  simp only
  split <;> rfl

theorem fiberEpilogue_eq (s : State) (f : FiberId) (ok : Bool) :
    s.fiberEpilogue f ok =
      match (s.fibers f).joiner with
      | .detached =>
          if (s.fibers f).kind = .main ∧ ok = false then .ok { s.stop f ok with valid := false }
          else .ok ((s.stop f ok).unlist f)
      | .nil => .ok ((s.stop f ok).setFiber f fun x => { x with status := some ok })
      | .fiber g =>
          match (((s.stop f ok).release f ok).fibers g).phase with
          | .suspended w => .ok (((s.stop f ok).release f ok).run g w (.joined ok) false)
          | _ => .error .notSuspended := by
  have hjoiner : ((s.stop f ok).fibers f).joiner = (s.fibers f).joiner := by
    rw [State.stop_fibers, Function.update_self]
  have hkind : ((s.stop f ok).fibers f).kind = (s.fibers f).kind := by
    rw [State.stop_fibers, Function.update_self]
  rw [← hjoiner, ← hkind]
  rfl

theorem fiberEpilogue_cases {ok : Bool} (hs : s.fiberEpilogue f ok = .ok s') :
    ((s.fibers f).joiner = .detached ∧ (s.fibers f).kind = .main ∧ ok = false ∧
      s' = { s.stop f ok with valid := false }) ∨
    ((s.fibers f).joiner = .detached ∧ ((s.fibers f).kind = .main → ok = true) ∧ s' = (s.stop f ok).unlist f) ∨
    ((s.fibers f).joiner = .nil ∧ s' = (s.stop f ok).setFiber f fun x => { x with status := some ok }) ∨
    (∃ g w, (s.fibers f).joiner = .fiber g ∧ (((s.stop f ok).release f ok).fibers g).phase = .suspended w ∧
      s' = ((s.stop f ok).release f ok).run g w (.joined ok) false) := by
  rw [fiberEpilogue_eq] at hs
  cases hj : (s.fibers f).joiner with
  | detached =>
      simp only [hj] at hs
      split at hs
      · rename_i hmain
        exact .inl ⟨rfl, hmain.1, hmain.2, (Except.ok.inj hs).symm⟩
      · rename_i hmain
        exact .inr (.inl ⟨rfl, by simpa using hmain, (Except.ok.inj hs).symm⟩)
  | nil =>
      simp only [hj] at hs
      exact .inr (.inr (.inl ⟨rfl, (Except.ok.inj hs).symm⟩))
  | fiber g =>
      simp only [hj] at hs
      split at hs
      · rename_i w hw
        exact .inr (.inr (.inr ⟨g, w, rfl, hw, (Except.ok.inj hs).symm⟩))
      all_goals cases hs

theorem life_stop (s : State) (f : FiberId) (ok : Bool) :
    (s.stop f ok).life = Function.update s.life f { s.life f with ended := some ok } :=
  life_setFiber_update (s := s) (g := f) fun x => { x with phase := .finished ok }

theorem life_release (s : State) (f : FiberId) (ok : Bool) :
    (s.release f ok).life = Function.update s.life f
      { s.life f with
        status := some ok, released := true
        attached := if (s.fibers f).userHandle then false else (s.life f).attached } := by
  have hfib : ((s.setFiber f fun x => { x with status := some ok }).record (.joined f)).fibers f =
      { s.fibers f with status := some ok } := by
    simp [State.record, State.setFiber]
  unfold State.release
  simp only [hfib]
  split
  · rw [life_setHandle, life_record_releases (g := f) rfl, life_setFiber_update]
    simp [State.life, State.setFiber, State.record, State.released]
  · rw [life_record_releases (g := f) rfl, life_setFiber_update]
    simp [State.life, State.released]

theorem lifeChange_finish {ok : Bool} (hf : (s.fibers f).phase = .running) (hcur : s.current = some f)
    (hlt : f < s.fiberCount) (hs : s.fiberEpilogue f ok = .ok s') : LifeChange s s' (.finish ok) := by
  have hlive : (s.life f).ended = none := by simp [State.life, hf, Phase.ended]
  have hend : ∀ b, some ok = some b → Action.finish ok = .finish b ∧ s.current = some f := by
    intro b hb
    exact ⟨by rw [Option.some.inj hb], hcur⟩
  rcases fiberEpilogue_cases hs with ⟨-, -, -, rfl⟩ | ⟨hj, hmain, rfl⟩ | ⟨hj, rfl⟩ | ⟨g, w, hj, hw, rfl⟩
  · exact .halt rfl rfl
  · refine .step f (some ok) _ (.endDetached ok hlive hj hmain) hend ?_ rfl hlt
    rw [State.unlist, life_setFiber_update, life_stop]
    simp [State.life, State.stop, State.setFiber, Phase.ended]
  · refine .step f (some ok) _ (.endNil ok hlive hj) hend ?_ rfl hlt
    rw [life_setFiber_update, life_stop]
    simp [State.life, State.stop, State.setFiber, Phase.ended]
  · refine .step f (some ok) _ (.endJoined ok g hlive hj) hend ?_ ?_ hlt
    · rw [life_run hw, life_release, life_stop]
      by_cases hu : (s.fibers f).userHandle = true <;> simp [State.life, State.stop, State.setFiber, hu]
    · unfold State.run State.release
      simp only
      split <;> rfl

/-- The lives change as `Life.Step` says. -/
theorem call_life {a : Action} (h : Coherent s) (hcur : s.current = some f) (hs : call s f a = .ok s') :
    LifeChange s s' a := by
  have hf : (s.fibers f).phase = .running := (h f).running.mpr hcur
  have hlt : f < s.fiberCount := (h f).lt_fiberCount (by simp [hf])
  cases a with
  | mutexLock m =>
      cases hs
      unfold State.mutexLock
      split
      · exact .same (life_suspend hf _ _) rfl
      · exact .same rfl rfl
  | mutexTryLock m =>
      cases hs
      unfold State.mutexTryLock
      split <;> exact .same rfl rfl
  | mutexUnlock m =>
      cases hs
      unfold State.mutexUnlock
      split
      · exact .same rfl rfl
      · split
        · exact .same rfl rfl
        · exact .same ((life_record rfl).trans ((life_setHolders ..).trans (life_post ..))) rfl
  | recursiveMutexLock m =>
      cases hs
      unfold State.recursiveMutexLock
      split
      · exact .same rfl rfl
      · split
        · split <;> exact .same rfl rfl
        · exact .same (life_suspend hf _ _) rfl
  | recursiveMutexTryLock m =>
      cases hs
      unfold State.recursiveMutexTryLock
      repeat' split
      all_goals exact .same rfl rfl
  | recursiveMutexUnlock m =>
      cases hs
      unfold State.recursiveMutexUnlock
      repeat' split
      case h_2 => exact .same (life_post ..) rfl
      all_goals exact .same rfl rfl
  | condWait c m =>
      cases hs
      unfold State.condWait
      split
      · exact .same rfl rfl
      · split
        · exact .same (life_record rfl) rfl
        · unfold State.condUnlock
          split
          · exact .same (life_suspend hf _ _) rfl
          · refine .same ((life_suspend ?_ _ _).trans ?_) rfl
            · exact hf
            · exact (life_record rfl).trans ((life_setHolders ..).trans (life_post ..))
  | condNotifyOne c =>
      cases hs
      unfold State.condNotifyOne
      split
      · exact .same rfl rfl
      · exact .same (life_post ..) rfl
  | condNotifyAll c =>
      cases hs
      exact .same (life_wakeAll ..) rfl
  | futureGet p =>
      cases hs
      unfold State.futureGet
      split
      · exact .same (life_record rfl) rfl
      · split
        · exact .same (life_record rfl) rfl
        · exact .same (life_record rfl) rfl
        · exact .same (life_record rfl) rfl
        · exact .same (life_suspend hf _ _) rfl
  | promiseSetValue p ref =>
      simp only [call] at hs
      split at hs <;> cases hs
      unfold State.promiseSetValue
      split
      · exact .same rfl rfl
      · exact .same ((life_record rfl).trans (life_wakeAll ..)) rfl
  | promiseSetError p ref =>
      simp only [call] at hs
      split at hs <;> cases hs
      unfold State.promiseSetError
      split
      · exact .same rfl rfl
      · exact .same ((life_record rfl).trans (life_wakeAll ..)) rfl
  | promiseGc p =>
      simp only [call] at hs
      split at hs <;> cases hs
      exact .same ((life_record rfl).trans (life_wakeAll ..)) rfl
  | spawn =>
      cases hs
      exact lifeChange_spawn
  | importModule =>
      simp only [call] at hs
      split at hs <;> cases hs
      exact lifeChange_importModule hf hlt
  | fiberJoin g =>
      simp only [call] at hs
      split at hs <;> cases hs
      rename_i hg
      exact lifeChange_fiberJoin hf hg
  | fiberDetach g =>
      simp only [call] at hs
      split at hs <;> cases hs
      rename_i hg
      exact lifeChange_fiberDetach hg
  | fiberGc g =>
      simp only [call] at hs
      split at hs <;> cases hs
      rename_i hg
      exact lifeChange_fiberGc hg.1 hg.2
  | fiberInterrupt g =>
      simp only [call] at hs
      split at hs
      · exact lifeChange_fiberInterrupt h hs
      · cases hs
  | finish ok => exact lifeChange_finish hf hcur hlt hs
  | thisFiberYield =>
      cases hs
      unfold State.thisFiberYield
      split
      · exact .same (life_record rfl) rfl
      · refine .same ((life_suspend ?_ _ _).trans (life_post ..)) rfl
        exact hf
  | sleepFor | steadyTimerWait o | streamReadSome o | pipeReadSome o =>
      cases hs
      simp only [State.sleepFor, State.steadyTimerWait, State.streamReadSome, State.pipeReadSome, State.startOp]
      split
      · exact .same (life_record rfl) rfl
      · exact .same (life_suspend hf _ _) rfl
  | cancel o =>
      cases hs
      exact .same rfl rfl
  | chanReceive queued =>
      cases hs
      unfold State.chanReceive
      split
      · exact .same (life_record rfl) rfl
      · split
        · exact .same rfl rfl
        · exact .same (life_suspend hf _ _) rfl
  | inboxClose =>
      cases hs
      unfold State.inboxClose
      split
      · exact .same rfl rfl
      · split
        · exact .same rfl rfl
        · rename_i r _
          have hpost := life_post (s := s.setReceiver none) r (.outcome .channelClosed) false
          exact .same hpost rfl
  | chanSend =>
      cases hs
      unfold State.chanSend
      split
      · exact .same (life_record rfl) rfl
      · exact .same (life_suspend hf _ _) rfl
  | disableInterruption | restoreInterruption =>
      cases hs
      exact .same (life_setFiber ⟨rfl, rfl, rfl, rfl, rfl, rfl⟩) rfl
  | runHandler | complete _ _ | deliver _ | answer _ _ => cases hs

/-- The actions of the running fiber, and those that are not its own. -/
theorem exec_cases {a : Action} (hs : exec s a = .ok s') :
    s.valid = true ∧
    ((∃ f, s.current = some f ∧ call s f a = .ok s') ∨
    (∃ i ec, a = .complete i ec ∧ s.complete i ec = .ok s') ∨
    (∃ i o, a = .answer i o ∧ s.answer i o = .ok s') ∨
    (∃ p ps, a = .runHandler ∧ s.current = none ∧ s.strand = p :: ps ∧
      { s with strand := ps }.fiberResume p = .ok s') ∨
    (∃ o, a = .deliver o ∧ s.current = none ∧ s.deliver o = .ok s')) := by
  unfold exec at hs
  split at hs
  · cases hs
  · rename_i hvalid
    refine ⟨by simpa using hvalid, ?_⟩
    split at hs
    · exact .inr (.inl ⟨_, _, rfl, hs⟩)
    · exact .inr (.inr (.inl ⟨_, _, rfl, hs⟩))
    · split at hs
      · rename_i p ps hcur hstrand
        exact .inr (.inr (.inr (.inl ⟨p, ps, rfl, hcur, hstrand, hs⟩)))
      · cases hs
    · split at hs
      · rename_i hcur
        exact .inr (.inr (.inr (.inr ⟨_, rfl, hcur, hs⟩)))
      · cases hs
    · split at hs
      · cases hs
      · rename_i f hcur
        exact .inl ⟨f, hcur, hs⟩

theorem complete_cases {i : Nat} {ec : Outcome} (hs : s.complete i ec = .ok s') :
    ∃ x, s.ops[i]? = some x ∧ (ec = .done ∨ ec = .failed ∨ (ec = .aborted ∧ x.cancelled = true)) ∧
      s' = (s.setOps (s.ops.eraseIdx i)).post x.fiber (.io ec x.fast) false := by
  unfold State.complete at hs
  split at hs
  · cases hs
  · rename_i x hx
    split at hs
    · rename_i hec
      exact ⟨x, hx, hec, (Except.ok.inj hs).symm⟩
    · cases hs

theorem answer_cases {i : Nat} {o : Outcome} (hs : s.answer i o = .ok s') :
    ∃ x, s.sends[i]? = some x ∧ (o = .done ∨ o = .channelClosed ∨ (o = .interrupted ∧ x.2 = true)) ∧
      s' = (s.setSends (s.sends.eraseIdx i)).post x.1 (.outcome o) false := by
  unfold State.answer at hs
  split at hs
  · cases hs
  · rename_i x hx
    split at hs
    · rename_i ho
      exact ⟨x, hx, ho, (Except.ok.inj hs).symm⟩
    · cases hs

theorem fiberResume_cases {p : Post} (hs : s.fiberResume p = .ok s') :
    ∃ w, (s.fibers p.fiber).phase = .suspended w ∧
      s' = s.run p.fiber w (p.args.read (s.fibers p.fiber).interrupted) p.skipClear := by
  unfold State.fiberResume at hs
  split at hs
  · rename_i w hw
    exact ⟨w, hw, (Except.ok.inj hs).symm⟩
  · cases hs

theorem deliver_cases {o : Outcome} (hs : s.deliver o = .ok s') :
    ∃ r w, s.recvFiber = some r ∧ (s.fibers r).phase = .suspended w ∧ (o = .done ∨ o = .noSenders) ∧
      s' = (s.setReceiver none).run r w o false := by
  unfold State.deliver at hs
  split at hs
  · cases hs
  · rename_i r hr
    split at hs
    · rename_i w hw
      split at hs
      · rename_i ho
        exact ⟨r, w, hr, hw, ho, (Except.ok.inj hs).symm⟩
      · cases hs
    · cases hs

theorem exec_life {a : Action} (h : Coherent s) (hs : exec s a = .ok s') : LifeChange s s' a := by
  obtain ⟨-, ⟨f, hcur, hcall⟩ | ⟨i, ec, -, hs⟩ | ⟨i, o, -, hs⟩ | ⟨p, ps, -, -, -, hs⟩ | ⟨o, -, -, hs⟩⟩ :=
    exec_cases hs
  · exact call_life h hcur hcall
  · obtain ⟨x, -, -, rfl⟩ := complete_cases hs
    exact .same (life_post ..) rfl
  · obtain ⟨x, -, -, rfl⟩ := answer_cases hs
    exact .same (life_post ..) rfl
  · obtain ⟨w, hw, rfl⟩ := fiberResume_cases hs
    exact .same (life_run hw _ _) rfl
  · obtain ⟨r, w, -, hw, -, rfl⟩ := deliver_cases hs
    refine .same (life_run ?_ _ _) rfl
    exact hw

theorem exec_fiberCount {a : Action} (h : Coherent s) (hs : exec s a = .ok s') : s.fiberCount ≤ s'.fiberCount := by
  cases exec_life h hs with
  | same _ hcount | step _ _ _ _ _ _ hcount _ | fresh _ _ _ hcount | halt _ hcount => omega

/-- Every spawned fiber. -/
def AllBound (s : State) : Prop := ∀ g < s.fiberCount, (s.life g).kind = .spawned → (s.life g).Bound

theorem exec_bound {a : Action} (h : Coherent s) (hb : AllBound s) (hs : exec s a = .ok s') (hvalid : s'.valid = true) :
    AllBound s' := by
  intro g hg hkind
  cases exec_life h hs with
  | same hlife hcount =>
      rw [hlife] at hkind ⊢
      exact hb g (hcount ▸ hg) hkind
  | step g' e x hstep hend hlife hcount hlt =>
      rw [hlife] at hkind ⊢
      by_cases hgg : g = g'
      · subst hgg
        rw [Function.update_self] at hkind ⊢
        exact hstep.bound (hb g hlt (hstep.kind ▸ hkind))
      · rw [Function.update_of_ne hgg] at hkind ⊢
        exact hb g (hcount ▸ hg) hkind
  | fresh x hx hlife hcount =>
      rw [hlife] at hkind ⊢
      by_cases hgg : g = s.fiberCount
      · subst hgg
        rw [Function.update_self] at hkind ⊢
        rcases hx with rfl | ⟨f, rfl⟩
        · exact ⟨fun _ => rfl, fun _ => nofun, nofun⟩
        · cases hkind
      · rw [Function.update_of_ne hgg] at hkind ⊢
        exact hb g (by omega) hkind
  | halt hno _ =>
      rw [hno] at hvalid
      cases hvalid

end

end Emilua.Sched
