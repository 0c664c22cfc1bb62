import Emilua.Sched.Resumes

/-!
The entries of `fiber_list`. A fiber that is not spawned stays there; a spawned
one until it has ended and its result has been joined, detached or collected.
Two ends of a fiber do otherwise: the main fiber is removed when it returns,
and a fiber that ends while another waits for it is not removed at all.
-/
namespace Emilua.Sched
open Transition

/-- The running fiber is the main one and returns, or is spawned and ends while
it is waited for. -/
def forgets (s : State) : Action → Bool
  | .finish ok =>
      match s.current with
      | none => false
      | some f =>
          match (s.fibers f).kind, (s.fibers f).joiner with
          | .main, _ => ok
          | .spawned, .fiber _ => true
          | _, _ => false
  | _ => false

/-- The fibers that belong in `fiber_list`. -/
def State.retains (s : State) (f : FiberId) : Prop :=
  f < s.fiberCount ∧ ((s.fibers f).kind ≠ .spawned ∨ (s.fibers f).phase.ended = none ∨ s.released f = false)

/-- The entry of a fiber is there exactly as long as it should be. -/
structure Life.Kept (x : Life) : Prop where
  main : x.kind = .main → x.listed = true ∧ x.joiner = .detached
  module : x.kind = .module → x.listed = true ∧ x.joiner ≠ .detached
  async : x.kind = .async → x.listed = true ∧ x.ended ≠ none
  attached : x.kind = .spawned → x.attached = !x.released
  listed : x.kind = .spawned → x.listed = (x.ended.isNone || x.attached)
  nil : x.kind = .spawned → x.joiner = .nil → x.ended = none → x.attached = true

/-- Steps other than the two that forget to keep the entry right. -/
theorem Life.Step.kept {x y : Life} {e : Option Bool} (hb : x.kind = .spawned → x.Bound) (hx : x.Kept)
    (h : x.Step e y) (hmain : ∀ ok, e = some ok → x.kind = .main → ok = false)
    (hjoined : ∀ ok f, e = some ok → x.kind = .spawned → x.joiner ≠ .fiber f) : y.Kept := by
  cases h with
  | join f hkind hattached hidle hlive =>
      exact ⟨fun hk => absurd (hkind.symm.trans hk) nofun, fun hk => absurd (hkind.symm.trans hk) nofun,
        hx.async, hx.attached, hx.listed, fun _ => nofun⟩
  | leave f hjoiner hlive =>
      refine ⟨fun hk => ?_, fun hk => ⟨(hx.module hk).1, nofun⟩, hx.async, hx.attached, hx.listed, fun hk _ _ => ?_⟩
      · exact absurd (hjoiner.symm.trans (hx.main hk).2) nofun
      · exact ((hb hk).joined f hjoiner hlive).1
  | take ok hkind hattached hstatus =>
      have hended := (hb hkind).status hattached
      rw [hstatus] at hended
      refine ⟨fun hk => absurd (hkind.symm.trans hk) nofun, fun hk => absurd (hkind.symm.trans hk) nofun,
        fun hk => absurd (hkind.symm.trans hk) nofun, fun _ => rfl, fun _ => ?_, fun _ _ hno => ?_⟩
      · simp [← hended]
      · exact absurd (hended.trans hno) nofun
  | detach hkind hattached hidle hlive =>
      have hended := (hb hkind).status hattached
      rw [hlive] at hended
      refine ⟨fun hk => absurd (hkind.symm.trans hk) nofun, fun hk => absurd (hkind.symm.trans hk) nofun,
        fun hk => absurd (hkind.symm.trans hk) nofun, fun _ => rfl, fun hk => ?_, fun _ => nofun⟩
      have hlisted := hx.listed hk
      rw [hlisted]
      simp [← hended]
  | collect hkind hdetached =>
      refine ⟨hx.main, hx.module, hx.async, fun hk => ?_, hx.listed, hx.nil⟩
      exact hdetached.trans rfl
  | endDetached ok hlive hjoiner hmain' =>
      refine ⟨fun hk => ?_, fun hk => absurd hjoiner (hx.module hk).2, fun hk => absurd hlive (hx.async hk).2,
        hx.attached, fun hk => ?_, fun _ _ hno => absurd hno nofun⟩
      · exact absurd ((hmain ok rfl hk).symm.trans (hmain' hk)) nofun
      · have hattached : x.attached = false := by
          by_contra hno
          exact (hb hk).joiner (by simpa using hno) hjoiner
        simp [hattached]
  | endNil ok hlive hjoiner =>
      refine ⟨fun hk => absurd (hjoiner.symm.trans (hx.main hk).2) nofun, hx.module,
        fun hk => absurd hlive (hx.async hk).2, hx.attached, fun hk => ?_, fun _ _ hno => absurd hno nofun⟩
      have hlisted := hx.listed hk
      rw [hlisted, hx.nil hk hjoiner hlive]
      simp
  | endJoined ok f hlive hjoiner =>
      refine ⟨fun hk => absurd (hjoiner.symm.trans (hx.main hk).2) nofun, hx.module,
        fun hk => absurd hlive (hx.async hk).2, fun hk => ?_, fun hk => ?_, fun _ _ hno => absurd hno nofun⟩
      · exact absurd hjoiner (hjoined ok f rfl hk)
      · exact absurd hjoiner (hjoined ok f rfl hk)

theorem Life.kept_spawned : Life.spawned.Kept :=
  ⟨nofun, nofun, nofun, fun _ => rfl, fun _ => rfl, fun _ _ _ => rfl⟩

theorem Life.kept_module (f : FiberId) : (Life.module f).Kept :=
  ⟨nofun, fun _ => ⟨rfl, nofun⟩, nofun, nofun, nofun, nofun⟩

section
variable {s s' : State} {f g : FiberId}

structure AllKept (s : State) : Prop where
  kept : ∀ g < s.fiberCount, (s.life g).Kept
  unborn : ∀ g, s.fiberCount ≤ g → (s.life g).listed = false ∧ (s.life g).released = false

theorem not_forgets_finish {ok : Bool} (h : forgets s (.finish ok) = false) (hf : s.current = some f) :
    ((s.fibers f).kind = .main → ok = false) ∧
      ∀ g, (s.fibers f).kind = .spawned → (s.fibers f).joiner ≠ .fiber g := by
  simp only [forgets, hf] at h
  constructor
  · intro hkind
    rw [hkind] at h
    exact h
  · intro g hkind hjoiner
    rw [hkind, hjoiner] at h
    cases h

theorem exec_kept {a : Action} (h : Sound s) (hk : AllKept s) (hok : forgets s a = false) (hs : exec s a = .ok s')
    (hvalid : s'.valid = true) : AllKept s' := by
  have hb := h.bound (exec_cases hs).1
  cases exec_life h.coherent hs with
  | same hlife hcount =>
      constructor
      · rw [hlife, hcount]
        exact hk.kept
      · rw [hlife, hcount]
        exact hk.unborn
  | step g e x hstep hend hlife hcount hlt =>
      have hkept : x.Kept := by
        refine hstep.kept (hb g hlt) (hk.kept g hlt) (fun ok he => ?_) fun ok g' he => ?_
        · obtain ⟨rfl, hcur⟩ := hend ok he
          exact (not_forgets_finish hok hcur).1
        · obtain ⟨rfl, hcur⟩ := hend ok he
          exact (not_forgets_finish hok hcur).2 g'
      constructor
      · intro g' hg'
        rw [hlife]
        by_cases hgg : g' = g
        · rw [hgg, Function.update_self]
          exact hkept
        · rw [Function.update_of_ne hgg]
          exact hk.kept g' (hcount ▸ hg')
      · intro g' hg'
        rw [hcount] at hg'
        have hgg : g' ≠ g := (hlt.trans_le hg').ne'
        rw [hlife, Function.update_of_ne hgg]
        exact hk.unborn g' hg'
  | fresh x hx hlife hcount =>
      have hreleased : s.released s.fiberCount = false := (hk.unborn s.fiberCount le_rfl).2
      have hkept : ({ x with released := s.released s.fiberCount } : Life).Kept := by
        rw [hreleased]
        rcases hx with rfl | ⟨f, rfl⟩
        · exact Life.kept_spawned
        · exact Life.kept_module f
      constructor
      · intro g hg
        rw [hlife]
        by_cases hgg : g = s.fiberCount
        · rw [hgg, Function.update_self]
          exact hkept
        · rw [Function.update_of_ne hgg]
          rw [hcount] at hg
          exact hk.kept g (by omega)
      · intro g hg
        have hgg : g ≠ s.fiberCount := by omega
        rw [hlife, Function.update_of_ne hgg]
        exact hk.unborn g (by omega)
  | halt hno _ =>
      rw [hno] at hvalid
      cases hvalid

theorem kept_initial : AllKept State.initial where
  kept g hg := by
    have hg' : g = 0 ∨ g = 1 := by
      have hlt : g < 2 := hg
      omega
    rcases hg' with rfl | rfl
    · exact ⟨fun _ => ⟨rfl, rfl⟩, nofun, nofun, nofun, nofun, nofun⟩
    · exact ⟨nofun, nofun, fun _ => ⟨rfl, nofun⟩, nofun, nofun, nofun⟩
  unborn g hg := by
    have hg' : 2 ≤ g := hg
    have h0 : g ≠ 0 := by omega
    have h1 : g ≠ 1 := by omega
    refine ⟨?_, rfl⟩
    simp [State.life, State.initial, h0, h1, Fiber.off]

theorem reachable_kept (hs : Reachable Initial (restrict (fun s a => forgets s a = false) Step) s) :
    Sound s ∧ (s.valid = true → AllKept s) := by
  refine hs.invariant (I := fun s => Sound s ∧ (s.valid = true → AllKept s)) ?_ ?_
  · intro s hs
    rw [hs]
    exact ⟨sound_initial, fun _ => kept_initial⟩
  · rintro s a s' ⟨hsound, hkept⟩ ⟨hok, hstep⟩
    exact ⟨step_sound hsound hstep, exec_kept hsound (hkept (exec_cases hstep).1) hok hstep⟩

/-- Where no step forgets to keep `fiber_list`, it holds what belongs there. -/
theorem fiber_list_exact (hs : Reachable Initial (restrict (fun s a => forgets s a = false) Step) s)
    (hvalid : s.valid = true) (f : FiberId) : (s.fibers f).listed = true ↔ s.retains f := by
  obtain ⟨-, hkept⟩ := reachable_kept hs
  unfold State.retains
  by_cases hlt : f < s.fiberCount
  · have hlife := (hkept hvalid).kept f hlt
    cases hkind : (s.fibers f).kind with
    | main =>
        have hlisted : (s.fibers f).listed = true := (hlife.main hkind).1
        simp [hlt, hlisted]
    | module =>
        have hlisted : (s.fibers f).listed = true := (hlife.module hkind).1
        simp [hlt, hlisted]
    | async =>
        have hlisted : (s.fibers f).listed = true := (hlife.async hkind).1
        simp [hlt, hlisted]
    | spawned =>
        have hlisted : (s.fibers f).listed = ((s.fibers f).phase.ended.isNone || (s.handles f).attached) :=
          hlife.listed hkind
        have hattached : (s.handles f).attached = !s.released f := hlife.attached hkind
        rw [hlisted, hattached]
        simp [hlt, Option.isNone_iff_eq_none]
  · have hno := ((hkept hvalid).unborn f (Nat.le_of_not_lt hlt)).1
    have hlisted : (s.fibers f).listed = false := hno
    simp [hlisted, hlt]

/-- Fiber 2 ends and is joined after that; fiber 3 is detached and ends. -/
def joinedAndDetached : List Action :=
  [.runHandler, .spawn, .spawn, .fiberDetach 3, .thisFiberYield, .runHandler, .finish true, .runHandler, .finish false,
    .runHandler, .fiberJoin 2]

theorem fiber_list_exact_joined :
    ∃ s, Reachable Initial (restrict (fun s a => forgets s a = false) Step) s ∧ s.valid = true ∧
      ¬ s.retains 2 ∧ ¬ s.retains 3 ∧ s.retains 0 := by
  have hrun : (runIf exec (fun s a => !forgets s a) State.initial joinedAndDetached).map
      (fun s => (s.valid, (s.fibers 2).listed, (s.fibers 3).listed, (s.fibers 0).listed)) =
        some (true, false, false, true) := by decide +kernel
  obtain ⟨s, hs, hobs⟩ := Option.map_eq_some_iff.mp hrun
  simp only [Prod.mk.injEq] at hobs
  obtain ⟨hvalid, h2, h3, h0⟩ := hobs
  have hreach := reachable_of_runIf ⟨_, initial_self, .refl⟩ hs
  simp only [Bool.not_eq_true'] at hreach
  refine ⟨s, hreach, hvalid, ?_, ?_, ?_⟩
  · rw [← fiber_list_exact hreach hvalid, h2]
    exact nofun
  · rw [← fiber_list_exact hreach hvalid, h3]
    exact nofun
  · rw [← fiber_list_exact hreach hvalid, h0]

/-- The main fiber waits for fiber 2, which returns: the entry of fiber 2 stays
for good. When the main fiber then returns its own entry is removed. -/
theorem fiber_list_forgets :
    ∃ s, Reachable Initial Step s ∧ s.valid = true ∧
      ((s.fibers 2).listed = true ∧ ¬ s.retains 2) ∧ ((s.fibers 0).listed = false ∧ s.retains 0) := by
  have hrun : (runIf exec (fun _ _ => true) State.initial
      [.runHandler, .spawn, .fiberJoin 2, .runHandler, .finish true, .finish true]).map
      (fun s => ([s.valid, (s.fibers 2).listed, (s.fibers 0).listed, s.released 2],
        [(s.fibers 2).kind, (s.fibers 0).kind], (s.fibers 2).phase.ended, s.fiberCount)) =
        some ([true, true, false, true], [.spawned, .main], some true, 3) := by decide +kernel
  obtain ⟨s, hs, hobs⟩ := Option.map_eq_some_iff.mp hrun
  simp only [Prod.mk.injEq, List.cons.injEq, and_true] at hobs
  obtain ⟨⟨hvalid, h2, h0, hreleased⟩, ⟨hkind2, hkind0⟩, hended, hcount⟩ := hobs
  refine ⟨s, (reachable_of_runIf ⟨_, initial_self, .refl⟩ hs).of_restrict, hvalid, ⟨h2, ?_⟩, h0, ?_⟩
  · simp [State.retains, hkind2, hended, hreleased]
  · simp [State.retains, hkind0, hcount]

end

end Emilua.Sched
