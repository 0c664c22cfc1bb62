import Emilua.Sched.Effects

/-!
What `future:get` obtains. Once a promise has been set its future keeps the
result, unless the finalizer of the promise runs: it marks the future as broken
without a look at the state.
-/
namespace Emilua.Sched
open Transition

/-- The finalizer runs for a promise that has been set. -/
def dropsResult (s : State) : Action → Bool
  | .promiseGc p =>
      match s.futures p with
      | .valueReady _ | .errorReady _ => true
      | .empty | .broken => false
  | _ => false

/-- Fiber `f` obtains `o` from the future `p`, at once or when it is resumed. -/
def Event.obtains : Event → Option (FiberId × Nat × Outcome)
  | .get f p o | .resume f (.queue (.future p)) o => some (f, p, o)
  | _ => none

/-- What a getter may obtain after the events `l`. -/
def Warranted (l : List Event) (f : FiberId) (p : Nat) (o : Outcome) : Prop :=
  (o = .interrupted ∧ .interrupt f ∈ l) ∨
  (o = .brokenPromise ∧ .collect p ∈ l ∧ ∀ o', .set p o' ∉ l) ∨
  (o ≠ .brokenPromise ∧ .set p o ∈ l)

structure Kept (s : State) : Prop where
  empty : ∀ p, s.futures p = .empty → (∀ o, .set p o ∉ s.log) ∧ .collect p ∉ s.log
  broken : ∀ p, s.futures p = .broken → .collect p ∈ s.log ∧ (∀ o, .set p o ∉ s.log) ∧ s.promises p = false
  ready : ∀ p o, (s.futures p).outcome = some o → o ≠ .brokenPromise →
    .set p o ∈ s.log ∧ (∀ o', .set p o' ∈ s.log → o' = o) ∧ .collect p ∉ s.log
  pending : ∀ x ∈ s.strand, ∀ p, (s.fibers x.fiber).phase = .suspended (.queue (.future p)) →
    ∃ o, x.args = .outcome o ∧ ((o = .interrupted ∧ .interrupt x.fiber ∈ s.log) ∨ (s.futures p).outcome = some o)
  warranted : ∀ l₁ e l₂, s.log = l₁ ++ e :: l₂ → ∀ f p o, e.obtains = some (f, p, o) → Warranted l₁ f p o

section
variable {s s' : State} {a : Action} {es : List Event} {ps : List Post} {p : Nat}

theorem FutureState.outcome_broken {x : FutureState} (h : x.outcome = some .brokenPromise) : x = .broken := by
  cases x <;> simp_all [FutureState.outcome]

theorem not_dropsResult (h : dropsResult s (.promiseGc p) = false) :
    s.futures p = .empty ∨ s.futures p = .broken := by
  simp only [dropsResult] at h
  split at h
  · cases h
  · cases h
  · exact .inl ‹_›
  · exact .inr ‹_›

/-- What the state of the future warrants. -/
theorem Kept.warranted_of (h : Kept s) {l : List Event} (hlog : ∀ e ∈ s.log, e ∈ l)
    (hset : ∀ o, s.futures p ≠ .empty → .set p o ∈ l → .set p o ∈ s.log) {o : Outcome}
    (ho : (s.futures p).outcome = some o) (f : FiberId) : Warranted l f p o := by
  by_cases hb : o = .brokenPromise
  · subst hb
    have hbroken := FutureState.outcome_broken ho
    obtain ⟨hcollect, hnever, -⟩ := h.broken p hbroken
    refine .inr (.inl ⟨rfl, hlog _ hcollect, fun o' hmem => hnever o' (hset o' ?_ hmem)⟩)
    rw [hbroken]
    exact nofun
  · exact .inr (.inr ⟨hb, hlog _ (h.ready p o ho hb).1⟩)

theorem Effect.set_mem (he : Effect s a s' es ps) {o : Outcome} (hmem : .set p o ∈ s'.log)
    (hno : s.futures p ≠ .empty) : .set p o ∈ s.log := by
  rcases he.emits_mem hmem with hold | hnew
  · exact hold
  · cases hnew with
    | set _ _ hempty => exact absurd hempty hno
    | release _ _ hno => cases hno

theorem Effect.collect_mem (he : Effect s a s' es ps) (hmem : .collect p ∈ s'.log) :
    .collect p ∈ s.log ∨ s'.futures p = .broken := by
  rcases he.emits_mem hmem with hold | hnew
  · exact .inl hold
  · cases hnew with
    | collect _ _ hbroken => exact .inr hbroken
    | release _ _ hno => cases hno

theorem outcome_empty {x : FutureState} {o : Outcome} (h : x.outcome = some o) : x ≠ .empty := by
  rintro rfl
  cases h

/-- The step does not take away what the future holds. -/
theorem Effect.outcome_stays (he : Effect s a s' es ps) (h : Kept s) (hok : dropsResult s a = false) {o : Outcome}
    (ho : (s.futures p).outcome = some o) : (s'.futures p).outcome = some o := by
  cases he.evolves p with
  | same hfuture => rw [hfuture, ho]
  | set _ hempty => exact absurd hempty (outcome_empty ho)
  | collect ha hp =>
      rcases not_dropsResult (ha ▸ hok) with hempty | hbroken
      · exact absurd hempty (outcome_empty ho)
      · have hnot := (h.broken p hbroken).2.2
        rw [hp] at hnot
        cases hnot

theorem kept_pending (hc : Coherent s) (h : Kept s) (hflag : Flagged s') (hok : dropsResult s a = false)
    (he : Effect s a s' es ps) {x : Post} (hx : x ∈ s'.strand)
    (hw : (s'.fibers x.fiber).phase = .suspended (.queue (.future p))) :
    ∃ o, x.args = .outcome o ∧ ((o = .interrupted ∧ .interrupt x.fiber ∈ s'.log) ∨ (s'.futures p).outcome = some o) := by
  have hold : x ∈ s.strand ∨ x ∈ ps := by
    rcases he.strand with hstrand | ⟨y, hstrand, rfl⟩
    · rw [hstrand] at hx
      exact List.mem_append.mp hx
    · rw [hstrand]
      exact .inl (List.mem_cons_of_mem y hx)
  rcases hold with hold | hnew
  · obtain ⟨w, hw₀, -⟩ := (hc x.fiber).of_posted (List.mem_map.mpr ⟨x, hold, rfl⟩)
    have hwait := he.wait_eq hc hw₀ hw
    obtain ⟨o, hargs, ho⟩ := h.pending x hold p (hwait ▸ hw₀)
    refine ⟨o, hargs, ?_⟩
    rcases ho with ⟨hint, hmem⟩ | ho
    · exact .inl ⟨hint, he.log_mem hmem⟩
    · exact .inr (he.outcome_stays h hok ho)
  · cases he.posts x hnew with
    | start =>
        have hstart := he.wait_new hc hw
        cases hstart
    | yield f hf hyield =>
        rw [hyield] at hw
        cases hw
    | wake f q k hf hq =>
        have hplace := he.wait_of_mem hc (l := .queue q) (by simp) hf hw
        cases hplace
        exact absurd rfl (hq p)
    | answer f p' o hf ho =>
        have hplace := he.wait_of_mem hc (l := .queue (.future p')) (by simp) hf hw
        cases hplace
        exact ⟨o, rfl, .inr ho⟩
    | interrupt f hon hyes harmed => exact ⟨.interrupted, rfl, .inl ⟨rfl, (hflag.flag f).mp hyes⟩⟩
    | receiver f g hf | close f hf =>
        have hplace := he.wait_of_mem hc (l := .receive) (by simp) (by simp [State.at, hf]) hw
        cases hplace
    | complete y ec hy hec =>
        have hplace := he.wait_of_mem hc (l := .io) (by simp) (List.mem_map.mpr ⟨y, hy, rfl⟩) hw
        cases hplace
    | send y o hy ho =>
        have hplace := he.wait_of_mem hc (l := .send) (by simp) (List.mem_map.mpr ⟨y, hy, rfl⟩) hw
        cases hplace

/-- An event of the step that obtains something is warranted. -/
theorem warranted_new (h : Kept s) (he : Effect s a s' es ps) {e : Event} {es₁ es₂ : List Event}
    (hes : es = es₁ ++ e :: es₂) {f : FiberId} {o : Outcome} (hobs : e.obtains = some (f, p, o)) :
    Warranted (s.log ++ es₁) f p o := by
  have hlog : ∀ e ∈ s.log, e ∈ s.log ++ es₁ := fun e hmem => List.mem_append_left _ hmem
  have hset : ∀ o, s.futures p ≠ .empty → .set p o ∈ s.log ++ es₁ → .set p o ∈ s.log := by
    intro o hno hmem
    refine he.set_mem ?_ hno
    rw [he.log, hes, ← List.append_assoc]
    exact List.mem_append_left _ hmem
  have hemits := he.emits e (by rw [hes]; simp)
  cases hemits with
  | get f' p' o' ho =>
      simp only [Event.obtains, Option.some.injEq, Prod.mk.injEq] at hobs
      obtain ⟨rfl, rfl, rfl⟩ := hobs
      exact h.warranted_of hlog hset ho f'
  | resume f' w o' hw ho =>
      have hwait : w = .queue (.future p) ∧ f' = f ∧ o' = o := by
        unfold Event.obtains at hobs
        split at hobs
        · cases ‹Event.resume _ _ _ = Event.get _ _ _›
        · cases ‹Event.resume _ _ _ = Event.resume _ _ _›
          cases hobs
          exact ⟨rfl, rfl, rfl⟩
        · cases hobs
      obtain ⟨rfl, rfl, rfl⟩ := hwait
      cases ho with
      | handler _ x rest _ hstrand hx =>
          subst hx
          obtain ⟨o, hargs, ho⟩ := h.pending x (by rw [hstrand]; exact List.mem_cons_self ..) p hw
          rw [hargs]
          rcases ho with ⟨rfl, hmem⟩ | ho
          · exact .inl ⟨rfl, hlog _ hmem⟩
          · exact h.warranted_of hlog hset ho x.fiber
  | release _ _ hrel =>
      cases e <;> simp_all [Event.releases, Event.obtains]
  | _ => cases hobs

theorem exec_kept_futures (hc : Coherent s) (hf : Flagged s) (h : Kept s) (hok : dropsResult s a = false)
    (hs : exec s a = .ok s') : Kept s' := by
  obtain ⟨es, ps, he⟩ := exec_effect hc hs
  have hflag := exec_flagged hc hf hs
  constructor
  · intro p hempty
    have hold : s.futures p = .empty := by
      cases he.evolves p with
      | same hfuture => rw [← hfuture, hempty]
      | set _ _ hfuture =>
          rw [hempty] at hfuture
          cases hfuture
      | collect _ _ hfuture =>
          rw [hempty] at hfuture
          cases hfuture
    obtain ⟨hset, hcollect⟩ := h.empty p hold
    constructor
    · intro o hmem
      rcases he.emits_mem hmem with hmem | hnew
      · exact hset o hmem
      · cases hnew with
        | set _ _ _ _ ho =>
            rw [hempty] at ho
            cases ho
        | release _ _ hno => cases hno
    · intro hmem
      rcases he.collect_mem hmem with hmem | hbroken
      · exact hcollect hmem
      · rw [hempty] at hbroken
        cases hbroken
  · intro p hbroken
    have hnew : ∀ o, .set p o ∈ s'.log → .set p o ∈ s.log := by
      intro o hmem
      rcases he.emits_mem hmem with hmem | hnew
      · exact hmem
      · cases hnew with
        | set _ _ _ _ ho hb =>
            rw [hbroken] at ho
            cases ho
            exact absurd rfl hb
        | release _ _ hno => cases hno
    cases he.evolves p with
    | same hfuture hpromise =>
        obtain ⟨hcollect, hset, hp⟩ := h.broken p (hfuture ▸ hbroken)
        exact ⟨he.log_mem hcollect, fun o hmem => hset o (hnew o hmem), hpromise.trans hp⟩
    | set o _ hfuture hb =>
        rw [hbroken] at hfuture
        cases hfuture
        exact absurd rfl hb
    | collect ha hp _ hpromise hmem =>
        refine ⟨?_, fun o hset => ?_, hpromise⟩
        · rw [he.log]
          exact List.mem_append_right _ hmem
        · rcases not_dropsResult (ha ▸ hok) with hempty | hbroken
          · exact (h.empty p hempty).1 o (hnew o hset)
          · exact (h.broken p hbroken).2.1 o (hnew o hset)
  · intro p o ho hb
    have hcollect : .collect p ∈ s'.log → .collect p ∈ s.log := by
      intro hmem
      rcases he.collect_mem hmem with hold | hbroken
      · exact hold
      · rw [hbroken] at ho
        cases ho
        exact absurd rfl hb
    cases he.evolves p with
    | same hfuture =>
        have ho' : (s.futures p).outcome = some o := by rw [← hfuture, ho]
        obtain ⟨hset, honly, hno⟩ := h.ready p o ho' hb
        refine ⟨he.log_mem hset, fun o' hmem => honly o' (he.set_mem hmem (outcome_empty ho')), fun hmem => hno (hcollect hmem)⟩
    | set o' hempty hfuture _ _ hmem =>
        rw [ho] at hfuture
        cases hfuture
        obtain ⟨hset, hno⟩ := h.empty p hempty
        refine ⟨?_, fun o' hmem' => ?_, fun hmem => hno (hcollect hmem)⟩
        · rw [he.log]
          exact List.mem_append_right _ hmem
        · rcases he.emits_mem hmem' with hold | hnew
          · exact absurd hold (hset o')
          · cases hnew with
            | set _ _ _ _ ho' =>
                rw [ho] at ho'
                exact (Option.some.inj ho').symm
            | release _ _ hno => cases hno
    | collect _ _ hfuture =>
        rw [hfuture] at ho
        cases ho
        exact absurd rfl hb
  · intro x hx p hw
    exact kept_pending hc h hflag hok he hx hw
  · intro l₁ e l₂ hlog f p o hobs
    rw [he.log] at hlog
    -- the event is an old one, or one of this step
    rcases List.append_eq_append_iff.mp hlog with ⟨es₁, rfl, hes⟩ | ⟨l₃, hold, hrest⟩
    · exact warranted_new h he hes hobs
    · cases l₃ with
      | nil =>
          rw [List.nil_append] at hrest
          rw [List.append_nil] at hold
          have hnew := warranted_new h he (show es = [] ++ e :: l₂ by rw [List.nil_append, hrest]) hobs
          rwa [List.append_nil, hold] at hnew
      | cons e' l₃ =>
          rw [List.cons_append] at hrest
          obtain ⟨rfl, -⟩ := List.cons.inj hrest
          exact h.warranted l₁ e l₃ hold f p o hobs

theorem kept_initial_futures : Kept State.initial where
  empty p _ := by simp [State.initial]
  broken p hno := by cases hno
  ready p o hno := by cases hno
  pending x hx p hw := by
    have hx' : x.fiber = 0 := by
      simp only [State.initial, List.mem_singleton] at hx
      rw [hx]
    rw [hx'] at hw
    cases hw
  warranted l₁ e l₂ hlog f p o hobs := by
    have hmem : e ∈ State.initial.log := by
      rw [hlog]
      simp
    simp only [State.initial, List.mem_singleton] at hmem
    rw [hmem] at hobs
    cases hobs

theorem reachable_kept_futures (hs : Reachable Initial (restrict (fun s a => dropsResult s a = false) Step) s) :
    Sound s ∧ Flagged s ∧ Kept s := by
  refine hs.invariant (I := fun s => Sound s ∧ Flagged s ∧ Kept s) ?_ ?_
  · intro s hs
    rw [hs]
    exact ⟨sound_initial, flagged_initial, kept_initial_futures⟩
  · rintro s a s' ⟨hsound, hflag, hkept⟩ ⟨hok, hstep⟩
    exact ⟨step_sound hsound hstep, exec_flagged hsound.coherent hflag hstep,
      exec_kept_futures hsound.coherent hflag hkept hok hstep⟩

/-- A promise that has been set cannot be set again. -/
theorem Kept.set_again (h : Kept s) {o : Outcome} (hset : .set p o ∈ s.log) : s.futures p ≠ .empty :=
  fun hempty => (h.empty p hempty).1 o hset

theorem step_set_value {ref : Nat} (hno : s.futures p ≠ .empty) (hs : Step s (.promiseSetValue p ref) s') : s' = s := by
  obtain ⟨-, ⟨f, -, hcall⟩ | ⟨i, ec, ha, -⟩ | ⟨i, o, ha, -⟩ | ⟨x, xs, ha, -, -, -⟩ | ⟨o, ha, -, -⟩⟩ := exec_cases hs
  · simp only [call] at hcall
    split at hcall
    · simp only [State.promiseSetValue, if_pos hno] at hcall
      exact (Except.ok.inj hcall).symm
    · cases hcall
  all_goals cases ha

theorem step_set_error {ref : Nat} (hno : s.futures p ≠ .empty) (hs : Step s (.promiseSetError p ref) s') : s' = s := by
  obtain ⟨-, ⟨f, -, hcall⟩ | ⟨i, ec, ha, -⟩ | ⟨i, o, ha, -⟩ | ⟨x, xs, ha, -, -, -⟩ | ⟨o, ha, -, -⟩⟩ := exec_cases hs
  · simp only [call] at hcall
    split at hcall
    · simp only [State.promiseSetError, if_pos hno] at hcall
      exact (Except.ok.inj hcall).symm
    · cases hcall
  all_goals cases ha

/-- Fiber 2 waits for promise 0, which the main fiber sets; then both get it. -/
def setWhileWaiting : List Action :=
  [.runHandler, .spawn, .thisFiberYield, .runHandler, .futureGet 0, .runHandler, .promiseSetValue 0 7, .futureGet 0,
    .thisFiberYield, .runHandler]

end

end Emilua.Sched
