import Emilua.Coroutines.Busy

/-!
How a coroutine gives control back. Its yields and errors reach the thread that has
resumed it and no other. So does its return, as long as the cleanup handlers that
run after the body leave the flag as the body has set it; with the flag set again,
the end of the coroutine is taken for a native suspension.
-/
namespace Emilua.Coroutines
open Transition Relation

/-- From `s` on, `t` has given control back to the `resume` of `p`. -/
structure GivenBack (s s' : State) (t p : Thread) (rest : List Thread) (r : Raw) : Prop where
  control : s'.control = .code .user
  stack : s'.stack = p :: rest
  native : s'.native = true
  raw : (s'.threads t).raw = r
  free : (s'.threads t).busy = false
  resumer : ∃ fs, (s.threads p).cleanup.frames = .resuming t :: fs ∧
    s'.threads p = { s.threads p with cleanup := { (s.threads p).cleanup with frames := fs } }
  others : ∀ x, x ≠ t → x ≠ p → s'.threads x = s.threads x

section
variable {s s' s₁ : State} {t p : Thread} {rest : List Thread} {a : Action}

theorem Sound.running_free (h : Sound s) (ht : t ∈ s.stack) : (s.threads t).busy = false := by
  rw [Bool.eq_false_iff]
  intro hbusy
  have hheld := h.wf.held t hbusy
  rw [(h.wf.running t).mpr ht] at hheld
  rcases hheld with hheld | hheld <;> cases hheld

theorem Sound.second (h : Sound s) (hstack : s.stack = t :: p :: rest) : s.target p = some t ∧ p ≠ t := by
  have hlinked := h.wf.linked
  have hnodup := h.wf.nodup
  change s.stack.IsChain _ at hlinked
  change s.stack.Nodup at hnodup
  rw [hstack] at hlinked hnodup
  exact ⟨(List.isChain_cons_cons.mp hlinked).1, fun heq => (List.nodup_cons.mp hnodup).1 (heq ▸ List.mem_cons_self)⟩

theorem leave_returned (s : State) (t p : Thread) (r : Raw) (rest : List Thread) (ok : Bool) :
    (s.leave t r (p :: rest) ok).control = .returned ok := by
  have hne : p :: rest ≠ [] := List.cons_ne_nil p rest
  simp only [State.leave, if_neg hne]

/-- A thread that leaves with the flag cleared, or by an error, goes back to the one
that has resumed it. -/
theorem leave_back (h : Sound s) (hstack : s.stack = t :: p :: rest) {r : Raw} {ok : Bool} (hthreads : ∀ x, x ≠ t → s₁.threads x = s.threads x)
    (hbusy : (s₁.threads t).busy = false) (hown : ok = false ∨ s₁.native = false) :
    ∃ s₂, (s₁.leave t r (p :: rest) ok).step (.code .tick) = some s₂ ∧ GivenBack s s₂ t p rest r := by
  obtain ⟨htarget, hne⟩ := h.second hstack
  obtain ⟨fs, hframes⟩ := State.target_some htarget
  have hother : ∀ x, x ≠ t → (s₁.leave t r (p :: rest) ok).threads x = s.threads x := fun x hx =>
    (Function.update_of_ne hx _ _).trans (hthreads x hx)
  have hp := hother p hne
  have htick := tick_returned (leave_returned s₁ t p r rest ok) rfl (hp.symm ▸ hframes) hown
  have ht : ((s₁.leave t r (p :: rest) ok).resumed p fs).threads t = { s₁.threads t with raw := r } :=
    (Function.update_of_ne hne.symm _ _).trans (Function.update_self ..)
  refine ⟨_, htick, rfl, rfl, rfl, ?_, ?_, ⟨fs, hframes, ?_⟩, fun x hxt hxp => (Function.update_of_ne hxp _ _).trans (hother x hxt)⟩
  · rw [ht]
  · rw [ht]
    exact hbusy
  · have hself : ((s₁.leave t r (p :: rest) ok).resumed p fs).threads p = _ := Function.update_self ..
    rw [hself, hp]

theorem did_self (s : State) (t : Thread) : s.did t (s.threads t).cleanup (s.fibers s.current).level (s.fibers s.current).net = s := by
  have hthreads : Function.update s.threads t (s.threads t) = s.threads := Function.update_eq_self ..
  have hfibers : Function.update s.fibers s.current (s.fibers s.current) = s.fibers := Function.update_eq_self ..
  rw [State.did, State.setFiber, State.update]
  exact congrArg₂ (fun threads fibers => { s with threads := threads, fibers := fibers }) hthreads hfibers

theorem step_ended {o : Outcome} {fs : List Frame} {ts : List Thread} (hcontrol : s.control = .code .looping) (hstack : s.stack = t :: ts)
    (hframes : (s.threads t).cleanup.frames = .ending o 0 :: fs) :
    s.step (.code .tick) = some (s.leave t .dead ts (o = .ok)) := by
  have hloop : (s.threads t).cleanup.loop (s.fibers s.current).level =
      some ((s.threads t).cleanup, (s.fibers s.current).level, .ended o) := by
    rw [Cleanup.loop, hframes]
  have hcode : s.code t ts .looping .tick =
      some ((s.did t (s.threads t).cleanup (s.fibers s.current).level (s.fibers s.current).net).leave t .dead ts (o = .ok)) := by
    simp only [State.code, Cleanup.exec, hloop]
    rfl
  rw [did_self] at hcode
  simp only [State.step, hcontrol, hstack]
  exact hcode

theorem back_of_end (hs : Reached s) (hstack : s.stack = t :: p :: rest) (hcontrol : s.control = .code .looping) {o : Outcome}
    {fs : List Frame} (hframes : (s.threads t).cleanup.frames = .ending o 0 :: fs) (hown : o = .error ∨ s.native = false)
    (hstep : Step s (.code .tick) s₁) : ∃ s₂, s₁.step (.code .tick) = some s₂ ∧ GivenBack s s₂ t p rest .dead := by
  have hfree := hs.sound.running_free (hstack ▸ List.mem_cons_self)
  rw [Step, step_ended hcontrol hstack hframes] at hstep
  cases hstep
  refine leave_back hs.sound hstack (fun _ _ => rfl) hfree ?_
  rcases hown with rfl | hnative
  · exact .inl rfl
  · exact .inr hnative

/-- The coroutine on top yields, or comes to its end with an error, or with the
flag as its body has left it. -/
def State.Gives (s : State) (t : Thread) (a : Action) (r : Raw) : Prop :=
  (a = .yield ∧ s.control = .code .user ∧ r = .suspended) ∨
  (a = .code .tick ∧ s.control = .code .looping ∧ r = .dead ∧
    ∃ o fs, (s.threads t).cleanup.frames = .ending o 0 :: fs ∧ (o = .error ∨ s.native = false))

theorem step_yield {ts : List Thread} (hcontrol : s.control = .code .user) (hstack : s.stack = t :: ts)
    (hstart : (s.threads t).start = .coroutine) : s.step .yield = some ({ s with native := false }.leave t .suspended ts true) := by
  rw [step_act hcontrol hstack (by simp), State.act, State.yield, if_pos hstart]

/-- `coroutine.yield`, an error and a return give control to the direct resumer. -/
theorem gives_back (hs : Reached s) (hstack : s.stack = t :: p :: rest) {r : Raw} (hgive : s.Gives t a r) (hstep : Step s a s₁) :
    ∃ s₂, s₁.step (.code .tick) = some s₂ ∧ GivenBack s s₂ t p rest r := by
  have h := hs.sound
  have hfree := h.running_free (hstack ▸ List.mem_cons_self)
  rcases hgive with ⟨rfl, hcontrol, rfl⟩ | ⟨rfl, hcontrol, rfl, o, fs, hframes, hown⟩
  · have hstart := (h.wf.inner p t (h.second hstack).1).1
    rw [Step, step_yield hcontrol hstack hstart] at hstep
    cases hstep
    exact leave_back h hstack (fun _ _ => rfl) hfree (.inr rfl)
  · exact back_of_end hs hstack hcontrol hframes hown hstep

/-- What a thread does by itself, without a switch. -/
def Action.Own : Action → Prop
  | .code _ | .create | .spawn | .load | .interrupt _ => True
  | .resume _ | .yield | .suspend _ | .wake _ => False

/-- The thread on top is at work all the time. -/
def Quiet : State → State → Prop := ReflTransGen fun s s' =>
  (∃ q, s.control = .code q) ∧ (∃ q, s'.control = .code q) ∧ ∃ a, a.Own ∧ Step s a s'

theorem leave_no_code {r : Raw} {ts : List Thread} {ok : Bool} {q : Phase} : (s.leave t r ts ok).control ≠ .code q := by
  rw [State.leave]
  intro h
  dsimp only at h
  split at h <;> cases h

theorem quiet_step {ts : List Thread} (hstack : s.stack = t :: ts) (hclosing : (s.threads t).Closing) {q q' : Phase}
    (hcontrol : s.control = .code q) (hcontrol' : s'.control = .code q') (ha : a.Own) (hstep : Step s a s') :
    s'.stack = s.stack ∧ s'.native = s.native ∧ s'.current = s.current := by
  have hm := State.step_moves hstep
  cases hm with
  | @inside t' rest p op c l n k native _ hstack' _ _ hnative =>
      rw [hstack] at hstack'
      cases hstack'
      refine ⟨rfl, hnative.resolve_right fun ⟨_, _, _, hframes⟩ => ?_, rfl⟩
      obtain ⟨-, i, hi⟩ := hclosing
      rw [hframes] at hi
      cases hi
  | added _ _ _ | interrupted _ _ => exact ⟨rfl, rfl, rfl⟩
  | ended _ _ _ | yielded _ _ _ | suspended _ _ => exact absurd hcontrol' leave_no_code
  | passed hother | returned hother | continued hother | lost hother | arrived hother | woken hother =>
      rw [hcontrol] at hother
      cases hother
  | refused _ _ hb => rcases hb with ⟨co, rfl⟩ | rfl | ⟨b, rfl⟩ <;> cases ha
  | resumed _ _ _ _ _ _ | unresumed _ _ _ => cases ha

theorem Quiet.run (hs : Reached s) {ts : List Thread} (hstack : s.stack = t :: ts) (hclosing : (s.threads t).Closing)
    (hquiet : Quiet s s') :
    Reached s' ∧ s'.stack = t :: ts ∧ (s'.threads t).Closing ∧ s'.native = s.native ∧ s'.current = s.current := by
  induction hquiet with
  | refl => exact ⟨hs, hstack, hclosing, rfl, rfl⟩
  | tail _ hstep ih =>
      obtain ⟨hs₁, hstack₁, hclosing₁, hnative, hcurrent⟩ := ih
      obtain ⟨⟨q, hcontrol⟩, ⟨q', hcontrol'⟩, a, ha, hstep⟩ := hstep
      obtain ⟨hstack₂, hnative₂, hcurrent₂⟩ := quiet_step hstack₁ hclosing₁ hcontrol hcontrol' ha hstep
      exact ⟨hs₁.step hstep, hstack₂.trans hstack₁, hs₁.sound.closing_kept hstep (hstack₁ ▸ List.mem_cons_self) hclosing₁,
        hnative₂.trans hnative, hcurrent₂.trans hcurrent⟩

/-- The coroutine is dead, but its `resume` has not returned: the fiber has been
suspended, and nothing but running it again changes that. -/
structure Stuck (s s' : State) (t : Thread) : Prop where
  control : s'.control = .idle
  dead : (s'.threads t).raw = .dead
  status : s'.status t = .normal
  lasting : ∀ s'', Others s.current s' s'' → s''.status t = .normal

theorem end_stuck (hs : Reached s) (hstack : s.stack = t :: p :: rest) (hcontrol : s.control = .code .looping) {fs : List Frame}
    (hframes : (s.threads t).cleanup.frames = .ending .ok 0 :: fs) (hnative : s.native = true) :
    ∃ s', s.ticks (rest.length + 2) = some s' ∧ Stuck s s' t := by
  have h := hs.sound
  have hended := step_ended hcontrol hstack hframes
  have hview := view_leave s t .dead (p :: rest) true
  have hclean := cleanups_leave s t .dead (p :: rest) true
  have howner := owner_leave s t .dead (p :: rest) true
  have hreturned := leave_returned s t p .dead rest true
  rw [decide_eq_true rfl] at hended
  generalize hs₁ : s.leave t .dead (p :: rest) true = s₁ at hended hview hclean howner hreturned
  have hstack₁ : s₁.stack = p :: rest := by rw [← hs₁]; rfl
  have hreached := hs.step hended
  obtain ⟨s₂, hticks, hrest⟩ := passes_up hreached.sound (by rw [← hs₁]; exact hnative)
    (by rw [hreturned, hstack₁, if_neg (List.cons_ne_nil _ _)])
  have hnodup := h.wf.nodup
  change s.stack.Nodup at hnodup
  rw [hstack, List.nodup_cons] at hnodup
  have hdead : s₂.view.raw t = .dead := by
    rw [hrest.others t (hstack₁ ▸ hnodup.1), hview]
    exact Function.update_self ..
  have htarget : s₂.view.target p = some t := by
    have hkept : s₂.cleanups p = s.cleanups p := congrFun (hrest.cleanups.trans hclean) p
    exact (congrArg Cleanup.target hkept).trans (h.second hstack).1
  have hsusp : ∀ x ∈ p :: rest, s₂.view.raw x = .suspended := hstack₁ ▸ hrest.suspended
  have hbusy : (s₂.threads t).busy = true := (hrest.sound.wf.busy t).mpr ⟨p, htarget, .inl (hsusp p List.mem_cons_self)⟩
  have hcurrent : s₂.owner t = s.current := by
    have hown := congrFun (hrest.owner.trans howner) t
    exact hown.trans (hs.owned.running t (hstack ▸ List.mem_cons_self))
  have hfiber : s.current ∈ p :: rest := by
    have hlast : s.stack.getLast? = some ((p :: rest).getLast (List.cons_ne_nil _ _)) := by
      rw [hstack, List.getLast?_cons_cons, List.getLast?_eq_some_getLast (List.cons_ne_nil _ _)]
    have hmem := List.getLast_mem (List.cons_ne_nil p rest)
    rwa [(h.wf.base _ hlast).1] at hmem
  have hreached₂ : Reached s₂ := hreached.steps hticks
  refine ⟨s₂, ?_, hrest.control, hdead, if_pos hbusy, fun s₃ hrun => ?_⟩
  · rw [ticks_succ hended, ← hticks, hstack₁]
    rfl
  · rw [← hcurrent] at hrun hfiber
    have hstays := (busy_others hreached₂ hbusy (hsusp _ hfiber) hrun).2.1
    exact if_pos (hstays ▸ hbusy)

/-- A body that returns clears the flag. -/
theorem body_clears (hcontrol : s.control = .code .user) (hstack : s.stack = t :: rest) (hstart : (s.threads t).start = .coroutine)
    (hbody : (s.threads t).cleanup.frames = []) (hstep : Step s (.code .ret) s') : s'.native = false := by
  have hcode : s.code t rest .user .ret = some s' := by
    rw [Step] at hstep
    simp only [State.step, hcontrol, hstack] at hstep
    exact hstep
  rw [State.code] at hcode
  split at hcode
  · cases hcode
  · have hmarks : Phase.user = .user ∧ Op.ret = .ret ∧ (s.threads t).cleanup.frames = [] ∧ (s.threads t).start = .coroutine :=
      ⟨rfl, rfl, hbody, hstart⟩
    dsimp only at hcode
    rw [if_pos hmarks] at hcode
    split at hcode <;> cases hcode <;> rfl

/-- A call of `resume` that returns sets it. -/
theorem resume_sets {ok : Bool} (hcontrol : s.control = .returned ok) (hstep : Step s a s') {q : Phase} (hcode : s'.control = .code q) :
    s'.native = true := by
  have hm := State.step_moves hstep
  cases hm with
  | returned _ _ _ _ => rfl
  | passed _ _ _ _ => exact absurd hcode leave_no_code
  | inside _ hother | ended hother | continued hother | lost hother | arrived hother | woken hother | added hother | refused hother
  | resumed hother | unresumed hother | yielded hother | suspended hother | interrupted hother =>
      rw [hcontrol] at hother
      cases hother

theorem Quiet.code (hquiet : Quiet s s') {q : Phase} (hcontrol : s'.control = .code q) : ∃ q, s.control = .code q := by
  rcases ReflTransGen.cases_head hquiet with rfl | ⟨_, hstep, -⟩
  · exact ⟨q, hcontrol⟩
  · exact hstep.1

/-- The end of a coroutine whose body has returned. If the cleanup handlers have done
nothing but their own work since then, its `resume` returns. If they have since the
`resume` of another coroutine has returned to them, it does not. -/
theorem closing_coroutine {s₀ : State} (hs : Reached s₀) (hstep : Step s₀ a s) (hstack : s.stack = t :: p :: rest)
    (hclosing : (s.threads t).Closing) (hquiet : Quiet s s') (hcontrol : s'.control = .code .looping) {fs : List Frame}
    (hframes : (s'.threads t).cleanup.frames = .ending .ok 0 :: fs) :
    (s₀.control = .code .user → a = .code .ret → s₀.stack = s.stack → (s₀.threads t).cleanup.frames = [] →
      ∃ s₁ s₂, Step s' (.code .tick) s₁ ∧ s₁.step (.code .tick) = some s₂ ∧ GivenBack s' s₂ t p rest .dead) ∧
    (∀ ok, s₀.control = .returned ok → ∃ s₂, s'.ticks (rest.length + 2) = some s₂ ∧ Stuck s' s₂ t) := by
  obtain ⟨hs', hstack', -, hnative, -⟩ := hquiet.run (hs.step hstep) hstack hclosing
  constructor
  · rintro hcode rfl hsame hbody
    have hold : s₀.stack = t :: p :: rest := hsame.trans hstack
    have hstart := (hs.sound.wf.inner p t (hs.sound.second hold).1).1
    have hfalse := body_clears hcode hold hstart hbody hstep
    have hended := step_ended hcontrol hstack' hframes
    obtain ⟨s₂, htick, hback⟩ := back_of_end hs' hstack' hcontrol hframes (.inr (hnative.trans hfalse)) hended
    exact ⟨_, s₂, hended, htick, hback⟩
  · intro ok hreturned
    obtain ⟨q, hcode⟩ := hquiet.code hcontrol
    exact end_stuck hs' hstack' hcontrol hframes (hnative.trans (resume_sets hreturned hstep hcode))

/-- The main fiber is in a coroutine that is in another one. -/
def inNested : List Action := inCoroutine ++ [.create, .resume 2, .code .tick]

theorem gives_back_yield : ∃ s s₁ s₂, State.start.steps inNested = some s ∧ Step s .yield s₁ ∧ s₁.step (.code .tick) = some s₂ ∧
    s₂.control = .code .user ∧ s₂.stack = [1, 0] := by
  have hrun : State.start.steps inNested = some ((State.start.steps inNested).get rfl) := (Option.some_get rfl).symm
  have hstep : Step ((State.start.steps inNested).get rfl) .yield _ := rfl
  obtain ⟨s₂, htick, hback⟩ := gives_back (start_reached.steps hrun) (t := 2) (p := 1) rfl (.inl ⟨rfl, rfl, rfl⟩) hstep
  exact ⟨_, _, s₂, hrun, hstep, htick, hback.control, hback.stack⟩

/-- The body of a coroutine has returned, and a cleanup handler has resumed another
coroutine, which has come to its end. -/
def inHandler : List Action :=
  inCoroutine ++ [.code .push, .code .ret, .code .tick, .create, .resume 2, .code .tick, .code .ret, .code .tick]

theorem closing_coroutine_resumes : ∃ s s₁ s₂ s₃, State.start.steps inHandler = some s ∧ Step s (.code .tick) s₁ ∧
    Step s₁ (.code .ret) s₂ ∧ s₂.ticks 2 = some s₃ ∧ s₃.control = .idle ∧ s₃.status 1 = .normal := by
  have hrun : State.start.steps inHandler = some ((State.start.steps inHandler).get rfl) := (Option.some_get rfl).symm
  have htick : Step ((State.start.steps inHandler).get rfl) (.code .tick) _ := rfl
  have hstep : Step (((State.start.steps inHandler).get rfl).resumed 1 [.ending .ok 0]) (.code .ret) _ := rfl
  obtain ⟨s₃, hticks, hstuck⟩ := (closing_coroutine (start_reached.steps hrun) htick (t := 1) (p := 0) rfl
    ⟨rfl, 0, List.mem_cons_self⟩ (.single ⟨⟨_, rfl⟩, ⟨_, rfl⟩, .code .ret, trivial, hstep⟩) rfl rfl).2 true rfl
  exact ⟨_, _, _, s₃, hrun, htick, hstep, hticks, hstuck.control, hstuck.status⟩

end

end Emilua.Coroutines
