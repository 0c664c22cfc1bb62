import Emilua.Coroutines.Switching

/-!
Native suspensions inside coroutines. They go up to the fiber through every call of
`resume`, and the fiber goes on where it was, whatever other fibers have done in the
meantime; except in a coroutine whose body has returned and whose cleanup handlers
are at work, where the flag tells nothing.
-/
namespace Emilua.Coroutines
open Transition Relation

/-- The body of the coroutine has returned, and its cleanup handlers are at work. -/
def LuaThread.Closing (x : LuaThread) : Prop := x.start = .coroutine ∧ ∃ i, Frame.ending .ok i ∈ x.cleanup.frames

/-- The flag is set when code runs, unless a coroutine below is closing. -/
def Flagged (s : State) : Prop :=
  s.native = true ∨ (∃ ok, s.control = .returned ok) ∨ s.control = .closed ∨ ∃ t ∈ s.stack, (s.threads t).Closing

section
variable {s s' : State} {t co f : Thread} {rest ts : List Thread} {a : Action}

theorem Cleanup.Does.closing {c c' : Cleanup} {l l' : Level} {start : Start} {p : Phase} {op : Op} {n : Next}
    (hd : c.Does l start p op c' l' n) (h : ∃ i, Frame.ending .ok i ∈ c.frames) : ∃ i, Frame.ending .ok i ∈ c'.frames := by
  obtain ⟨i, hi⟩ := h
  have hbelow : ∀ {x fs}, c.frames = x :: fs → (∀ i, x ≠ .ending .ok i) → ∀ y, Frame.ending .ok i ∈ y :: fs := by
    intro x fs hframes hne y
    rw [hframes] at hi
    exact List.mem_cons_of_mem _ ((List.mem_cons.mp hi).resolve_left fun heq => hne i heq.symm)
  have hrestored : ∀ {fs p}, Frame.ending .ok i ∈ fs → c.Restores l fs p c' l' n → Frame.ending .ok i ∈ c'.frames := by
    intro fs p hmem hr
    cases hr with
    | restored _ | refused _ => exact hmem
  cases hd with
  | interrupted | push | unmatched | drop | disable | error | handled | failed | ended => exact ⟨i, hi⟩
  | call | pop => exact ⟨i, List.mem_cons_of_mem _ hi⟩
  | restore hr => exact ⟨i, hrestored hi hr⟩
  | body _ _ hframes _ =>
      rw [hframes] at hi
      cases hi
  | guarded _ _ hframes _ => exact ⟨i, hbelow hframes (fun _ h => by cases h) _⟩
  | next hframes => exact ⟨i, hbelow hframes (fun _ h => by cases h) _⟩
  | @popped fs _ _ _ hframes hr =>
      have hmem := hbelow hframes (fun _ h => by cases h) .popping
      exact ⟨i, hrestored ((List.mem_cons.mp hmem).resolve_left fun heq => by cases heq) hr⟩
  | unwound hframes hr =>
      have hmem := hbelow hframes (fun _ h => by cases h) .popping
      exact ⟨i, hrestored ((List.mem_cons.mp hmem).resolve_left fun heq => by cases heq) hr⟩
  | @nextOfRoot o j fs _ _ hframes _ _ =>
      rw [hframes] at hi
      rcases List.mem_cons.mp hi with heq | hmem
      · cases heq
        exact ⟨j, List.mem_cons_self⟩
      · exact ⟨i, List.mem_cons_of_mem _ hmem⟩

/-- A body that returns leaves its thread closing. -/
theorem Cleanup.Does.marked {c c' : Cleanup} {l l' : Level} {start : Start} {q : Phase}
    (hd : c.Does l start .user .ret c' l' (.phase q)) (hframes : c.frames = []) : ∃ i, Frame.ending .ok i ∈ c'.frames := by
  cases hd with
  | @body _ _ hs o hcause _ _ =>
      rcases hcause with ⟨-, -, rfl⟩ | ⟨hp, -⟩
      · exact ⟨hs.length, List.mem_cons_self⟩
      · cases hp
  | guarded _ _ hother _ | popped hother _ =>
      rw [hframes] at hother
      cases hother
  | handled hother =>
      rw [hframes] at hother
      rcases hother with ⟨_, _, _, _, hother⟩ | ⟨_, _, _, hother⟩ <;> cases hother

/-- The bottom of the C stack is no coroutine. -/
theorem Sound.bottom (h : Sound s) (hstack : s.stack = [t]) : (s.threads t).start ≠ .coroutine :=
  (h.wf.base t (by change s.stack.getLast? = _; rw [hstack]; rfl)).2

theorem Switch.start_eq {v v' : View} (hs : Switch v v') {x : Thread} (hx : x ≠ v.created) : v'.start x = v.start x := by
  cases hs with
  | add _ => exact Function.update_of_ne hx _ _
  | _ => rfl

theorem Sound.ne_created (h : Sound s) {x : Thread} (hx : x ∈ s.stack) : x ≠ s.created := by
  rintro rfl
  have hrun := (h.wf.running s.created).mpr hx
  have hfresh := h.wf.unborn s.created (Nat.le_refl _)
  rw [hfresh] at hrun
  cases hrun

theorem Sound.closing_kept (h : Sound s) (hstep : Step s a s') {x : Thread} (hx : x ∈ s.stack) (hc : (s.threads x).Closing) :
    (s'.threads x).Closing := by
  have hm := State.step_moves hstep
  obtain ⟨hstart, i, hi⟩ := hc
  have hne := h.ne_created hx
  refine ⟨((moves_switch h.tidy hm).start_eq hne).trans hstart, ?_⟩
  change ∃ i, Frame.ending .ok i ∈ (s'.cleanups x).frames
  have hold : ∀ {t c}, (x = t → ∃ i, Frame.ending .ok i ∈ c.frames) →
      ∃ i, Frame.ending .ok i ∈ (Function.update s.cleanups t c x).frames := by
    intro t c hc
    by_cases hxt : x = t
    · subst hxt
      rw [Function.update_self]
      exact hc rfl
    · rw [Function.update_of_ne hxt]
      exact ⟨i, hi⟩
  have ht := moves_touches hm
  generalize s'.cleanups = cs at ht
  cases ht with
  | none => exact ⟨i, hi⟩
  | does _ hcontrol hstack hdoes =>
      refine hold fun heq => ?_
      subst heq
      exact hdoes.closing ⟨i, hi⟩
  | pushed co hcontrol hstack =>
      refine hold fun heq => ?_
      subst heq
      exact ⟨i, List.mem_cons_of_mem _ hi⟩
  | popped hstack hframes =>
      refine hold fun heq => ?_
      subst heq
      rw [hframes] at hi
      exact ⟨i, (List.mem_cons.mp hi).resolve_left fun heq => by cases heq⟩
  | born => exact hold fun heq => absurd heq hne

/-- At the bottom of the C stack nothing is closing. -/
theorem Flagged.bottom (hf : Flagged s) (h : Sound s) {p : Phase} (hcontrol : s.control = .code p) (hstack : s.stack = [t]) :
    s.native = true := by
  rcases hf with hn | ⟨ok, hc⟩ | hc | ⟨x, hx, hclosing⟩
  · exact hn
  · rw [hcontrol] at hc
    cases hc
  · rw [hcontrol] at hc
    cases hc
  · rw [hstack, List.mem_singleton] at hx
    subst hx
    exact absurd hclosing.1 (h.bottom hstack)

theorem leave_flagged {r : Raw} {ok : Bool} (hn : rest = [] → s.native = true) : Flagged (s.leave t r rest ok) := by
  cases rest with
  | nil => exact .inl (hn rfl)
  | cons p rest => exact .inr (.inl ⟨ok, rfl⟩)

theorem Flagged.step (hf : Flagged s) (h : Sound s) (hstep : Step s a s') : Flagged s' := by
  -- The threads on the stack that are closing still are.
  have hkeep : (s.native = true ∨ ∃ t ∈ s.stack, (s.threads t).Closing) → s'.native = s.native →
      (∀ t ∈ s.stack, t ∈ s'.stack) → Flagged s' := by
    rintro (hn | ⟨x, hx, hclosing⟩) hsame hstack
    · exact .inl (hsame.trans hn)
    · exact .inr (.inr (.inr ⟨x, hstack x hx, h.closing_kept hstep hx hclosing⟩))
  have hopen : (∀ ok, s.control ≠ .returned ok) → s.control ≠ .closed → s.native = true ∨ ∃ t ∈ s.stack, (s.threads t).Closing := by
    intro hr hc
    rcases hf with hn | ⟨ok, hcontrol⟩ | hcontrol | hclosing
    · exact .inl hn
    · exact absurd hcontrol (hr ok)
    · exact absurd hcontrol hc
    · exact .inr hclosing
  have hcode : ∀ {c : Control}, s.control = c → (∀ ok, c ≠ .returned ok) → c ≠ .closed →
      s.native = true ∨ ∃ t ∈ s.stack, (s.threads t).Closing := fun hc hr hcl => hopen (hc ▸ hr) (hc ▸ hcl)
  have hm := State.step_moves hstep
  cases hm with
  | @inside t rest p op c l n k native hcontrol hstack hdoes hnext hnative =>
      rcases hnative with rfl | ⟨hstart, rfl, rfl, hframes⟩
      · exact hkeep (hcode hcontrol (by simp) (by simp)) rfl fun _ hx => hx
      · rcases hnext with ⟨q, rfl, rfl⟩ | ⟨-, rfl⟩
        · refine .inr (.inr (.inr ⟨t, by change t ∈ s.stack; rw [hstack]; exact List.mem_cons_self, ?_⟩))
          change Function.update s.threads t { s.threads t with cleanup := c } t |>.Closing
          rw [Function.update_self]
          exact ⟨hstart, hdoes.marked hframes⟩
        · exact .inr (.inr (.inl rfl))
  | @ended t rest o c l hcontrol hstack hdoes =>
      exact leave_flagged fun hrest => hf.bottom h hcontrol (by rw [hstack, hrest])
  | passed hcontrol hstack htarget hnative => exact .inl hnative
  | returned hcontrol hstack hframes hown => exact .inl rfl
  | continued hcontrol hstack htarget hraw =>
      exact hkeep (hcode hcontrol (by simp) (by simp)) rfl fun _ hx => List.mem_cons_of_mem _ hx
  | lost hcontrol hstack hframes hraw => exact .inl rfl
  | arrived hcontrol hstack htarget => exact hkeep (hcode hcontrol (by simp) (by simp)) rfl fun _ hx => hx
  | woken hcontrol hidle hfiber hraw =>
      have hempty : s.stack = [] := by
        have hheaded := h.wf.headed
        rw [View.Headed, view_mode hcontrol] at hheaded
        exact hheaded
      refine hkeep (hcode hcontrol (by simp) (by simp)) rfl fun x hx => ?_
      rw [hempty] at hx
      cases hx
  | added hcontrol hstack ha => exact hkeep (hcode hcontrol (by simp) (by simp)) rfl fun _ hx => hx
  | refused hcontrol hstack ha => exact hkeep (hcode hcontrol (by simp) (by simp)) rfl fun _ hx => hx
  | resumed hcontrol hstack hco hstart hbusy hraw =>
      exact hkeep (hcode hcontrol (by simp) (by simp)) rfl fun _ hx => List.mem_cons_of_mem _ hx
  | unresumed hcontrol hstack hraw => exact .inl rfl
  | yielded hcontrol hstack hstart =>
      refine leave_flagged fun hrest => absurd hstart (h.bottom ?_)
      rw [hstack, hrest]
  | suspended hcontrol hstack => exact leave_flagged fun hrest => hf.bottom h hcontrol (by rw [hstack, hrest])
  | interrupted hcontrol hstack => exact hkeep (hcode hcontrol (by simp) (by simp)) rfl fun _ hx => hx

theorem Reached.flagged (hs : Reached s) : Flagged s := by
  have hboth := hs.invariant (I := fun s => Sound s ∧ Flagged s) (fun _ h => h ▸ ⟨start_sound, .inl rfl⟩)
    fun _ _ _ h hstep => ⟨h.1.step hstep, h.2.step h.1 hstep⟩
  exact hboth.2

end

def State.steps : List Action → State → Option State
  | [], s => some s
  | a :: as, s => (s.step a).bind (steps as)

def State.owner (s : State) : Thread → Thread := LuaThread.owner ∘ s.threads

/-- So many turns of what is no choice of the code. -/
def State.ticks (n : Nat) (s : State) : Option State := s.steps (List.replicate n (.code .tick))

section
variable {s s' : State} {t co f : Thread} {rest up ts cs : List Thread} {a : Action}

theorem ticks_succ {n : Nat} {s₁ : State} (htick : s.step (.code .tick) = some s₁) : s.ticks (n + 1) = s₁.ticks n := by
  rw [State.ticks, List.replicate_succ, State.steps, htick]
  rfl

theorem tick_passed (hcontrol : s.control = .returned true) (hstack : s.stack = t :: rest) (htarget : s.target t = some co)
    (hn : s.native = true) : s.step (.code .tick) = some ((s.setBusy co true).leave t .suspended rest true) := by
  obtain ⟨fs, hframes⟩ := State.target_some htarget
  simp only [State.step, hcontrol, hstack, if_true, State.returned, hframes, hn, Bool.and_self]

theorem tick_returned {ok : Bool} {fs : List Frame} (hcontrol : s.control = .returned ok) (hstack : s.stack = t :: rest)
    (hframes : (s.threads t).cleanup.frames = .resuming co :: fs) (hown : ok = false ∨ s.native = false) :
    s.step (.code .tick) = some (s.resumed t fs) := by
  have hand : (ok && s.native) = false := Bool.and_eq_false_iff.mpr hown
  simp only [State.step, hcontrol, hstack, if_true, State.returned, hframes, hand, Bool.false_eq_true, if_false]

theorem tick_continued (hcontrol : s.control = .entered) (hstack : s.stack = t :: rest) (htarget : s.target t = some co)
    (hraw : (s.threads co).raw = .fresh ∨ (s.threads co).raw = .suspended) :
    s.step (.code .tick) = some ((s.setBusy co false).run co) := by
  obtain ⟨fs, hframes⟩ := State.target_some htarget
  have hsame : ((s.setBusy co false).threads co).raw = (s.threads co).raw := by simp [State.setBusy, State.update]
  simp only [State.step, hcontrol, hstack, if_true, State.entered, hframes, State.rawResume_some (hsame ▸ hraw), Option.getD_some]

theorem tick_arrived (hcontrol : s.control = .entered) (hstack : s.stack = t :: rest) (htarget : s.target t = none) :
    s.step (.code .tick) = some { s with control := .code .user } := by
  simp only [State.step, hcontrol, hstack, if_true, State.entered]
  split
  · rename_i co fs hframes
    rw [State.target_resuming hframes] at htarget
    cases htarget
  · rfl

theorem owner_same (s : State) (t : Thread) {f : LuaThread → LuaThread} (hf : (f (s.threads t)).owner = (s.threads t).owner) :
    (s.update t f).owner = s.owner := (Function.comp_update ..).trans (update_same hf)

theorem owner_leave (s : State) (t : Thread) (r : Raw) (rest : List Thread) (ok : Bool) : (s.leave t r rest ok).owner = s.owner :=
  @owner_same s t (fun x => { x with raw := r }) rfl

theorem owner_busy (s : State) (t : Thread) (b : Bool) : (s.setBusy t b).owner = s.owner := owner_same s t rfl

/-- What is left when the whole C stack has been left. -/
structure Rested (s s' : State) : Prop where
  sound : Sound s'
  control : s'.control = .idle
  native : s'.native = true
  current : s'.current = s.current
  start : s'.view.start = s.view.start
  cleanups : s'.cleanups = s.cleanups
  owner : s'.owner = s.owner
  suspended : ∀ x ∈ s.stack, s'.view.raw x = .suspended
  others : ∀ x, x ∉ s.stack → s'.view.raw x = s.view.raw x

/-- With the flag set, a thread that yields takes all below it along. -/
theorem passes_up (h : Sound s) (hn : s.native = true)
    (hcontrol : s.control = if s.stack = [] then .idle else .returned true) :
    ∃ s', s.ticks s.stack.length = some s' ∧ Rested s s' := by
  generalize hlen : s.stack.length = n
  induction n generalizing s with
  | zero =>
      have hempty := List.length_eq_zero_iff.mp hlen
      rw [if_pos hempty] at hcontrol
      exact ⟨s, rfl, h, hcontrol, hn, rfl, rfl, rfl, rfl, fun x hx => absurd (hempty ▸ hx) List.not_mem_nil, fun _ _ => rfl⟩
  | succ n ih =>
      cases hstack : s.stack with
      | nil =>
          rw [hstack] at hlen
          cases hlen
      | cons t rest =>
          rw [hstack] at hcontrol hlen
          rw [if_neg (List.cons_ne_nil _ _)] at hcontrol
          obtain ⟨t', rest', co, hstack', htarget, -⟩ : ∃ t rest co, s.view.stack = t :: rest ∧ s.view.target t = some co ∧
              (s.view.raw co = .suspended ∨ s.view.raw co = .dead) := by
            have hheaded := h.wf.headed
            rw [View.Headed, view_mode hcontrol] at hheaded
            exact hheaded
          change s.stack = _ at hstack'
          rw [hstack] at hstack'
          cases hstack'
          have htick := tick_passed hcontrol hstack htarget hn
          have hview := view_leave (s.setBusy co true) t .suspended rest true
          rw [view_busy] at hview
          have hclean := (cleanups_leave (s.setBusy co true) t .suspended rest true).trans (cleanups_busy s co true)
          obtain ⟨s', hticks, hrested⟩ := ih (h.step htick) hn rfl (Nat.succ.inj hlen)
          have hnodup := h.wf.nodup
          change s.stack.Nodup at hnodup
          rw [hstack, List.nodup_cons] at hnodup
          have hraw := congrArg View.raw hview
          have hstart := congrArg View.start hview
          refine ⟨s', ?_, hrested.sound, hrested.control, hrested.native, hrested.current, hrested.start.trans hstart,
            hrested.cleanups.trans hclean, hrested.owner.trans ((owner_leave ..).trans (owner_busy ..)), fun x hx => ?_, fun x hx => ?_⟩
          · rw [ticks_succ htick, hticks]
          · rw [hstack] at hx
            rcases List.mem_cons.mp hx with rfl | hx
            · rw [hrested.others x hnodup.1, hraw]
              exact Function.update_self ..
            · exact hrested.suspended x hx
          · rw [hstack, List.mem_cons, not_or] at hx
            rw [hrested.others x hx.2, hraw]
            exact Function.update_of_ne hx.1 ..

/-- What was suspended together goes on together. -/
theorem goes_down (h : Sound s) (hcontrol : s.control = .entered) (hstack : s.stack = t :: up)
    (hchain : (t :: cs).IsChain fun p c => s.view.target p = some c)
    (hlast : ∀ x, (t :: cs).getLast? = some x → s.view.target x = none) (hnodup : cs.Nodup)
    (hraw : ∀ c ∈ cs, s.view.raw c = .suspended) :
    ∃ s', s.ticks (cs.length + 1) = some s' ∧ s'.control = .code .user ∧ s'.stack = cs.reverse ++ s.stack ∧ s'.native = s.native ∧
      s'.cleanups = s.cleanups := by
  induction cs generalizing s t up with
  | nil =>
      have htick := tick_arrived hcontrol hstack (hlast t rfl)
      refine ⟨{ s with control := .code .user }, ?_, rfl, rfl, rfl, rfl⟩
      rw [List.length_nil, ticks_succ htick]
      rfl
  | cons c cs ih =>
      obtain ⟨htarget, hrest⟩ := List.isChain_cons_cons.mp hchain
      have htick := tick_continued hcontrol hstack htarget (.inr (hraw c List.mem_cons_self))
      have hview := view_run (s.setBusy c false) c
      rw [view_busy] at hview
      have hclean := (cleanups_run (s.setBusy c false) c).trans (cleanups_busy s c false)
      have hsame : ((s.setBusy c false).run c).view.target = s.view.target := by rw [hview]
      have hruns := congrArg View.raw hview
      rw [List.nodup_cons] at hnodup
      obtain ⟨s', hticks, hcode, hstack', hnative, hcleanups⟩ := ih (h.step htick) rfl rfl (hsame ▸ hrest)
        (fun x hx => hsame ▸ hlast x (by rw [List.getLast?_cons, hx]; rfl)) hnodup.2 (fun x hx => by
          have hne : x ≠ c := fun heq => hnodup.1 (heq ▸ hx)
          rw [hruns]
          exact (Function.update_of_ne hne _ _).trans (hraw x (List.mem_cons_of_mem _ hx)))
      refine ⟨s', ?_, hcode, ?_, hnative, hcleanups.trans hclean⟩
      · rw [List.length_cons, ticks_succ htick, hticks]
      · rw [hstack', List.reverse_cons, List.append_assoc]
        rfl

/-- The threads of a suspended fiber, the innermost first. -/
structure Paused (s : State) (f : Thread) (ts : List Thread) : Prop where
  linked : ts.IsChain fun t p => s.view.target p = some t
  top : ∀ t, ts.head? = some t → s.view.target t = none
  bottom : ts.getLast? = some f
  fiber : s.view.start f ≠ .coroutine
  nodup : ts.Nodup
  suspended : ∀ t ∈ ts, s.view.raw t = .suspended

theorem chain_parent {r : Thread → Thread → Prop} (hchain : ts.IsChain r) (ht : t ∈ ts) (hne : ts.getLast? ≠ some t) :
    ∃ p ∈ ts, r t p := by
  induction ts with
  | nil => cases ht
  | cons x ts ih =>
      cases ts with
      | nil =>
          obtain rfl := List.mem_singleton.mp ht
          exact absurd rfl hne
      | cons y ts =>
          rw [List.isChain_cons_cons] at hchain
          rcases List.mem_cons.mp ht with rfl | ht
          · exact ⟨y, by simp, hchain.1⟩
          · obtain ⟨p, hp, hr⟩ := ih hchain.2 ht (by rwa [List.getLast?_cons_cons] at hne)
            exact ⟨p, List.mem_cons_of_mem _ hp, hr⟩

/-- Of the threads of a suspended fiber each but the last is in the `resume` of another. -/
theorem Paused.parent (hp : Paused s f ts) (ht : t ∈ ts) (hne : t ≠ f) : ∃ p ∈ ts, s.view.target p = some t := by
  refine chain_parent hp.linked ht fun hlast => hne ?_
  rw [hp.bottom] at hlast
  exact (Option.some.inj hlast).symm

theorem Paused.mem (hp : Paused s f ts) : f ∈ ts := List.mem_of_getLast? hp.bottom

/-- A coroutine that a running thread resumes is not one of them. -/
theorem Paused.not_resumed (hp : Paused s f ts) (h : Sound s) (hstack : s.stack = t :: rest) (htarget : s.target t = some co) :
    co ∉ ts := by
  intro hmem
  have hco : co ≠ f := by
    rintro rfl
    exact hp.fiber (h.wf.inner t co htarget).1
  obtain ⟨p, hpts, hlink⟩ := hp.parent hmem hco
  obtain rfl := h.wf.single p t co hlink htarget
  have hrun := h.wf.top hstack
  rw [hp.suspended p hpts] at hrun
  cases hrun

theorem Paused.not_running (hp : Paused s f ts) (h : Sound s) (hx : t ∈ s.stack) : t ∉ ts := by
  intro hmem
  have hrun := (h.wf.running t).mpr hx
  rw [hp.suspended t hmem] at hrun
  cases hrun

theorem Paused.threads_eq (hp : Paused s f ts) (h : Sound s) (hstep : Step s a s') (ha : a ≠ .wake f) (ht : t ∈ ts) :
    s'.threads t = s.threads t := by
  have htop : ∀ {x r}, s.stack = x :: r → t ≠ x := by
    rintro x r hstack rfl
    exact hp.not_running h (hstack ▸ List.mem_cons_self) ht
  have htarget : ∀ {x r co}, s.stack = x :: r → s.target x = some co → t ≠ co := by
    rintro x r co hstack hx rfl
    exact hp.not_resumed h hstack hx ht
  have hm := State.step_moves hstep
  cases hm with
  | inside native hcontrol hstack hdoes hnext hnative => exact Function.update_of_ne (htop hstack) _ _
  | ended hcontrol hstack hdoes =>
      exact (Function.update_of_ne (htop hstack) _ _).trans (Function.update_of_ne (htop hstack) _ _)
  | passed hcontrol hstack hx hnative =>
      exact (Function.update_of_ne (htop hstack) _ _).trans (Function.update_of_ne (htarget hstack hx) _ _)
  | returned hcontrol hstack hframes hown => exact Function.update_of_ne (htop hstack) _ _
  | continued hcontrol hstack hx hraw =>
      exact (Function.update_of_ne (htarget hstack hx) _ _).trans (Function.update_of_ne (htarget hstack hx) _ _)
  | lost hcontrol hstack hframes hraw =>
      exact (Function.update_of_ne (htop hstack) _ _).trans
        (Function.update_of_ne (htarget hstack (State.target_resuming hframes)) _ _)
  | arrived hcontrol hstack hx => rfl
  | @woken g hcontrol hg hfiber hraw =>
      refine Function.update_of_ne ?_ _ _
      rintro rfl
      by_cases htf : t = f
      · exact ha (by rw [htf])
      · obtain ⟨p, -, hlink⟩ := hp.parent ht htf
        exact hfiber (h.wf.inner p t hlink).1
  | added hcontrol hstack hb =>
      refine Function.update_of_ne ?_ _ _
      rintro rfl
      have hraw := hp.suspended _ ht
      have hfresh := h.wf.unborn s.created (Nat.le_refl _)
      rw [hfresh] at hraw
      cases hraw
  | refused hcontrol hstack hb => rfl
  | @resumed x r c hcontrol hstack hco hstart hbusy hraw =>
      have htc : t ≠ c := by
        rintro rfl
        by_cases htf : t = f
        · exact hp.fiber (htf ▸ hstart)
        · obtain ⟨p, hpts, hlink⟩ := hp.parent ht htf
          have hb := (h.wf.busy t).mpr ⟨p, hlink, .inl (hp.suspended p hpts)⟩
          change (s.threads t).busy = true at hb
          rw [hbusy] at hb
          cases hb
      exact (Function.update_of_ne htc _ _).trans (Function.update_of_ne (htop hstack) _ _)
  | unresumed hcontrol hstack hraw => exact Function.update_of_ne (htop hstack) _ _
  | yielded hcontrol hstack hstart => exact Function.update_of_ne (htop hstack) _ _
  | suspended hcontrol hstack => exact Function.update_of_ne (htop hstack) _ _
  | interrupted hcontrol hstack => rfl

theorem Paused.step (hp : Paused s f ts) (h : Sound s) (hstep : Step s a s') (ha : a ≠ .wake f) : Paused s' f ts := by
  have heq : ∀ x ∈ ts, s'.threads x = s.threads x := fun x hx => hp.threads_eq h hstep ha hx
  have htarget : ∀ x ∈ ts, s'.view.target x = s.view.target x := fun x hx => congrArg (Cleanup.target ∘ LuaThread.cleanup) (heq x hx)
  refine ⟨hp.linked.imp_of_mem_imp fun x p _ hpm hx => (htarget p hpm).trans hx, fun x hx => ?_, hp.bottom, ?_, hp.nodup,
    fun x hx => ?_⟩
  · exact (htarget x (List.mem_of_head? hx)).trans (hp.top x hx)
  · have hstart := congrArg LuaThread.start (heq f hp.mem)
    change (s'.threads f).start ≠ .coroutine
    rw [hstart]
    exact hp.fiber
  · exact (congrArg LuaThread.raw (heq x hx)).trans (hp.suspended x hx)

/-- Any steps but that the fiber is resumed by the runtime. -/
def Others (f : Thread) : State → State → Prop := ReflTransGen fun s s' => ∃ a, a ≠ .wake f ∧ Step s a s'

theorem Paused.run (hp : Paused s f ts) (hs : Reached s) (hrun : Others f s s') :
    Reached s' ∧ Paused s' f ts ∧ ∀ t ∈ ts, s'.threads t = s.threads t := by
  induction hrun with
  | refl => exact ⟨hs, hp, fun _ _ => rfl⟩
  | tail _ hstep ih =>
      obtain ⟨hreached, hpaused, hsame⟩ := ih
      obtain ⟨a, ha, hstep⟩ := hstep
      exact ⟨hreached.trans (.single ⟨a, hstep⟩), hpaused.step hreached.sound hstep ha,
        fun t ht => (hpaused.threads_eq hreached.sound hstep ha ht).trans (hsame t ht)⟩

theorem Reached.step (hs : Reached s) (hstep : Step s a s') : Reached s' := hs.trans (.single ⟨a, hstep⟩)

theorem Reached.steps {as : List Action} (hs : Reached s) (hsteps : s.steps as = some s') : Reached s' := by
  induction as generalizing s with
  | nil =>
      obtain rfl : s = s' := Option.some.inj hsteps
      exact hs
  | cons a as ih =>
      obtain ⟨s₁, hstep, hrest⟩ := Option.bind_eq_some_iff.mp hsteps
      exact ih (hs.step hstep) hrest

theorem start_reached : Reached .start := ⟨.start, rfl, .refl⟩

theorem Sound.code_top (h : Sound s) {p : Phase} (hcontrol : s.control = .code p) (hstack : s.stack = t :: rest) :
    s.target t = none := (h.tidy.plain hcontrol hstack).target

theorem suspend_paused (h : Sound s) (hcontrol : s.control = .code .user) (hstack : s.stack = t :: rest)
    (hrest : Rested (s.leave t .suspended rest true) s') : Paused s' s.current s.stack := by
  have hview := view_leave s t .suspended rest true
  have htarget : s'.view.target = s.view.target := congrArg (fun cs => Cleanup.target ∘ cs)
    (hrest.cleanups.trans (cleanups_leave s t .suspended rest true))
  have hstart : s'.view.start = s.view.start := by rw [hrest.start, hview]
  have hlast : s.stack.getLast? = some ((t :: rest).getLast (List.cons_ne_nil _ _)) := by
    rw [hstack, List.getLast?_eq_some_getLast (List.cons_ne_nil _ _)]
  obtain ⟨hcurrent, hfiber⟩ := h.wf.base _ hlast
  have hnodup := h.wf.nodup
  refine ⟨by rw [htarget]; exact h.wf.linked, fun x hx => ?_, hlast.trans (congrArg some hcurrent), ?_, hnodup, fun x hx => ?_⟩
  · rw [hstack] at hx
    obtain rfl := Option.some.inj hx
    rw [htarget]
    exact h.code_top hcontrol hstack
  · rw [hstart]
    rw [hcurrent] at hfiber
    exact hfiber
  · rw [hstack] at hx
    change s.stack.Nodup at hnodup
    rw [hstack, List.nodup_cons] at hnodup
    rcases List.mem_cons.mp hx with rfl | hx
    · rw [hrest.others x hnodup.1, hview]
      exact Function.update_self ..
    · exact hrest.suspended x hx

theorem wake_cleanups (s : State) (f : Thread) : (s.wake f).cleanups = s.cleanups :=
  @cleanups_same s f (fun x => { x with raw := .running }) rfl

theorem wake_target (s : State) (f : Thread) : (s.wake f).view.target = s.view.target :=
  congrArg (fun cs => Cleanup.target ∘ cs) (wake_cleanups s f)

theorem wake_raw (s : State) (hne : t ≠ f) : (s.wake f).view.raw t = s.view.raw t := by
  change ((Function.update s.threads f _) t).raw = _
  rw [Function.update_of_ne hne]
  rfl

/-- The threads of a suspended fiber, the outermost first. -/
theorem Paused.downward (hp : Paused s f ts) (hrev : ts.reverse = f :: cs) :
    (f :: cs).IsChain (fun p c => s.view.target p = some c) ∧ (∀ x, (f :: cs).getLast? = some x → s.view.target x = none) ∧
      (f ∉ cs ∧ cs.Nodup) ∧ ∀ c ∈ cs, s.view.raw c = .suspended := by
  rw [← hrev, ← List.nodup_cons, ← hrev]
  refine ⟨List.isChain_reverse.mpr hp.linked, fun x hx => ?_, List.nodup_reverse.mpr hp.nodup, fun c hc => ?_⟩
  · rw [List.getLast?_reverse] at hx
    exact hp.top x hx
  · have hmem : c ∈ ts.reverse := hrev ▸ List.mem_cons_of_mem f hc
    exact hp.suspended c (List.mem_reverse.mp hmem)

/-- In the event loop the flag is set. -/
theorem Flagged.idle (hf : Flagged s) (h : Sound s) (hidle : s.control = .idle) : s.native = true := by
  have hempty : s.stack = [] := by
    have hheaded := h.wf.headed
    rw [View.Headed, view_mode hidle] at hheaded
    exact hheaded
  rcases hf with hn | ⟨ok, hc⟩ | hc | ⟨x, hx, -⟩
  · exact hn
  · rw [hidle] at hc
    cases hc
  · rw [hidle] at hc
    cases hc
  · rw [hempty] at hx
    cases hx

/-- The main fiber is in a coroutine that it has made. -/
def inCoroutine : List Action := [.wake 0, .code .tick, .create, .resume 1, .code .tick]

end

end Emilua.Coroutines
