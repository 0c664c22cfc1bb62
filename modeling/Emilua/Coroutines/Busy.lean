import Emilua.Coroutines.Suspension

/-!
The table of busy coroutines. A coroutine is in it as long as it is natively
suspended, and only the fiber that has suspended it goes on with it.
-/
namespace Emilua.Coroutines
open Transition

/-- A coroutine that is suspended in a call of `resume` is busy, or will be when the
thread that has resumed it passes the suspension on. -/
def View.Kept (v : View) (passing : Prop) : Prop :=
  ∀ p, v.target p ≠ none → v.raw p = .suspended → v.start p = .coroutine →
    v.busy p = true ∨ (v.mode = .returned ∧ passing ∧ ∃ t rest, v.stack = t :: rest ∧ v.target t = some p)

section
variable {v v' : View} {P P' : Prop} {t p co : Thread} {rest : List Thread}

theorem View.Kept.busy (h : v.Kept P) (hmode : v.mode ≠ .returned) (htarget : v.target p ≠ none) (hraw : v.raw p = .suspended)
    (hstart : v.start p = .coroutine) : v.busy p = true :=
  (h p htarget hraw hstart).resolve_right fun hpass => hmode hpass.1

theorem Wf.code_top (h : Wf v) (hmode : v.mode = .code) (hstack : v.stack = t :: rest) : v.target t = none := by
  have hheaded := h.headed
  rw [View.Headed, hmode] at hheaded
  obtain ⟨t', rest', hstack', htarget⟩ := hheaded
  rw [hstack] at hstack'
  cases hstack'
  exact htarget

theorem update_ne_none {f : Thread → Option Thread} (h : Function.update f t none p ≠ none) : p ≠ t ∧ f p ≠ none := by
  by_cases hp : p = t
  · subst hp
    exact absurd (Function.update_self ..) h
  · rw [Function.update_of_ne hp] at h
    exact ⟨hp, h⟩

theorem View.Kept.switch (h : v.Kept P) (hwf : Wf v) (hs : Switch v v') (hback : v.mode = .returned → v'.mode = .code → ¬ P)
    (hpass : v.mode = .returned → v'.mode = .returned → P') : v'.Kept P' := by
  intro p htarget hraw hstart
  cases hs with
  | stay hcode hm =>
      refine .inl (h.busy (fun hmode => ?_) htarget hraw hstart)
      rw [hmode] at hcode
      rcases hcode with hcode | ⟨hcode, -⟩ <;> cases hcode
  | @leave t rest r hmode hstack hr =>
      have hpt : p ≠ t := by
        rintro rfl
        exact htarget (hwf.code_top hmode hstack)
      refine .inl (h.busy (by rw [hmode]; decide) htarget ?_ hstart)
      exact (Function.update_of_ne hpt _ _).symm.trans hraw
  | @pass t rest co hmode hstack hco =>
      by_cases hpt : p = t
      · subst hpt
        -- The thread that passes the suspension on: the bottom of the C stack is no coroutine.
        cases hrest : rest with
        | nil =>
            rw [hrest] at hstack
            exact absurd hstart (hwf.base p (by rw [hstack]; rfl)).2
        | cons q rest =>
            have hlinked := hwf.linked
            rw [hstack, hrest] at hlinked
            have hret : backMode (q :: rest) = .returned := if_neg (List.cons_ne_nil _ _)
            rw [hrest] at hpass
            exact .inr ⟨hret, hpass hmode hret, q, rest, rfl, (List.isChain_cons_cons.mp hlinked).1⟩
      · left
        have hsusp : v.raw p = .suspended := (Function.update_of_ne hpt _ _).symm.trans hraw
        change Function.update v.busy co true p = true
        by_cases hpc : p = co
        · rw [hpc, Function.update_self]
        · rw [Function.update_of_ne hpc]
          refine (h p htarget hsusp hstart).resolve_right fun ⟨_, _, t', rest', hstack', hp⟩ => hpc ?_
          rw [hstack] at hstack'
          cases hstack'
          rw [hco] at hp
          exact (Option.some.inj hp).symm
  | @back t rest co hmode hstack hco =>
      have hp := (update_ne_none htarget).2
      exact .inl ((h p hp hraw hstart).resolve_right fun hpassing => hback hmode rfl hpassing.2.1)
  | @proceed t rest co hmode hstack hco =>
      have hpc : p ≠ co := by
        rintro rfl
        change Function.update v.raw p .running p = _ at hraw
        rw [Function.update_self] at hraw
        cases hraw
      have hbusy := h.busy (by rw [hmode]; decide) htarget ((Function.update_of_ne hpc _ _).symm.trans hraw) hstart
      exact .inl ((Function.update_of_ne hpc _ _).trans hbusy)
  | @lose t rest co hmode hstack hco hlost =>
      have hp := (update_ne_none htarget).2
      have hpc : p ≠ co := by
        rintro rfl
        exact hlost hraw
      have hbusy := h.busy (by rw [hmode]; decide) hp hraw hstart
      exact .inl ((Function.update_of_ne hpc _ _).trans hbusy)
  | @wake f hmode hf hfiber hfree =>
      have hpf : p ≠ f := by
        rintro rfl
        exact hfiber hstart
      exact .inl (h.busy (by rw [hmode]; decide) htarget ((Function.update_of_ne hpf _ _).symm.trans hraw) hstart)
  | @add start hmode =>
      obtain ⟨hpc, hp⟩ := update_ne_none htarget
      have hbusy := h.busy (by rw [hmode]; decide) hp ((Function.update_of_ne hpc _ _).symm.trans hraw)
        ((Function.update_of_ne hpc _ _).symm.trans hstart)
      exact .inl ((Function.update_of_ne hpc _ _).trans hbusy)
  | @resume t rest co hmode hstack hco hcor hfree hold =>
      have hpc : p ≠ co := by
        rintro rfl
        change Function.update v.raw p .running p = _ at hraw
        rw [Function.update_self] at hraw
        cases hraw
      have hsusp : v.raw p = .suspended := (Function.update_of_ne hpc _ _).symm.trans hraw
      have hpt : p ≠ t := by
        rintro rfl
        rw [hwf.top hstack] at hsusp
        cases hsusp
      exact .inl (h.busy (by rw [hmode]; decide) ((Function.update_of_ne hpt _ _).symm.trans_ne htarget) hsusp hstart)

theorem Switch.target_new (hs : Switch v v') (hp : v'.target p = some co) :
    v.target p = some co ∨ (p ∈ v'.stack ∧ co ∈ v'.stack) := by
  have hnone : ∀ {x}, Function.update v.target x none p = some co → v.target p = some co := by
    intro x hx
    have hpx := (update_ne_none (Option.ne_none_iff_exists'.mpr ⟨co, hx⟩)).1
    exact (Function.update_of_ne hpx _ _).symm.trans hx
  cases hs with
  | back _ _ _ | lose _ _ _ _ | add _ => exact .inl (hnone hp)
  | @resume t rest c hmode hstack hco hstart hbusy hraw =>
      by_cases hpt : p = t
      · subst hpt
        have hc := (Function.update_self p (some c) v.target).symm.trans hp
        obtain rfl := Option.some.inj hc
        exact .inr ⟨List.mem_cons_of_mem _ (hstack ▸ List.mem_cons_self), List.mem_cons_self⟩
      · exact .inl ((Function.update_of_ne hpt _ _).symm.trans hp)
  | _ => exact .inl hp

theorem Switch.raw_new (hs : Switch v v') (hwf : Wf v) (ht : v'.raw t ≠ .fresh) : v.raw t ≠ .fresh ∨ t ∈ v'.stack := by
  have hleft : ∀ {x rest r}, v.stack = x :: rest → Function.update v.raw x r t ≠ .fresh → v.raw t ≠ .fresh := by
    intro x rest r hstack hraw
    by_cases htx : t = x
    · rw [htx, hwf.top hstack]
      decide
    · rwa [Function.update_of_ne htx] at hraw
  have hrun : ∀ {x : Thread} {st : List Thread}, x ∈ st → Function.update v.raw x .running t ≠ .fresh → v.raw t ≠ .fresh ∨ t ∈ st := by
    intro x st hx hraw
    by_cases htx : t = x
    · exact .inr (htx ▸ hx)
    · rw [Function.update_of_ne htx] at hraw
      exact .inl hraw
  cases hs with
  | stay _ _ | back _ _ _ | lose _ _ _ _ => exact .inl ht
  | leave _ hstack _ | pass _ hstack _ => exact .inl (hleft hstack ht)
  | proceed _ _ _ | wake _ _ _ _ | resume _ _ _ _ _ _ => exact hrun List.mem_cons_self ht
  | add _ =>
      left
      intro hfresh
      refine ht ?_
      change Function.update v.raw v.created .fresh t = _
      by_cases htc : t = v.created
      · rw [htc, Function.update_self]
      · rw [Function.update_of_ne htc, hfresh]

/-- A coroutine that is not busy and not running is in no call of `resume`. -/
theorem Wf.free (h : Wf v) (hmode : v.mode = .code) (hbusy : v.busy co = false) (hraw : v.raw co ≠ .running) :
    v.target p ≠ some co := by
  intro hp
  rcases h.calm p (by rw [hp]; exact Option.some_ne_none co) with hprun | hpsusp
  · have hmem := (h.running p).mp hprun
    cases hstack : v.stack with
    | nil =>
        rw [hstack] at hmem
        cases hmem
    | cons t rest =>
        rw [hstack] at hmem
        rcases List.mem_cons.mp hmem with rfl | hmem
        · rw [h.code_top hmode hstack] at hp
          cases hp
        · obtain ⟨x, hx, hpx⟩ := h.mem_linked hstack hmem
          rw [hp] at hpx
          exact hraw ((h.running co).mpr (Option.some.inj hpx ▸ hx))
  · have hb := (h.busy co).mpr ⟨p, hp, .inl hpsusp⟩
    rw [hbusy] at hb
    cases hb

end

def State.passing (s : State) : Prop := s.control = .returned true ∧ s.native = true

/-- A thread belongs to the fiber that has run it last, and so do those that it is
waiting for. -/
structure Owned (s : State) : Prop where
  kept : s.view.Kept s.passing
  fiber : ∀ f < s.created, s.view.start f ≠ .coroutine → s.owner f = f
  running : ∀ t ∈ s.stack, s.owner t = s.current
  home : ∀ t, s.view.raw t ≠ .fresh → s.view.start (s.owner t) ≠ .coroutine ∧ s.owner t < s.created
  linked : ∀ p co, s.view.target p = some co → s.owner co = s.owner p

section
variable {s s' : State} {t p co : Thread} {rest : List Thread} {a : Action}

theorem owner_run (s : State) (co : Thread) : (s.run co).owner = Function.update s.owner co s.current := Function.comp_update ..

theorem owner_resumed (s : State) (t : Thread) (fs : List Frame) : (s.resumed t fs).owner = s.owner :=
  @owner_same s t (fun x => { x with cleanup := { x.cleanup with frames := fs } }) rfl

theorem owner_frames (s : State) (t : Thread) (fs : List Frame) : (s.setFrames t fs).owner = s.owner := owner_same s t rfl

theorem moves_kept (h : Owned s) (hs : Sound s) (hm : s.Moves a s') : s'.view.Kept s'.passing := by
  have hsw := moves_switch hs.tidy hm
  cases hm with
  | @passed t rest co hcontrol hstack htarget hnative =>
      refine h.kept.switch hs.wf hsw (fun _ hcode => ?_) fun _ hret => ?_
      · exact absurd ((leave_control ..).symm.trans hcode) (backMode_ne rest).2
      · refine ⟨?_, hnative⟩
        have hmode := (leave_control (s.setBusy co true) t .suspended rest true).symm.trans hret
        rw [backMode] at hmode
        split at hmode
        · cases hmode
        · rename_i hrest
          exact if_neg hrest
  | @returned t rest ok co fs hcontrol hstack hframes hown =>
      refine h.kept.switch hs.wf hsw (fun _ _ hpass => ?_) fun _ hret => by cases hret
      obtain ⟨hok, hnative⟩ := hpass
      rw [hok] at hcontrol
      cases hcontrol
      rcases hown with hown | hown
      · cases hown
      · rw [hnative] at hown
        cases hown
  | inside _ hcontrol | ended hcontrol | continued hcontrol | lost hcontrol | arrived hcontrol | woken hcontrol
  | added hcontrol | refused hcontrol | resumed hcontrol | unresumed hcontrol | yielded hcontrol | suspended hcontrol
  | interrupted hcontrol =>
      have hno : s.view.mode ≠ .returned := by
        rw [view_mode hcontrol]
        simp [Control.mode]
      exact h.kept.switch hs.wf hsw (fun hret => absurd hret hno) fun hret => absurd hret hno

theorem Wf.current (h : Wf v) (ht : t ∈ v.stack) : v.start v.current ≠ .coroutine ∧ v.current < v.created := by
  obtain ⟨x, hx⟩ := Option.ne_none_iff_exists'.mp (fun hnone => List.ne_nil_of_mem ht (List.getLast?_eq_none_iff.mp hnone))
  obtain ⟨rfl, hstart⟩ := h.base x hx
  have hrun := (h.running _).mpr (List.mem_of_getLast? hx)
  exact ⟨hstart, h.unborn_of (by rw [hrun]; decide)⟩

theorem Wf.current_running (h : Wf v) (ht : t ∈ v.stack) : v.raw v.current = .running := by
  obtain ⟨x, hx⟩ := Option.ne_none_iff_exists'.mp (fun hnone => List.ne_nil_of_mem ht (List.getLast?_eq_none_iff.mp hnone))
  obtain ⟨rfl, -⟩ := h.base x hx
  exact (h.running _).mpr (List.mem_of_getLast? hx)

theorem Switch.created_le (hs : Switch v v') : v.created ≤ v'.created := by
  cases hs with
  | add _ => exact Nat.le_succ _
  | _ => exact Nat.le_refl _

/-- Threads that are run belong to the fiber at work, others to the fiber that they
belonged to. -/
theorem moves_home (h : Owned s) (hs : Sound s) (hm : s.Moves a s') (hrun : ∀ t ∈ s'.stack, s'.owner t = s'.current)
    (hold : ∀ t, s.view.raw t ≠ .fresh → t ∉ s'.stack → s'.owner t = s.owner t) (ht : s'.view.raw t ≠ .fresh) :
    s'.view.start (s'.owner t) ≠ .coroutine ∧ s'.owner t < s'.created := by
  have hsw := moves_switch hs.tidy hm
  by_cases hmem : t ∈ s'.stack
  · rw [hrun t hmem]
    exact (hs.wf.switch hsw).current hmem
  · have hraw := (hsw.raw_new hs.wf ht).resolve_right hmem
    obtain ⟨hstart, hlt⟩ := h.home t hraw
    rw [hold t hraw hmem]
    exact ⟨(hsw.start_eq (Nat.ne_of_lt hlt)).symm ▸ hstart, Nat.lt_of_lt_of_le hlt hsw.created_le⟩

theorem Owned.of_owner (h : Owned s) (hs : Sound s) (hm : s.Moves a s') (howner : s'.owner = s.owner) (hcreated : s'.created = s.created)
    (hrun : ∀ t ∈ s'.stack, s'.owner t = s'.current) : Owned s' := by
  have hsw := moves_switch hs.tidy hm
  refine ⟨moves_kept h hs hm, fun f hf hstart => ?_, hrun,
    fun t => moves_home h hs hm hrun fun t _ _ => congrFun howner t, fun p co hp => ?_⟩
  · rw [hcreated] at hf
    rw [hsw.start_eq (Nat.ne_of_lt hf)] at hstart
    rw [howner]
    exact h.fiber f hf hstart
  · rcases hsw.target_new hp with hold | ⟨hpmem, hcomem⟩
    · rw [howner]
      exact h.linked p co hold
    · exact (hrun co hcomem).trans (hrun p hpmem).symm

theorem Owned.of_same (h : Owned s) (hs : Sound s) (hm : s.Moves a s') (howner : s'.owner = s.owner)
    (hcurrent : s'.current = s.current) (hcreated : s'.created = s.created) (hstack : ∀ t ∈ s'.stack, t ∈ s.stack) : Owned s' := by
  refine h.of_owner hs hm howner hcreated fun t ht => ?_
  rw [howner, hcurrent]
  exact h.running t (hstack t ht)

theorem Owned.step (h : Owned s) (hs : Sound s) (hm : s.Moves a s') : Owned s' := by
  have hsame : s'.owner = s.owner → s'.current = s.current → s'.created = s.created → (∀ t ∈ s'.stack, t ∈ s.stack) → Owned s' :=
    h.of_same hs hm
  have howned : s'.owner = s.owner → s'.created = s.created → (∀ t ∈ s'.stack, s'.owner t = s'.current) → Owned s' :=
    h.of_owner hs hm
  have hsw := moves_switch hs.tidy hm
  have hkept := moves_kept h hs hm
  have hhome : (∀ t ∈ s'.stack, s'.owner t = s'.current) → (∀ t, s.view.raw t ≠ .fresh → t ∉ s'.stack → s'.owner t = s.owner t) →
      ∀ t, s'.view.raw t ≠ .fresh → s'.view.start (s'.owner t) ≠ .coroutine ∧ s'.owner t < s'.created :=
    fun hrun hold t => moves_home h hs hm hrun hold
  cases hm with
  | @inside t rest p op c l n k native hcontrol hstack hdoes hnext hnative =>
      exact hsame (@owner_same s t (fun x => { x with cleanup := c }) rfl) rfl rfl fun _ ht => ht
  | @ended t rest o c l hcontrol hstack hdoes =>
      have howner := @owner_same s t (fun x => { x with cleanup := c }) rfl
      exact hsame ((owner_leave ..).trans howner) rfl rfl fun _ ht => hstack ▸ List.mem_cons_of_mem _ ht
  | passed hcontrol hstack htarget hnative =>
      exact hsame ((owner_leave ..).trans (owner_busy ..)) rfl rfl fun _ ht => hstack ▸ List.mem_cons_of_mem _ ht
  | returned hcontrol hstack hframes hown => exact hsame (owner_resumed ..) rfl rfl fun _ ht => ht
  | @continued t rest co hcontrol hstack htarget hraw =>
      have howns : s.owner co = s.current := (h.linked t co htarget).trans (h.running t (hstack ▸ List.mem_cons_self))
      have howner : ((s.setBusy co false).run co).owner = s.owner := by
        rw [owner_run, owner_busy]
        exact update_same howns.symm
      refine howned howner rfl fun x hx => ?_
      rw [howner]
      rcases List.mem_cons.mp hx with rfl | hx
      · exact howns
      · exact h.running x hx
  | lost hcontrol hstack hframes hraw => exact hsame ((owner_resumed ..).trans (owner_busy ..)) rfl rfl fun _ ht => ht
  | arrived hcontrol hstack htarget => exact hsame rfl rfl rfl fun _ ht => ht
  | @woken f hcontrol hf hfiber hraw =>
      have howner : (s.wake f).owner = s.owner := @owner_same s f (fun x => { x with raw := .running }) rfl
      refine howned howner rfl fun x hx => ?_
      obtain rfl := List.mem_singleton.mp hx
      rw [howner]
      exact h.fiber x hf hfiber
  | @added a t rest start l hcontrol hstack ha =>
      have howner : (s.add start l).owner = Function.update s.owner s.created s.created := Function.comp_update ..
      have hold : ∀ x, x ≠ s.created → (s.add start l).owner x = s.owner x := fun x hx => by
        rw [howner, Function.update_of_ne hx]
      have hrun : ∀ x ∈ s.stack, (s.add start l).owner x = s.current := fun x hx =>
        (hold x (hs.ne_created hx)).trans (h.running x hx)
      refine ⟨hkept, fun f hf hstart => ?_, hrun, hhome hrun fun x hx _ => hold x fun heq => hx ?_, fun p co hp => ?_⟩
      · rcases Nat.lt_succ_iff_lt_or_eq.mp hf with hlt | rfl
        · rw [hsw.start_eq (Nat.ne_of_lt hlt)] at hstart
          exact (hold f (Nat.ne_of_lt hlt)).trans (h.fiber f hlt hstart)
        · rw [howner, Function.update_self]
      · exact heq ▸ hs.wf.unborn s.created (Nat.le_refl _)
      · rcases hsw.target_new hp with hlink | ⟨hpmem, hcomem⟩
        · have hco := (hs.wf.inner p co hlink).2
          have hpc : p < s.created := hs.wf.unborn_of fun hfresh => by
            rcases hs.wf.calm p (by rw [hlink]; exact Option.some_ne_none co) with hraw | hraw <;> rw [hfresh] at hraw <;> cases hraw
          rw [hold co (Nat.ne_of_lt hco), hold p (Nat.ne_of_lt hpc)]
          exact h.linked p co hlink
        · exact (hrun co hcomem).trans (hrun p hpmem).symm
  | refused hcontrol hstack ha => exact hsame rfl rfl rfl fun _ ht => ht
  | @resumed t rest co hcontrol hstack hco hstart hbusy hraw =>
      have hmode : s.view.mode = .code := view_mode hcontrol
      have howner : ((s.setFrames t (.resuming co :: (s.threads t).cleanup.frames)).run co).owner = Function.update s.owner co s.current := by
        rw [owner_run, owner_frames]
        rfl
      have hidle : s.view.raw co ≠ .running := by
        change (s.threads co).raw ≠ .running
        rcases hraw with hraw | hraw <;> rw [hraw] <;> decide
      have hrun : ∀ x ∈ co :: s.stack, Function.update s.owner co s.current x = s.current := by
        intro x hx
        by_cases hxc : x = co
        · rw [hxc, Function.update_self]
        · rw [Function.update_of_ne hxc]
          exact h.running x ((List.mem_cons.mp hx).resolve_left hxc)
      refine ⟨hkept, fun f hf hnot => ?_, howner ▸ hrun, hhome (howner ▸ hrun) fun x _ hx => ?_, fun p c hp => ?_⟩
      · rw [hsw.start_eq (Nat.ne_of_lt hf)] at hnot
        have hfc : f ≠ co := by
          rintro rfl
          exact hnot hstart
        rw [howner, Function.update_of_ne hfc]
        exact h.fiber f hf hnot
      · have hxc : x ≠ co := fun heq => hx (heq ▸ List.mem_cons_self)
        rw [howner, Function.update_of_ne hxc]
      · rw [howner]
        rcases hsw.target_new hp with hlink | ⟨hpmem, hcomem⟩
        · -- The coroutine is in no call of `resume`, and waits for no other one.
          have hcc : c ≠ co := by
            rintro rfl
            exact hs.wf.free hmode hbusy hidle hlink
          have hpc : p ≠ co := by
            rintro rfl
            rcases hraw with hfresh | hsusp
            · rcases hs.wf.calm p (by rw [hlink]; exact Option.some_ne_none c) with hr | hr
              · exact hidle hr
              · change (s.threads p).raw = _ at hr
                rw [hfresh] at hr
                cases hr
            · have hb := h.kept.busy (by rw [hmode]; decide) (by rw [hlink]; exact Option.some_ne_none c) hsusp hstart
              change (s.threads p).busy = true at hb
              rw [hbusy] at hb
              cases hb
          rw [Function.update_of_ne hcc, Function.update_of_ne hpc]
          exact h.linked p c hlink
        · exact (hrun c hcomem).trans (hrun p hpmem).symm
  | unresumed hcontrol hstack hraw => exact hsame (owner_resumed ..) rfl rfl fun _ ht => ht
  | yielded hcontrol hstack hstart => exact hsame (owner_leave ..) rfl rfl fun _ ht => hstack ▸ List.mem_cons_of_mem _ ht
  | suspended hcontrol hstack => exact hsame (owner_leave ..) rfl rfl fun _ ht => hstack ▸ List.mem_cons_of_mem _ ht
  | interrupted hcontrol hstack => exact hsame rfl rfl rfl fun _ ht => ht

theorem start_owned : Owned .start where
  kept p hp := absurd rfl hp
  fiber f hf _ := (Nat.lt_one_iff.mp hf).symm
  running t ht := by cases ht
  home t ht := absurd rfl ht
  linked p co hp := by cases hp

theorem Reached.owned (hs : Reached s) : Owned s := by
  have hboth := hs.invariant (I := fun s => Sound s ∧ Owned s) (fun _ h => h ▸ ⟨start_sound, start_owned⟩)
    fun _ _ _ h hstep => ⟨h.1.step hstep, h.2.step h.1 (State.step_moves hstep)⟩
  exact hboth.2

/-- The thread that was just resumed goes on with its call of `resume`. -/
def State.Continues (s : State) (co : Thread) : Prop := s.control = .entered ∧ ∃ t rest, s.stack = t :: rest ∧ s.target t = some co

/-- A busy coroutine is left alone by every other step. -/
theorem busy_alone (h : Sound s) (hbusy : (s.threads co).busy = true) (hstep : Step s a s') (hno : ¬ s.Continues co) :
    s'.threads co = s.threads co := by
  have hheld := h.wf.held co hbusy
  have htop : ∀ {t rest}, s.stack = t :: rest → co ≠ t := by
    rintro t rest hstack rfl
    rw [h.wf.top hstack] at hheld
    rcases hheld with hheld | hheld <;> cases hheld
  have hm := State.step_moves hstep
  cases hm with
  | inside native hcontrol hstack hdoes hnext hnative => exact Function.update_of_ne (htop hstack) _ _
  | ended hcontrol hstack hdoes =>
      exact (Function.update_of_ne (htop hstack) _ _).trans (Function.update_of_ne (htop hstack) _ _)
  | @passed t rest c hcontrol hstack htarget hnative =>
      have hne : co ≠ c := by
        -- Only one thread is in a call of `resume` of the coroutine, and it is suspended.
        rintro rfl
        obtain ⟨p, hp, hraw | ⟨hmode, -⟩⟩ := (h.wf.busy co).mp hbusy
        · obtain rfl := h.wf.single p t co hp htarget
          rw [h.wf.top hstack] at hraw
          cases hraw
        · rw [view_mode hcontrol] at hmode
          cases hmode
      exact (Function.update_of_ne (htop hstack) _ _).trans (Function.update_of_ne hne _ _)
  | returned hcontrol hstack hframes hown => exact Function.update_of_ne (htop hstack) _ _
  | @continued t rest c hcontrol hstack htarget hraw =>
      have hne : co ≠ c := by
        rintro rfl
        exact hno ⟨hcontrol, t, rest, hstack, htarget⟩
      exact (Function.update_of_ne hne _ _).trans (Function.update_of_ne hne _ _)
  | @lost t rest c fs hcontrol hstack hframes hraw =>
      have hne : co ≠ c := by
        rintro rfl
        exact hno ⟨hcontrol, t, rest, hstack, State.target_resuming hframes⟩
      exact (Function.update_of_ne (htop hstack) _ _).trans (Function.update_of_ne hne _ _)
  | arrived hcontrol hstack htarget => rfl
  | @woken f hcontrol hf hfiber hraw =>
      refine Function.update_of_ne ?_ _ _
      rintro rfl
      obtain ⟨p, hp, -⟩ := (h.wf.busy co).mp hbusy
      exact hfiber (h.wf.inner p co hp).1
  | added hcontrol hstack ha =>
      refine Function.update_of_ne ?_ _ _
      rintro rfl
      have hfresh := h.wf.unborn s.created (Nat.le_refl _)
      rw [hfresh] at hheld
      rcases hheld with hheld | hheld <;> cases hheld
  | refused hcontrol hstack ha => rfl
  | @resumed t rest c hcontrol hstack hc hstart hfree hraw =>
      have hne : co ≠ c := by
        rintro rfl
        rw [hfree] at hbusy
        cases hbusy
      exact (Function.update_of_ne hne _ _).trans (Function.update_of_ne (htop hstack) _ _)
  | unresumed hcontrol hstack hraw => exact Function.update_of_ne (htop hstack) _ _
  | yielded hcontrol hstack hstart => exact Function.update_of_ne (htop hstack) _ _
  | suspended hcontrol hstack => exact Function.update_of_ne (htop hstack) _ _
  | interrupted hcontrol hstack => rfl

/-- Its own fiber clears the mark. -/
theorem continues_clears (h : Owned s) (hs : Sound s) (hstep : Step s a s') (hc : s.Continues co) :
    a = .code .tick ∧ s.owner co = s.current ∧ (s'.threads co).busy = false := by
  obtain ⟨hcontrol, t, rest, hstack, htarget⟩ := hc
  have howner := (h.linked t co htarget).trans (h.running t (hstack ▸ List.mem_cons_self))
  have hm := State.step_moves hstep
  cases hm with
  | @continued t' rest' c _ hstack' htarget' hraw =>
      rw [hstack] at hstack'
      cases hstack'
      rw [htarget] at htarget'
      cases htarget'
      refine ⟨rfl, howner, ?_⟩
      have hview := view_run (s.setBusy co false) co
      rw [view_busy] at hview
      exact (congrFun (congrArg View.busy hview) co).trans (Function.update_self ..)
  | @lost t' rest' c fs _ hstack' hframes hraw =>
      rw [hstack] at hstack'
      cases hstack'
      have htarget' := State.target_resuming hframes
      rw [htarget] at htarget'
      cases htarget'
      refine ⟨rfl, howner, ?_⟩
      have hview := view_resumed (s.setBusy co false) t (orderly_tail (hs.orderly t) hframes)
      rw [view_busy] at hview
      exact (congrFun (congrArg View.busy hview) co).trans (Function.update_self ..)
  | arrived _ hstack' htarget' =>
      rw [hstack] at hstack'
      cases hstack'
      rw [htarget] at htarget'
      cases htarget'
  | inside _ hother | ended hother | passed hother | returned hother | woken hother | added hother | refused hother
  | resumed hother | unresumed hother | yielded hother | suspended hother | interrupted hother =>
      rw [hcontrol] at hother
      cases hother

/-- A fiber that is suspended stays so until it is run by the runtime. -/
theorem Switch.waits {v v' : View} {f : Thread} (hs : Switch v v') (hwf : Wf v) (hraw : v.raw f = .suspended)
    (hfiber : v.start f ≠ .coroutine) : v'.raw f = .suspended ∨ (v.mode = .idle ∧ v'.stack = [f]) := by
  have hne : ∀ {x r}, f ≠ x → Function.update v.raw x r f = .suspended := fun hfx => (Function.update_of_ne hfx _ _).trans hraw
  have hrunning : ∀ {x rest}, v.stack = x :: rest → f ≠ x := by
    rintro x rest hstack rfl
    rw [hwf.top hstack] at hraw
    cases hraw
  cases hs with
  | stay _ _ | back _ _ _ | lose _ _ _ _ => exact .inl hraw
  | leave _ hstack _ | pass _ hstack _ => exact .inl (hne (hrunning hstack))
  | @proceed t rest c _ _ htarget =>
      refine .inl (hne ?_)
      rintro rfl
      exact hfiber (hwf.inner t _ htarget).1
  | @wake g hmode _ _ _ =>
      by_cases hfg : f = g
      · exact .inr ⟨hmode, by rw [hfg]⟩
      · exact .inl (hne hfg)
  | add _ =>
      refine .inl (hne ?_)
      rintro rfl
      rw [hwf.unborn v.created (Nat.le_refl _)] at hraw
      cases hraw
  | resume _ _ _ hstart _ _ =>
      refine .inl (hne ?_)
      rintro rfl
      exact hfiber hstart

theorem step_waits {f : Thread} (h : Sound s) (hstep : Step s a s') (ha : a ≠ .wake f) (hraw : s.view.raw f = .suspended)
    (hfiber : s.view.start f ≠ .coroutine) : s'.view.raw f = .suspended := by
  have hm := State.step_moves hstep
  refine ((moves_switch h.tidy hm).waits h.wf hraw hfiber).resolve_right fun ⟨hmode, hstack⟩ => ?_
  cases hm with
  | @woken g hcontrol hg hother hfree =>
      have hgf : g = f := List.singleton_injective hstack
      exact ha (by rw [hgf])
  | inside _ hcontrol | ended hcontrol | passed hcontrol | returned hcontrol | continued hcontrol | lost hcontrol | arrived hcontrol
  | added hcontrol | refused hcontrol | resumed hcontrol | unresumed hcontrol | yielded hcontrol | suspended hcontrol
  | interrupted hcontrol =>
      rw [view_mode hcontrol] at hmode
      cases hmode

/-- While the fiber that has suspended it is not run, a busy coroutine stays as it is. -/
theorem busy_others (hs : Reached s) (hbusy : (s.threads co).busy = true) (hraw : s.view.raw (s.owner co) = .suspended)
    (hrun : Others (s.owner co) s s') : Reached s' ∧ s'.threads co = s.threads co ∧ s'.view.raw (s.owner co) = .suspended := by
  induction hrun with
  | refl => exact ⟨hs, rfl, hraw⟩
  | @tail s₁ s₂ _ hstep ih =>
      obtain ⟨hs₁, hsame, hraw₁⟩ := ih
      obtain ⟨a, ha, hstep⟩ := hstep
      have howner : s₁.owner co = s.owner co := congrArg LuaThread.owner hsame
      have hbusy₁ : (s₁.threads co).busy = true := by rw [hsame, hbusy]
      have hfiber := (hs₁.owned.home co (by
        rcases hs₁.sound.wf.held co hbusy₁ with hheld | hheld <;> rw [hheld] <;> decide)).1
      rw [howner] at hfiber
      have hno : ¬ s₁.Continues co := by
        -- The fiber at work is running.
        intro hc
        have hcur := (continues_clears hs₁.owned hs₁.sound hstep hc).2.1
        obtain ⟨-, t, rest, hstack, -⟩ := hc
        rw [howner] at hcur
        have hrun : s₁.view.raw s₁.current = .running := hs₁.sound.wf.current_running (hstack ▸ List.mem_cons_self)
        rw [hcur, hrun] at hraw₁
        cases hraw₁
      exact ⟨hs₁.step hstep, (busy_alone hs₁.sound hbusy₁ hstep hno).trans hsame, step_waits hs₁.sound hstep ha hraw₁ hfiber⟩

theorem step_act (hcontrol : s.control = .code .user) (hstack : s.stack = t :: rest) (ha : (∀ op, a ≠ .code op) ∧ ∀ f, a ≠ .wake f) :
    s.step a = s.act t rest a := by
  cases a with
  | code op => exact absurd rfl (ha.1 op)
  | wake f => exact absurd rfl (ha.2 f)
  | _ =>
      simp only [State.step, hcontrol, hstack]

theorem control_entered (h : s.view.mode = .entered) : s.control = .entered := by
  change s.control.mode = .entered at h
  cases hc : s.control <;> rw [hc] at h <;> cases h

/-- The coroutine of one fiber is suspended, and another fiber is at work. -/
def suspendedCoroutine : List Action :=
  [.wake 0, .code .tick, .spawn, .create, .resume 2, .code .tick, .suspend true, .code .tick, .wake 1, .code .tick]

end

end Emilua.Coroutines
