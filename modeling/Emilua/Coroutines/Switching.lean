import Emilua.Coroutines.Machine

/-!
Who resumes whom. Of the machine only the switches between threads are looked at:
a chain of threads is on the C stack, a thread that is natively suspended keeps
its place in the `resume` of another one, and `busy` has just those.
-/
namespace Emilua.Coroutines

/-! The code of a thread leaves its calls of `resume` alone. -/

namespace Cleanup

/-- No call of `resume`. -/
def Plain (c : Cleanup) : Prop := ∀ co, Frame.resuming co ∉ c.frames

/-- Only the innermost call may be one of `resume`. -/
def Orderly (c : Cleanup) : Prop := ∀ co, Frame.resuming co ∉ c.frames.tail

variable {c c' : Cleanup} {l l' : Level} {start : Start} {p : Phase} {op : Op} {n : Next}

theorem Plain.target (h : c.Plain) : c.target = none := by
  rw [Cleanup.target]
  split
  · rename_i co fs hframes
    exact absurd (hframes ▸ List.mem_cons_self) (h co)
  · rfl

theorem Plain.orderly (h : c.Plain) : c.Orderly := fun co hmem => h co (List.mem_of_mem_tail hmem)

theorem Orderly.plain (h : c.Orderly) (htarget : c.target = none) : c.Plain := by
  intro co hmem
  rw [Cleanup.target] at htarget
  cases hframes : c.frames with
  | nil =>
      rw [hframes] at hmem
      cases hmem
  | cons f fs =>
      rw [hframes] at htarget hmem
      rcases List.mem_cons.mp hmem with rfl | hmem
      · cases htarget
      · have hno := h co
        rw [hframes] at hno
        exact hno hmem

theorem Restores.plain {fs : List Frame} (hr : c.Restores l fs p c' l' n) (hfs : ∀ co, Frame.resuming co ∉ fs) : c'.Plain := by
  cases hr with
  | restored _ | refused _ => exact hfs

theorem Does.plain (hd : c.Does l start p op c' l' n) (h : c.Plain) : c'.Plain := by
  cases hd with
  | interrupted | push | unmatched | drop | disable | error | handled | failed | ended => exact h
  | call | pop =>
      intro co hmem
      rcases List.mem_cons.mp hmem with hmem | hmem
      · cases hmem
      · exact h co hmem
  | restore hr => exact hr.plain h
  | body _ _ hframes _ =>
      intro co hmem
      cases List.mem_singleton.mp hmem
  | guarded _ _ hframes _ | next hframes | nextOfRoot hframes _ _ =>
      intro co hmem
      rcases List.mem_cons.mp hmem with hmem | hmem
      · cases hmem
      · exact h co (hframes ▸ List.mem_cons_of_mem _ hmem)
  | popped hframes hr | unwound hframes hr =>
      exact hr.plain fun co hmem => h co (hframes ▸ List.mem_cons_of_mem _ hmem)

end Cleanup

/-! The view of the switches. -/

inductive Mode where
  | code
  | returned
  | entered
  | idle
  | closed
deriving DecidableEq, Repr

def Control.mode : Control → Mode
  | .code _ => .code
  | .returned _ => .returned
  | .entered => .entered
  | .idle => .idle
  | .closed => .closed

structure View where
  raw : Thread → Raw
  busy : Thread → Bool
  target : Thread → Option Thread
  start : Thread → Start
  created : Nat
  stack : List Thread
  current : Thread
  mode : Mode

def State.view (s : State) : View :=
  ⟨LuaThread.raw ∘ s.threads, LuaThread.busy ∘ s.threads, (Cleanup.target ∘ LuaThread.cleanup) ∘ s.threads,
    LuaThread.start ∘ s.threads, s.created, s.stack, s.current, s.control.mode⟩

def backMode (rest : List Thread) : Mode := if rest = [] then .idle else .returned

inductive Switch (v : View) : View → Prop where
  | stay {m} (hcode : v.mode = .code ∨ (v.mode = .entered ∧ ∃ t rest, v.stack = t :: rest ∧ v.target t = none))
      (hm : m = .code ∨ m = .closed) : Switch v { v with mode := m }
  | leave {t rest r} (hcode : v.mode = .code) (hstack : v.stack = t :: rest) (hr : r = .suspended ∨ r = .dead) :
      Switch v { v with raw := Function.update v.raw t r, stack := rest, mode := backMode rest }
  | pass {t rest co} (hmode : v.mode = .returned) (hstack : v.stack = t :: rest) (htarget : v.target t = some co) :
      Switch v { v with busy := Function.update v.busy co true, raw := Function.update v.raw t .suspended, stack := rest, mode := backMode rest }
  | back {t rest co} (hmode : v.mode = .returned) (hstack : v.stack = t :: rest) (htarget : v.target t = some co) :
      Switch v { v with target := Function.update v.target t none, mode := .code }
  | proceed {t rest co} (hmode : v.mode = .entered) (hstack : v.stack = t :: rest) (htarget : v.target t = some co) :
      Switch v { v with busy := Function.update v.busy co false, raw := Function.update v.raw co .running, stack := co :: v.stack, mode := .entered }
  | lose {t rest co} (hmode : v.mode = .entered) (hstack : v.stack = t :: rest) (htarget : v.target t = some co)
      (hraw : v.raw co ≠ .suspended) :
      Switch v { v with busy := Function.update v.busy co false, target := Function.update v.target t none, mode := .code }
  | wake {f} (hmode : v.mode = .idle) (hf : f < v.created) (hfiber : v.start f ≠ .coroutine) (hraw : v.raw f ≠ .dead) :
      Switch v { v with raw := Function.update v.raw f .running, stack := [f], current := f, mode := .entered }
  | add {start} (hmode : v.mode = .code) : Switch v { v with
      raw := Function.update v.raw v.created .fresh, busy := Function.update v.busy v.created false, target := Function.update v.target v.created none,
      start := Function.update v.start v.created start, created := v.created + 1 }
  | resume {t rest co} (hmode : v.mode = .code) (hstack : v.stack = t :: rest) (hco : co < v.created) (hstart : v.start co = .coroutine)
      (hbusy : v.busy co = false) (hraw : v.raw co = .fresh ∨ v.raw co = .suspended) :
      Switch v { v with target := Function.update v.target t (some co), raw := Function.update v.raw co .running, stack := co :: v.stack, mode := .entered }

/-! Every step is a switch, as long as no thread is in two calls of `resume`. -/

/-- Calls of `resume` are innermost, and the code at work is in none. -/
structure Tidy (s : State) : Prop where
  orderly : ∀ t, (s.threads t).cleanup.Orderly
  code : ∀ p, s.control = .code p → ∃ t rest, s.stack = t :: rest ∧ s.target t = none

section
variable {s s' : State} {t co : Thread} {rest : List Thread}

theorem leave_control (s : State) (t : Thread) (r : Raw) (rest : List Thread) (ok : Bool) :
    (s.leave t r rest ok).control.mode = backMode rest := by
  rw [State.leave, backMode]
  split <;> rfl

theorem orderly_tail {c : Cleanup} {fs : List Frame} (h : c.Orderly) (hframes : c.frames = .resuming co :: fs) :
    ∀ co', Frame.resuming co' ∉ fs := by
  intro co' hmem
  have hno := h co'
  rw [hframes] at hno
  exact hno hmem

theorem target_plain {c : Cleanup} {fs : List Frame} (h : ∀ co, Frame.resuming co ∉ fs) :
    ({ c with frames := fs } : Cleanup).target = none := Cleanup.Plain.target h

theorem update_same {α β : Type} [DecidableEq α] {f : α → β} {a : α} {b : β} (h : b = f a) : Function.update f a b = f := by
  rw [h, Function.update_eq_self]

theorem view_update (s : State) (t : Thread) {f : LuaThread → LuaThread} (hstart : (f (s.threads t)).start = (s.threads t).start) :
    (s.update t f).view = { s.view with
      raw := Function.update s.view.raw t (f (s.threads t)).raw
      busy := Function.update s.view.busy t (f (s.threads t)).busy
      target := Function.update s.view.target t (f (s.threads t)).cleanup.target } := by
  have hsame : Function.update s.view.start t (f (s.threads t)).start = s.view.start := update_same hstart
  simp only [State.update, State.view, Function.comp_update] at hsame ⊢
  rw [hsame]
  rfl

theorem view_raw (s : State) (t : Thread) (r : Raw) : (s.setRaw t r).view = { s.view with raw := Function.update s.view.raw t r } := by
  have hb : Function.update s.view.busy t (s.threads t).busy = s.view.busy := update_same rfl
  have ht : Function.update s.view.target t (s.threads t).cleanup.target = s.view.target := update_same rfl
  rw [State.setRaw, view_update _ _ rfl, hb, ht]

theorem view_busy (s : State) (t : Thread) (b : Bool) : (s.setBusy t b).view = { s.view with busy := Function.update s.view.busy t b } := by
  have hr : Function.update s.view.raw t (s.threads t).raw = s.view.raw := update_same rfl
  have ht : Function.update s.view.target t (s.threads t).cleanup.target = s.view.target := update_same rfl
  rw [State.setBusy, view_update _ _ rfl, hr, ht]

theorem view_frames (s : State) (t : Thread) {fs : List Frame} {target : Option Thread}
    (htarget : ({ (s.threads t).cleanup with frames := fs } : Cleanup).target = target) :
    (s.setFrames t fs).view = { s.view with target := Function.update s.view.target t target } := by
  have hr : Function.update s.view.raw t (s.threads t).raw = s.view.raw := update_same rfl
  have hb : Function.update s.view.busy t (s.threads t).busy = s.view.busy := update_same rfl
  rw [State.setFrames, view_update _ _ rfl, hr, hb, htarget]

theorem view_leave (s : State) (t : Thread) (r : Raw) (rest : List Thread) (ok : Bool) : (s.leave t r rest ok).view =
    { s.view with raw := Function.update s.view.raw t r, stack := rest, mode := backMode rest } := by
  have hmode := leave_control s t r rest ok
  have hraw := view_raw s t r
  rw [State.leave] at hmode ⊢
  simp only [State.view] at hraw ⊢
  rw [hmode]
  simp only [View.mk.injEq] at hraw ⊢
  obtain ⟨hr, hb, ht, hs, hc, -, hcur, -⟩ := hraw
  exact ⟨hr, hb, ht, hs, hc, trivial, hcur, trivial⟩

theorem view_run (s : State) (co : Thread) : (s.run co).view =
    { s.view with raw := Function.update s.view.raw co .running, stack := co :: s.view.stack, mode := .entered } := by
  have hupdate := @view_update s co (fun x => { x with raw := .running, owner := s.current }) rfl
  rw [State.run]
  simp only [State.view] at hupdate ⊢
  simp only [View.mk.injEq] at hupdate ⊢
  obtain ⟨hr, hb, ht, hs, hc, -, hcur, -⟩ := hupdate
  exact ⟨hr, hb.trans (update_same rfl), ht.trans (update_same rfl), hs, hc, trivial, hcur, rfl⟩

theorem view_did {c : Cleanup} {l : Level} {net : Int} (htarget : c.target = s.target t) (m : Control) (b : Bool) :
    ({ s.did t c l net with native := b, control := m } : State).view = { s.view with mode := m.mode } := by
  have hupdate := @view_update s t (fun x => { x with cleanup := c }) rfl
  simp only [State.view, State.did] at hupdate ⊢
  simp only [View.mk.injEq] at hupdate ⊢
  obtain ⟨hr, hb, ht, hs, hc, hstack, hcur, -⟩ := hupdate
  exact ⟨hr.trans (update_same rfl), hb.trans (update_same rfl), ht.trans (update_same htarget), hs, hc, hstack, hcur, trivial⟩

theorem view_resumed (s : State) (t : Thread) {fs : List Frame} (hfs : ∀ co, Frame.resuming co ∉ fs) :
    (s.resumed t fs).view = { s.view with target := Function.update s.view.target t none, mode := .code } := by
  have hframes := @view_frames s t fs none (target_plain hfs)
  rw [State.resumed]
  simp only [State.view] at hframes ⊢
  simp only [View.mk.injEq] at hframes ⊢
  obtain ⟨hr, hb, ht, hs, hc, hstack, hcur, -⟩ := hframes
  exact ⟨hr, hb, ht, hs, hc, hstack, hcur, rfl⟩

theorem Tidy.plain (h : Tidy s) {p : Phase} (hcontrol : s.control = .code p) (hstack : s.stack = t :: rest) :
    (s.threads t).cleanup.Plain := by
  obtain ⟨t', rest', hstack', htarget⟩ := h.code p hcontrol
  rw [hstack] at hstack'
  cases hstack'
  exact (h.orderly t).plain htarget

theorem raw_ne_dead {r : Raw} (h : r = .fresh ∨ r = .suspended) : r ≠ .dead := by
  rcases h with rfl | rfl <;> decide

theorem view_mode {m : Control} (h : s.control = m) : s.view.mode = m.mode := congrArg Control.mode h

theorem moves_switch {a : Action} (htidy : Tidy s) (hm : s.Moves a s') : Switch s.view s'.view := by
  cases hm with
  | inside native hcontrol hstack hdoes hnext hnative =>
      have hplain := htidy.plain hcontrol hstack
      rw [view_did ((hdoes.plain hplain).target.trans hplain.target.symm)]
      refine .stay (.inl (view_mode hcontrol)) ?_
      rcases hnext with ⟨q, -, rfl⟩ | ⟨-, rfl⟩
      · exact .inl rfl
      · exact .inr rfl
  | @ended t rest o c l hcontrol hstack hdoes =>
      have hplain := htidy.plain hcontrol hstack
      have hview := @view_did s t c l (s.fibers s.current).net ((hdoes.plain hplain).target.trans hplain.target.symm)
        s.control s.native
      change (s.did t c l (s.fibers s.current).net).view = s.view at hview
      rw [view_leave, hview]
      exact .leave (view_mode hcontrol) hstack (.inr rfl)
  | passed hcontrol hstack htarget hnative =>
      rw [view_leave, view_busy]
      exact .pass (view_mode hcontrol) hstack htarget
  | returned hcontrol hstack hframes hown =>
      rw [view_resumed _ _ (orderly_tail (htidy.orderly _) hframes)]
      exact .back (view_mode hcontrol) hstack (State.target_resuming hframes)
  | continued hcontrol hstack htarget hraw =>
      rw [view_run, view_busy]
      exact .proceed (view_mode hcontrol) hstack htarget
  | lost hcontrol hstack hframes hraw =>
      rw [view_resumed _ _ (orderly_tail (htidy.orderly _) hframes), view_busy]
      refine .lose (view_mode hcontrol) hstack (State.target_resuming hframes) fun hsusp => ?_
      change (s.threads _).raw = .suspended at hsusp
      rw [hsusp] at hraw
      rcases hraw with hraw | hraw <;> cases hraw
  | arrived hcontrol hstack htarget => exact .stay (.inr ⟨view_mode hcontrol, _, _, hstack, htarget⟩) (.inl rfl)
  | @woken f hcontrol hf hfiber hraw =>
      have hview : (s.wake f).view = { s.view with
          raw := Function.update s.view.raw f .running, stack := [f], current := f, mode := .entered } := by
        have hrun := view_raw s f .running
        rw [State.wake]
        simp only [State.view, State.setRaw] at hrun ⊢
        simp only [View.mk.injEq] at hrun ⊢
        obtain ⟨hr, hb, ht, hs, hc, -, -, -⟩ := hrun
        exact ⟨hr, hb, ht, hs, hc, trivial, trivial, rfl⟩
      rw [hview]
      exact .wake (view_mode hcontrol) hf hfiber (raw_ne_dead hraw)
  | @added a t rest start l hcontrol hstack ha =>
      have hview : (s.add start l).view = { s.view with
          raw := Function.update s.view.raw s.created .fresh, busy := Function.update s.view.busy s.created false
          target := Function.update s.view.target s.created none, start := Function.update s.view.start s.created start
          created := s.created + 1 } := by
        simp only [State.add, State.view, Function.comp_update]
        rfl
      rw [hview]
      exact .add (view_mode hcontrol)
  | refused hcontrol hstack ha => exact .stay (.inl (view_mode hcontrol)) (.inl rfl)
  | @resumed t rest co hcontrol hstack hco hstart hbusy hraw =>
      have htarget : ({ (s.threads t).cleanup with frames := .resuming co :: (s.threads t).cleanup.frames } : Cleanup).target =
        some co := rfl
      rw [view_run, view_frames _ _ htarget]
      exact .resume (view_mode hcontrol) hstack hco hstart hbusy hraw
  | @unresumed t rest co hcontrol hstack hraw =>
      have hplain := htidy.plain hcontrol hstack
      have hsame : Function.update s.view.target t none = s.view.target := update_same hplain.target.symm
      rw [view_resumed _ _ hplain, hsame]
      exact .stay (.inl (view_mode hcontrol)) (.inl rfl)
  | yielded hcontrol hstack hstart =>
      rw [view_leave]
      exact .leave (v := s.view) (view_mode hcontrol) hstack (.inl rfl)
  | suspended hcontrol hstack =>
      rw [view_leave]
      exact .leave (view_mode hcontrol) hstack (.inl rfl)
  | interrupted hcontrol hstack => exact .stay (m := s.control.mode) (.inl (view_mode hcontrol)) (.inl (view_mode hcontrol))

end

/-! What holds between switches. -/

/-- Which thread is on top of the C stack, and why. -/
def View.Headed (v : View) : Prop :=
  match v.mode with
  | .code => ∃ t rest, v.stack = t :: rest ∧ v.target t = none
  | .returned => ∃ t rest co, v.stack = t :: rest ∧ v.target t = some co ∧ (v.raw co = .suspended ∨ v.raw co = .dead)
  | .entered => v.stack ≠ []
  | .idle => v.stack = []
  | .closed => True

/-- A thread that is natively suspended in a call of `resume`, or that goes on
with it. -/
def View.Keeps (v : View) (p co : Thread) : Prop :=
  v.target p = some co ∧ (v.raw p = .suspended ∨ (v.mode = .entered ∧ v.stack.head? = some p))

structure Wf (v : View) : Prop where
  nodup : v.stack.Nodup
  running : ∀ t, v.raw t = .running ↔ t ∈ v.stack
  linked : v.stack.IsChain fun t p => v.target p = some t
  calm : ∀ t, v.target t ≠ none → v.raw t = .running ∨ v.raw t = .suspended
  single : ∀ p q co, v.target p = some co → v.target q = some co → p = q
  inner : ∀ p co, v.target p = some co → v.start co = .coroutine ∧ co < v.created
  unborn : ∀ t, v.created ≤ t → v.raw t = .fresh
  base : ∀ t, v.stack.getLast? = some t → t = v.current ∧ v.start t ≠ .coroutine
  busy : ∀ co, v.busy co = true ↔ ∃ p, v.Keeps p co
  held : ∀ co, v.busy co = true → v.raw co = .suspended ∨ v.raw co = .dead
  headed : v.Headed

section
variable {v v' : View} {t co : Thread} {rest : List Thread}

theorem Wf.stay {m : Mode} (h : Wf v) (hcode : v.mode = .code ∨ (v.mode = .entered ∧ ∃ t rest, v.stack = t :: rest ∧ v.target t = none))
    (hm : m = .code ∨ m = .closed) : Wf { v with mode := m } := by
  have hstack : ∃ t rest, v.stack = t :: rest ∧ v.target t = none := by
    rcases hcode with hcode | ⟨-, hstack⟩
    · have hheaded := h.headed
      rw [View.Headed, hcode] at hheaded
      exact hheaded
    · exact hstack
  refine ⟨h.nodup, h.running, h.linked, h.calm, h.single, h.inner, h.unborn, h.base, fun co => ?_, h.held, ?_⟩
  · rw [h.busy co]
    constructor
    · rintro ⟨p, htarget, hraw | ⟨hmode, hhead⟩⟩
      · exact ⟨p, htarget, .inl hraw⟩
      · obtain ⟨t, rest, hst, hnone⟩ := hstack
        rw [hst, List.head?_cons, Option.some.injEq] at hhead
        rw [hhead, htarget] at hnone
        cases hnone
    · rintro ⟨p, htarget, hraw | ⟨hmode, hhead⟩⟩
      · exact ⟨p, htarget, .inl hraw⟩
      · rcases hm with rfl | rfl <;> cases hmode
  · rcases hm with rfl | rfl
    · exact hstack
    · trivial

theorem backMode_ne (rest : List Thread) : backMode rest ≠ .entered ∧ backMode rest ≠ .code := by
  rw [backMode]
  split <;> decide

/-- The thread on top leaves. -/
theorem Wf.running_leave (h : Wf v) (hstack : v.stack = t :: rest) {r : Raw} (hr : r = .suspended ∨ r = .dead) (x : Thread) :
    Function.update v.raw t r x = .running ↔ x ∈ rest := by
  have hnodup := h.nodup
  rw [hstack, List.nodup_cons] at hnodup
  by_cases hx : x = t
  · subst hx
    rw [Function.update_self]
    refine ⟨fun hrun => ?_, fun hmem => absurd hmem hnodup.1⟩
    rcases hr with rfl | rfl <;> cases hrun
  · rw [Function.update_of_ne hx, h.running, hstack, List.mem_cons]
    exact ⟨fun hmem => hmem.resolve_left hx, .inr⟩

theorem Wf.base_leave (h : Wf v) (hstack : v.stack = t :: rest) (x : Thread) (hx : rest.getLast? = some x) :
    x = v.current ∧ v.start x ≠ .coroutine := by
  refine h.base x ?_
  rw [hstack, List.getLast?_cons, hx]
  rfl

theorem Wf.unborn_of (h : Wf v) {x : Thread} (hx : v.raw x ≠ .fresh) : x < v.created := by
  by_contra hle
  exact hx (h.unborn x (Nat.le_of_not_lt hle))

theorem Wf.unborn_leave (h : Wf v) (hstack : v.stack = t :: rest) (r : Raw) (x : Thread) (hx : v.created ≤ x) :
    Function.update v.raw t r x = .fresh := by
  have hrun : v.raw t = .running := (h.running t).mpr (hstack ▸ List.mem_cons_self)
  have ht : t < v.created := h.unborn_of (by rw [hrun]; decide)
  rw [Function.update_of_ne (Nat.ne_of_gt (Nat.lt_of_lt_of_le ht hx))]
  exact h.unborn x hx

/-- Whom the thread that leaves goes back to. -/
theorem Wf.headed_leave (h : Wf v) (hstack : v.stack = t :: rest) {raw : Thread → Raw} {target : Thread → Option Thread}
    (hraw : raw t = .suspended ∨ raw t = .dead) (htarget : ∀ p, p ≠ t → target p = v.target p) {w : View}
    (hw : w.stack = rest ∧ w.mode = backMode rest ∧ w.raw = raw ∧ w.target = target) : w.Headed := by
  obtain ⟨hws, hwm, hwr, hwt⟩ := hw
  rw [View.Headed, hwm, backMode, hws, hwr, hwt]
  have hlinked := h.linked
  have hnodup := h.nodup
  rw [hstack] at hlinked hnodup
  cases rest with
  | nil => rfl
  | cons p rest =>
      rw [if_neg (List.cons_ne_nil _ _)]
      have hne : p ≠ t := fun heq => (List.nodup_cons.mp hnodup).1 (heq ▸ List.mem_cons_self)
      exact ⟨p, rest, t, rfl, (htarget p hne).trans (List.isChain_cons_cons.mp hlinked).1, hraw⟩

theorem Wf.leave {r : Raw} (h : Wf v) (hcode : v.mode = .code) (hstack : v.stack = t :: rest) (hr : r = .suspended ∨ r = .dead) :
    Wf { v with raw := Function.update v.raw t r, stack := rest, mode := backMode rest } := by
  have hnodup := h.nodup
  have hlinked := h.linked
  rw [hstack] at hnodup hlinked
  have hnone : v.target t = none := by
    have hheaded := h.headed
    rw [View.Headed, hcode] at hheaded
    obtain ⟨t', rest', hstack', htarget⟩ := hheaded
    rw [hstack] at hstack'
    cases hstack'
    exact htarget
  have hne : ∀ {p co}, v.target p = some co → p ≠ t := by
    intro p co hp heq
    rw [heq, hnone] at hp
    cases hp
  refine ⟨(List.nodup_cons.mp hnodup).2, h.running_leave hstack hr, hlinked.tail, fun p hp => ?_, h.single, h.inner,
    h.unborn_leave hstack r, h.base_leave hstack, fun co => ?_, fun co hbusy => ?_, ?_⟩
  · obtain ⟨co, hco⟩ := Option.ne_none_iff_exists'.mp hp
    change Function.update v.raw t r p = _ ∨ Function.update v.raw t r p = _
    rw [Function.update_of_ne (hne hco)]
    exact h.calm p hp
  · rw [h.busy co]
    constructor
    · rintro ⟨p, htarget, hraw | ⟨hmode, -⟩⟩
      · exact ⟨p, htarget, .inl ((Function.update_of_ne (hne htarget) _ _).trans hraw)⟩
      · rw [hcode] at hmode
        cases hmode
    · rintro ⟨p, htarget, hraw | ⟨hmode, -⟩⟩
      · change Function.update v.raw t r p = _ at hraw
        rw [Function.update_of_ne (hne htarget)] at hraw
        exact ⟨p, htarget, .inl hraw⟩
      · exact absurd hmode (backMode_ne rest).1
  · by_cases hco : co = t
    · subst hco
      change Function.update v.raw co r co = _ ∨ Function.update v.raw co r co = _
      rw [Function.update_self]
      exact hr
    · change Function.update v.raw t r co = _ ∨ Function.update v.raw t r co = _
      rw [Function.update_of_ne hco]
      exact h.held co hbusy
  · refine @Wf.headed_leave v t rest h hstack (Function.update v.raw t r) v.target ?_ (fun _ _ => rfl) _ ⟨rfl, rfl, rfl, rfl⟩
    rw [Function.update_self]
    exact hr

/-- What `returned` says of the thread on top. -/
theorem Wf.returned (h : Wf v) (hmode : v.mode = .returned) (hstack : v.stack = t :: rest) (htarget : v.target t = some co) :
    v.raw co = .suspended ∨ v.raw co = .dead := by
  have hheaded := h.headed
  rw [View.Headed, hmode] at hheaded
  obtain ⟨t', rest', co', hstack', htarget', hraw⟩ := hheaded
  rw [hstack] at hstack'
  cases hstack'
  rw [htarget] at htarget'
  cases htarget'
  exact hraw

theorem Wf.pass (h : Wf v) (hmode : v.mode = .returned) (hstack : v.stack = t :: rest) (htarget : v.target t = some co) :
    Wf { v with
      busy := Function.update v.busy co true, raw := Function.update v.raw t .suspended, stack := rest, mode := backMode rest } := by
  have hnodup := h.nodup
  have hlinked := h.linked
  rw [hstack] at hnodup hlinked
  have hco := h.returned hmode hstack htarget
  have hrun : v.raw t = .running := (h.running t).mpr (hstack ▸ List.mem_cons_self)
  have hstill : ∀ x, v.raw x = .suspended ∨ v.raw x = .dead →
      Function.update v.raw t .suspended x = .suspended ∨ Function.update v.raw t .suspended x = .dead := by
    intro x hx
    by_cases hxt : x = t
    · rw [hxt, Function.update_self]
      exact .inl rfl
    · rwa [Function.update_of_ne hxt]
  refine ⟨(List.nodup_cons.mp hnodup).2, h.running_leave hstack (.inl rfl), hlinked.tail, fun p hp => ?_, h.single, h.inner,
    h.unborn_leave hstack _, h.base_leave hstack, fun x => ?_, fun x hbusy => ?_, ?_⟩
  · change Function.update v.raw t .suspended p = _ ∨ Function.update v.raw t .suspended p = _
    by_cases hpt : p = t
    · rw [hpt, Function.update_self]
      exact .inr rfl
    · rw [Function.update_of_ne hpt]
      exact h.calm p hp
  · by_cases hx : x = co
    · subst hx
      change Function.update v.busy x true x = true ↔ _
      rw [Function.update_self]
      exact ⟨fun _ => ⟨t, htarget, .inl (Function.update_self ..)⟩, fun _ => rfl⟩
    · change Function.update v.busy co true x = true ↔ _
      rw [Function.update_of_ne hx, h.busy x]
      constructor
      · rintro ⟨p, hp, hraw | ⟨hentered, -⟩⟩
        · have hpt : p ≠ t := by
            rintro rfl
            rw [hrun] at hraw
            cases hraw
          exact ⟨p, hp, .inl ((Function.update_of_ne hpt _ _).trans hraw)⟩
        · rw [hmode] at hentered
          cases hentered
      · rintro ⟨p, hp, hraw | ⟨hentered, -⟩⟩
        · have hpt : p ≠ t := by
            rintro rfl
            change v.target p = some x at hp
            rw [htarget] at hp
            exact hx (Option.some.inj hp).symm
          change Function.update v.raw t .suspended p = _ at hraw
          rw [Function.update_of_ne hpt] at hraw
          exact ⟨p, hp, .inl hraw⟩
        · exact absurd hentered (backMode_ne rest).1
  · apply hstill
    by_cases hx : x = co
    · exact hx ▸ hco
    · change Function.update v.busy co true x = true at hbusy
      rw [Function.update_of_ne hx] at hbusy
      exact h.held x hbusy
  · refine @Wf.headed_leave v t rest h hstack (Function.update v.raw t .suspended) v.target ?_ (fun _ _ => rfl) _
      ⟨rfl, rfl, rfl, rfl⟩
    rw [Function.update_self]
    exact .inl rfl

theorem Wf.top (h : Wf v) (hstack : v.stack = t :: rest) : v.raw t = .running :=
  (h.running t).mpr (hstack ▸ List.mem_cons_self)

/-- The calls of `resume` on the C stack are those of the threads on it. -/
theorem Wf.linked_update (h : Wf v) (hstack : v.stack = t :: rest) (o : Option Thread) :
    v.stack.IsChain fun x p => Function.update v.target t o p = some x := by
  have hnodup := h.nodup
  have hlinked := h.linked
  rw [hstack] at hnodup hlinked ⊢
  refine hlinked.imp_of_mem_tail_imp fun x p _ hp hx => ?_
  have hne : p ≠ t := fun heq => (List.nodup_cons.mp hnodup).1 (heq ▸ hp)
  rw [Function.update_of_ne hne]
  exact hx

theorem Wf.mem_linked (h : Wf v) {p : Thread} (hstack : v.stack = t :: rest) (hp : p ∈ rest) : ∃ x ∈ v.stack, v.target p = some x := by
  have hlinked := h.linked
  rw [hstack] at hlinked ⊢
  clear hstack
  induction rest generalizing t with
  | nil => cases hp
  | cons q rest ih =>
      rw [List.isChain_cons_cons] at hlinked
      rcases List.mem_cons.mp hp with rfl | hp
      · exact ⟨t, List.mem_cons_self, hlinked.1⟩
      · obtain ⟨x, hx, htarget⟩ := ih hp hlinked.2
        exact ⟨x, List.mem_cons_of_mem _ hx, htarget⟩

theorem Wf.back (h : Wf v) (hmode : v.mode = .returned) (hstack : v.stack = t :: rest) :
    Wf { v with target := Function.update v.target t none, mode := .code } := by
  have hne : ∀ {p x}, Function.update v.target t none p = some x → p ≠ t ∧ v.target p = some x := by
    intro p x hp
    by_cases hpt : p = t
    · rw [hpt, Function.update_self] at hp
      cases hp
    · rw [Function.update_of_ne hpt] at hp
      exact ⟨hpt, hp⟩
  have hrun := h.top hstack
  refine ⟨h.nodup, h.running, h.linked_update hstack none, fun p hp => ?_, fun p q x hp hq => h.single p q x (hne hp).2 (hne hq).2,
    fun p x hp => h.inner p x (hne hp).2, h.unborn, h.base, fun x => ?_, h.held, ⟨t, rest, hstack, Function.update_self ..⟩⟩
  · obtain ⟨x, hx⟩ := Option.ne_none_iff_exists'.mp hp
    exact h.calm p (by rw [(hne hx).2]; exact Option.some_ne_none x)
  · rw [h.busy x]
    constructor
    · rintro ⟨p, hp, hraw | ⟨hentered, -⟩⟩
      · have hpt : p ≠ t := by
          rintro rfl
          rw [hrun] at hraw
          cases hraw
        exact ⟨p, (Function.update_of_ne hpt _ _).trans hp, .inl hraw⟩
      · rw [hmode] at hentered
        cases hentered
    · rintro ⟨p, hp, hraw | ⟨hentered, -⟩⟩
      · exact ⟨p, (hne hp).2, .inl hraw⟩
      · cases hentered

theorem Wf.proceed (h : Wf v) (hmode : v.mode = .entered) (hstack : v.stack = t :: rest) (htarget : v.target t = some co) :
    Wf { v with
      busy := Function.update v.busy co false, raw := Function.update v.raw co .running, stack := co :: v.stack, mode := .entered } := by
  have hheld := h.held co ((h.busy co).mpr ⟨t, htarget, .inr ⟨hmode, by rw [hstack]; rfl⟩⟩)
  have hco : co ∉ v.stack := by
    intro hmem
    rw [← h.running] at hmem
    rw [hmem] at hheld
    rcases hheld with hheld | hheld <;> cases hheld
  have hborn := (h.inner t co htarget).2
  refine ⟨List.nodup_cons.mpr ⟨hco, h.nodup⟩, fun x => ?_, ?_, fun p hp => ?_, h.single, h.inner, fun x hx => ?_, fun x hx => ?_,
    fun x => ?_, fun x hbusy => ?_, List.cons_ne_nil _ _⟩
  · by_cases hx : x = co
    · rw [hx]
      exact ⟨fun _ => List.mem_cons_self, fun _ => Function.update_self ..⟩
    · change Function.update v.raw co .running x = .running ↔ _
      rw [Function.update_of_ne hx, h.running, List.mem_cons]
      exact ⟨.inr, fun hmem => hmem.resolve_left hx⟩
  · have hlinked := h.linked
    rw [hstack] at hlinked ⊢
    exact List.isChain_cons_cons.mpr ⟨htarget, hlinked⟩
  · by_cases hpc : p = co
    · exact .inl (hpc ▸ Function.update_self ..)
    · change Function.update v.raw co .running p = _ ∨ Function.update v.raw co .running p = _
      rw [Function.update_of_ne hpc]
      exact h.calm p hp
  · exact (Function.update_of_ne (Nat.ne_of_gt (Nat.lt_of_lt_of_le hborn hx)) _ _).trans (h.unborn x hx)
  · refine h.base x ?_
    rw [hstack] at hx ⊢
    exact hx
  · by_cases hx : x = co
    · subst hx
      refine ⟨fun hbusy => ?_, ?_⟩
      · change Function.update v.busy x false x = true at hbusy
        rw [Function.update_self] at hbusy
        cases hbusy
      · rintro ⟨p, hp, hraw | ⟨-, hhead⟩⟩
        · obtain rfl := h.single p t x hp htarget
          have hne : p ≠ x := fun heq => hco (heq ▸ hstack ▸ List.mem_cons_self)
          change Function.update v.raw x .running p = _ at hraw
          rw [Function.update_of_ne hne, h.top hstack] at hraw
          cases hraw
        · obtain rfl := h.single p t x hp htarget
          exact absurd (hstack ▸ List.mem_cons_self) (Option.some.inj hhead ▸ hco)
    · change Function.update v.busy co false x = true ↔ _
      rw [Function.update_of_ne hx, h.busy x]
      constructor
      · rintro ⟨p, hp, hraw | ⟨-, hhead⟩⟩
        · by_cases hpc : p = co
          · exact ⟨p, hp, .inr ⟨rfl, by rw [hpc]; rfl⟩⟩
          · exact ⟨p, hp, .inl ((Function.update_of_ne hpc _ _).trans hraw)⟩
        · rw [hstack] at hhead
          obtain rfl := Option.some.inj hhead
          rw [htarget] at hp
          exact absurd (Option.some.inj hp).symm hx
      · rintro ⟨p, hp, hraw | ⟨-, hhead⟩⟩
        · have hpc : p ≠ co := by
            rintro rfl
            change Function.update v.raw p .running p = _ at hraw
            rw [Function.update_self] at hraw
            cases hraw
          exact ⟨p, hp, .inl ((Function.update_of_ne hpc _ _).symm.trans hraw)⟩
        · obtain rfl := Option.some.inj hhead
          refine ⟨co, hp, .inl ?_⟩
          refine (h.calm co (by rw [show v.target co = some x from hp]; exact Option.some_ne_none x)).resolve_left fun hrun => ?_
          exact hco ((h.running co).mp hrun)
  · have hx : x ≠ co := by
      rintro rfl
      change Function.update v.busy x false x = true at hbusy
      rw [Function.update_self] at hbusy
      cases hbusy
    change Function.update v.busy co false x = true at hbusy
    rw [Function.update_of_ne hx] at hbusy
    change Function.update v.raw co .running x = _ ∨ Function.update v.raw co .running x = _
    rw [Function.update_of_ne hx]
    exact h.held x hbusy

theorem Wf.lose (h : Wf v) (hstack : v.stack = t :: rest) (htarget : v.target t = some co) :
    Wf { v with busy := Function.update v.busy co false, target := Function.update v.target t none, mode := .code } := by
  have hne : ∀ {p x}, Function.update v.target t none p = some x → p ≠ t ∧ v.target p = some x := by
    intro p x hp
    by_cases hpt : p = t
    · rw [hpt, Function.update_self] at hp
      cases hp
    · rw [Function.update_of_ne hpt] at hp
      exact ⟨hpt, hp⟩
  have hbusy : ∀ {x}, Function.update v.busy co false x = true → x ≠ co ∧ v.busy x = true := by
    intro x hx
    by_cases hxc : x = co
    · rw [hxc, Function.update_self] at hx
      cases hx
    · rw [Function.update_of_ne hxc] at hx
      exact ⟨hxc, hx⟩
  have hrun := h.top hstack
  refine ⟨h.nodup, h.running, h.linked_update hstack none, fun p hp => ?_, fun p q x hp hq => h.single p q x (hne hp).2 (hne hq).2,
    fun p x hp => h.inner p x (hne hp).2, h.unborn, h.base, fun x => ⟨fun hx => ?_, ?_⟩, fun x hx => h.held x (hbusy hx).2,
    ⟨t, rest, hstack, Function.update_self ..⟩⟩
  · obtain ⟨x, hx⟩ := Option.ne_none_iff_exists'.mp hp
    exact h.calm p (by rw [(hne hx).2]; exact Option.some_ne_none x)
  · obtain ⟨p, hp, hraw | ⟨-, hhead⟩⟩ := (h.busy x).mp (hbusy hx).2
    · have hpt : p ≠ t := by
        rintro rfl
        rw [hrun] at hraw
        cases hraw
      exact ⟨p, (Function.update_of_ne hpt _ _).trans hp, .inl hraw⟩
    · rw [hstack] at hhead
      obtain rfl := Option.some.inj hhead
      rw [htarget] at hp
      exact absurd (Option.some.inj hp).symm (hbusy hx).1
  · rintro ⟨p, hp, hraw | ⟨hentered, -⟩⟩
    · have hx : x ≠ co := by
        rintro rfl
        exact (hne hp).1 (h.single p t x (hne hp).2 htarget)
      exact (Function.update_of_ne hx _ _).trans ((h.busy x).mpr ⟨p, (hne hp).2, .inl hraw⟩)
    · cases hentered

theorem Wf.wake {f : Thread} (h : Wf v) (hmode : v.mode = .idle) (hf : f < v.created) (hfiber : v.start f ≠ .coroutine) :
    Wf { v with raw := Function.update v.raw f .running, stack := [f], current := f, mode := .entered } := by
  have hempty : v.stack = [] := by
    have hheaded := h.headed
    rw [View.Headed, hmode] at hheaded
    exact hheaded
  have hno : ∀ x, v.raw x ≠ .running := by
    intro x hx
    rw [h.running, hempty] at hx
    cases hx
  have hsuspended : ∀ p x, v.target p = some x → v.raw p = .suspended := by
    intro p x hp
    exact (h.calm p (by rw [hp]; exact Option.some_ne_none x)).resolve_left (hno p)
  refine ⟨List.nodup_singleton f, fun x => ?_, List.isChain_singleton f, fun p hp => ?_, h.single, h.inner, fun x hx => ?_,
    fun x hx => ?_, fun x => ?_, fun x hbusy => ?_, List.cons_ne_nil _ _⟩
  · change Function.update v.raw f .running x = .running ↔ _
    by_cases hx : x = f
    · rw [hx, Function.update_self]
      exact ⟨fun _ => List.mem_singleton_self f, fun _ => rfl⟩
    · rw [Function.update_of_ne hx, List.mem_singleton]
      exact ⟨fun hrun => absurd hrun (hno x), fun heq => absurd heq hx⟩
  · by_cases hpf : p = f
    · exact .inl (hpf ▸ Function.update_self ..)
    · change Function.update v.raw f .running p = _ ∨ Function.update v.raw f .running p = _
      rw [Function.update_of_ne hpf]
      exact h.calm p hp
  · exact (Function.update_of_ne (Nat.ne_of_gt (Nat.lt_of_lt_of_le hf hx)) _ _).trans (h.unborn x hx)
  · obtain rfl : f = x := Option.some.inj hx
    exact ⟨rfl, hfiber⟩
  · rw [h.busy x]
    constructor
    · rintro ⟨p, hp, -⟩
      by_cases hpf : p = f
      · exact ⟨p, hp, .inr ⟨rfl, by rw [hpf]; rfl⟩⟩
      · exact ⟨p, hp, .inl ((Function.update_of_ne hpf _ _).trans (hsuspended p x hp))⟩
    · rintro ⟨p, hp, -⟩
      exact ⟨p, hp, .inl (hsuspended p x hp)⟩
  · have hx : x ≠ f := by
      rintro rfl
      obtain ⟨p, hp, -⟩ := (h.busy x).mp hbusy
      exact hfiber (h.inner p x hp).1
    change Function.update v.raw f .running x = _ ∨ Function.update v.raw f .running x = _
    rw [Function.update_of_ne hx]
    exact h.held x hbusy

theorem Wf.add {start : Start} (h : Wf v) (hmode : v.mode = .code) : Wf { v with
    raw := Function.update v.raw v.created .fresh, busy := Function.update v.busy v.created false
    target := Function.update v.target v.created none, start := Function.update v.start v.created start, created := v.created + 1 } := by
  have hfresh := h.unborn v.created (Nat.le_refl _)
  have htarget : v.target v.created = none := by
    by_contra hsome
    rcases h.calm _ hsome with hraw | hraw <;> rw [hfresh] at hraw <;> cases hraw
  have hbusy : v.busy v.created = false := by
    rw [Bool.eq_false_iff]
    intro hbusy
    rcases h.held _ hbusy with hraw | hraw <;> rw [hfresh] at hraw <;> cases hraw
  rw [update_same hfresh.symm, update_same hbusy.symm, update_same htarget.symm]
  refine ⟨h.nodup, h.running, h.linked, h.calm, h.single, fun p co hp => ?_, fun x hx => h.unborn x (Nat.le_of_succ_le hx),
    fun x hx => ?_, fun x => ?_, h.held, ?_⟩
  · obtain ⟨hstart, hlt⟩ := h.inner p co hp
    exact ⟨(Function.update_of_ne (Nat.ne_of_lt hlt) _ _).trans hstart, Nat.lt_succ_of_lt hlt⟩
  · have hrun : v.raw x = .running := (h.running x).mpr (List.mem_of_getLast? hx)
    have hne : x ≠ v.created := by
      rintro rfl
      rw [hfresh] at hrun
      cases hrun
    obtain ⟨hcur, hstart⟩ := h.base x hx
    refine ⟨hcur, ?_⟩
    change Function.update v.start v.created start x ≠ _
    rwa [Function.update_of_ne hne]
  · exact h.busy x
  · have hheaded := h.headed
    rw [View.Headed, hmode] at hheaded
    rw [View.Headed]
    simp only [hmode]
    exact hheaded

theorem Wf.resume (h : Wf v) (hmode : v.mode = .code) (hstack : v.stack = t :: rest) (hco : co < v.created)
    (hstart : v.start co = .coroutine) (hbusy : v.busy co = false) (hraw : v.raw co = .fresh ∨ v.raw co = .suspended) :
    Wf { v with
      target := Function.update v.target t (some co), raw := Function.update v.raw co .running, stack := co :: v.stack, mode := .entered } := by
  have hrun := h.top hstack
  have hnone : v.target t = none := by
    have hheaded := h.headed
    rw [View.Headed, hmode] at hheaded
    obtain ⟨t', rest', hstack', htarget⟩ := hheaded
    rw [hstack] at hstack'
    cases hstack'
    exact htarget
  have hout : co ∉ v.stack := by
    intro hmem
    rw [← h.running] at hmem
    rw [hmem] at hraw
    rcases hraw with hraw | hraw <;> cases hraw
  have hct : t ≠ co := fun heq => hout (heq ▸ hstack ▸ List.mem_cons_self)
  have hcases : ∀ {p x}, Function.update v.target t (some co) p = some x → (p = t ∧ x = co) ∨ (p ≠ t ∧ v.target p = some x) := by
    intro p x hp
    by_cases hpt : p = t
    · rw [hpt, Function.update_self] at hp
      exact .inl ⟨hpt, (Option.some.inj hp).symm⟩
    · rw [Function.update_of_ne hpt] at hp
      exact .inr ⟨hpt, hp⟩
  -- `co` is in no call of `resume`: a thread that were in one would be on the stack, or `co` busy.
  have hfree : ∀ p, v.target p ≠ some co := by
    intro p hp
    rcases h.calm p (by rw [hp]; exact Option.some_ne_none co) with hpraw | hpraw
    · have hmem := (h.running p).mp hpraw
      rw [hstack] at hmem
      rcases List.mem_cons.mp hmem with rfl | hmem
      · rw [hnone] at hp
        cases hp
      · obtain ⟨x, hx, hpx⟩ := h.mem_linked hstack hmem
        rw [hp] at hpx
        exact hout (Option.some.inj hpx ▸ hx)
    · have hb := (h.busy co).mpr ⟨p, hp, .inl hpraw⟩
      rw [hbusy] at hb
      cases hb
  refine ⟨List.nodup_cons.mpr ⟨hout, h.nodup⟩, fun x => ?_, ?_, fun p hp => ?_, fun p q x hp hq => ?_, fun p x hp => ?_,
    fun x hx => ?_, fun x hx => ?_, fun x => ?_, fun x hx => ?_, List.cons_ne_nil _ _⟩
  · by_cases hx : x = co
    · rw [hx]
      exact ⟨fun _ => List.mem_cons_self, fun _ => Function.update_self ..⟩
    · change Function.update v.raw co .running x = .running ↔ _
      rw [Function.update_of_ne hx, h.running, List.mem_cons]
      exact ⟨.inr, fun hmem => hmem.resolve_left hx⟩
  · have hlinked := h.linked_update hstack (some co)
    rw [hstack] at hlinked ⊢
    exact List.isChain_cons_cons.mpr ⟨Function.update_self .., hlinked⟩
  · change Function.update v.raw co .running p = _ ∨ Function.update v.raw co .running p = _
    by_cases hpc : p = co
    · exact .inl (hpc ▸ Function.update_self ..)
    · rw [Function.update_of_ne hpc]
      obtain ⟨x, hx⟩ := Option.ne_none_iff_exists'.mp hp
      rcases hcases hx with ⟨rfl, -⟩ | ⟨-, hold⟩
      · exact .inl hrun
      · exact h.calm p (by rw [hold]; exact Option.some_ne_none x)
  · rcases hcases hp with ⟨rfl, rfl⟩ | ⟨hpt, hold⟩
    · rcases hcases hq with ⟨rfl, -⟩ | ⟨-, hold'⟩
      · rfl
      · exact absurd hold' (hfree q)
    · rcases hcases hq with ⟨rfl, rfl⟩ | ⟨-, hold'⟩
      · exact absurd hold (hfree p)
      · exact h.single p q x hold hold'
  · rcases hcases hp with ⟨-, rfl⟩ | ⟨-, hold⟩
    · exact ⟨hstart, hco⟩
    · exact h.inner p x hold
  · exact (Function.update_of_ne (Nat.ne_of_gt (Nat.lt_of_lt_of_le hco hx)) _ _).trans (h.unborn x hx)
  · refine h.base x ?_
    rw [hstack] at hx ⊢
    exact hx
  · rw [h.busy x]
    constructor
    · rintro ⟨p, hp, hpraw | ⟨hentered, -⟩⟩
      · have hpt : p ≠ t := by
          rintro rfl
          rw [hrun] at hpraw
          cases hpraw
        have hkept := (Function.update_of_ne hpt (some co) v.target).trans hp
        by_cases hpc : p = co
        · exact ⟨p, hkept, .inr ⟨rfl, by rw [hpc]; rfl⟩⟩
        · exact ⟨p, hkept, .inl ((Function.update_of_ne hpc _ _).trans hpraw)⟩
      · rw [hmode] at hentered
        cases hentered
    · rintro ⟨p, hp, hpraw⟩
      have hpt : p ≠ t := by
        rintro rfl
        rcases hpraw with hpraw | ⟨-, hhead⟩
        · change Function.update v.raw co .running p = _ at hpraw
          rw [Function.update_of_ne hct, hrun] at hpraw
          cases hpraw
        · exact hct (Option.some.inj hhead).symm
      have hold : v.target p = some x := (Function.update_of_ne hpt _ _).symm.trans hp
      refine ⟨p, hold, .inl ?_⟩
      refine (h.calm p (by rw [hold]; exact Option.some_ne_none x)).resolve_left fun hprun => ?_
      rcases hpraw with hpraw | ⟨-, hhead⟩
      · have hpc : p ≠ co := fun heq => hout (heq ▸ (h.running p).mp hprun)
        change Function.update v.raw co .running p = _ at hpraw
        rw [Function.update_of_ne hpc, hprun] at hpraw
        cases hpraw
      · exact hout (Option.some.inj hhead ▸ (h.running p).mp hprun)
  · have hxc : x ≠ co := by
      rintro rfl
      change v.busy x = true at hx
      rw [hbusy] at hx
      cases hx
    change Function.update v.raw co .running x = _ ∨ Function.update v.raw co .running x = _
    rw [Function.update_of_ne hxc]
    exact h.held x hx

theorem Wf.switch (h : Wf v) (hs : Switch v v') : Wf v' := by
  cases hs with
  | stay hcode hm => exact h.stay hcode hm
  | leave hcode hstack hr => exact h.leave hcode hstack hr
  | pass hmode hstack htarget => exact h.pass hmode hstack htarget
  | back hmode hstack htarget => exact h.back hmode hstack
  | proceed hmode hstack htarget => exact h.proceed hmode hstack htarget
  | lose hmode hstack htarget hraw => exact h.lose hstack htarget
  | wake hmode hf hfiber hraw => exact h.wake hmode hf hfiber
  | add hmode => exact h.add hmode
  | resume hmode hstack hco hstart hbusy hraw => exact h.resume hmode hstack hco hstart hbusy hraw

end

/-! What a step does to the calls and scopes of the threads. -/

def State.cleanups (s : State) : Thread → Cleanup := LuaThread.cleanup ∘ s.threads

inductive Touches (s : State) (a : Action) : (Thread → Cleanup) → Prop where
  | none : Touches s a s.cleanups
  | does {t rest p op c l n} (ha : a = .code op) (hcontrol : s.control = .code p) (hstack : s.stack = t :: rest)
      (hdoes : (s.threads t).cleanup.Does (s.fibers s.current).level (s.threads t).start p op c l n) :
      Touches s a (Function.update s.cleanups t c)
  | pushed {t rest} (co) (hcontrol : s.control = .code .user) (hstack : s.stack = t :: rest) :
      Touches s a (Function.update s.cleanups t { (s.threads t).cleanup with frames := .resuming co :: (s.threads t).cleanup.frames })
  | popped {t rest co fs} (hstack : s.stack = t :: rest) (hframes : (s.threads t).cleanup.frames = .resuming co :: fs) :
      Touches s a (Function.update s.cleanups t { (s.threads t).cleanup with frames := fs })
  | born : Touches s a (Function.update s.cleanups s.created .init)

section
variable {s s' : State} {t co : Thread} {rest : List Thread}

theorem cleanups_update (s : State) (t : Thread) (f : LuaThread → LuaThread) :
    (s.update t f).cleanups = Function.update s.cleanups t (f (s.threads t)).cleanup := Function.comp_update ..

theorem cleanups_same (s : State) (t : Thread) {f : LuaThread → LuaThread} (hf : (f (s.threads t)).cleanup = (s.threads t).cleanup) :
    (s.update t f).cleanups = s.cleanups := (cleanups_update s t f).trans (update_same hf)

theorem cleanups_leave (s : State) (t : Thread) (r : Raw) (rest : List Thread) (ok : Bool) : (s.leave t r rest ok).cleanups = s.cleanups :=
  @cleanups_same s t (fun x => { x with raw := r }) rfl

theorem cleanups_busy (s : State) (t : Thread) (b : Bool) : (s.setBusy t b).cleanups = s.cleanups := cleanups_same s t rfl

theorem cleanups_run (s : State) (co : Thread) : (s.run co).cleanups = s.cleanups :=
  @cleanups_same s co (fun x => { x with raw := .running, owner := s.current }) rfl

theorem moves_touches {a : Action} (hm : s.Moves a s') : Touches s a s'.cleanups := by
  cases hm with
  | @inside t rest p op c l n k native hcontrol hstack hdoes hnext hnative =>
      have hsame := cleanups_update s t fun x => { x with cleanup := c }
      change Touches s _ (s.update t fun x => { x with cleanup := c }).cleanups
      rw [hsame]
      exact .does rfl hcontrol hstack hdoes
  | @ended t rest o c l hcontrol hstack hdoes =>
      have hsame := cleanups_update s t fun x => { x with cleanup := c }
      rw [cleanups_leave]
      change Touches s _ (s.update t fun x => { x with cleanup := c }).cleanups
      rw [hsame]
      exact .does rfl hcontrol hstack hdoes
  | passed hcontrol hstack htarget hnative =>
      rw [cleanups_leave, cleanups_busy]
      exact .none
  | @returned t rest ok co fs hcontrol hstack hframes hown =>
      have hsame := cleanups_update s t fun x => { x with cleanup := { x.cleanup with frames := fs } }
      change Touches s _ (s.setFrames t fs).cleanups
      rw [State.setFrames, hsame]
      exact .popped hstack hframes
  | continued hcontrol hstack htarget hraw =>
      rw [cleanups_run, cleanups_busy]
      exact .none
  | @lost t rest co fs hcontrol hstack hframes hraw =>
      have hsame := cleanups_update (s.setBusy co false) t fun x => { x with cleanup := { x.cleanup with frames := fs } }
      have hthread : ((s.setBusy co false).threads t).cleanup = (s.threads t).cleanup := congrFun (cleanups_busy s co false) t
      change Touches s _ ((s.setBusy co false).setFrames t fs).cleanups
      rw [State.setFrames, hsame, cleanups_busy, hthread]
      exact .popped hstack hframes
  | arrived hcontrol hstack htarget => exact .none
  | @woken f hcontrol hf hfiber hraw =>
      have hsame := @cleanups_same s f (fun x => { x with raw := .running }) rfl
      change Touches s _ (s.update f fun x => { x with raw := .running }).cleanups
      rw [hsame]
      exact .none
  | @added a t rest start l hcontrol hstack ha =>
      have hsame : (s.add start l).cleanups = Function.update s.cleanups s.created .init := Function.comp_update ..
      rw [hsame]
      exact .born
  | refused hcontrol hstack ha => exact .none
  | @resumed t rest co hcontrol hstack hco hstart hbusy hraw =>
      have hsame := cleanups_update s t fun x =>
        { x with cleanup := { x.cleanup with frames := .resuming co :: (s.threads t).cleanup.frames } }
      rw [cleanups_run, State.setFrames, hsame]
      exact .pushed co hcontrol hstack
  | @unresumed t rest co hcontrol hstack hraw =>
      have hsame := @cleanups_same s t (fun x => { x with cleanup := { x.cleanup with frames := (s.threads t).cleanup.frames } }) rfl
      change Touches s _ (s.setFrames t (s.threads t).cleanup.frames).cleanups
      rw [State.setFrames, hsame]
      exact .none
  | yielded hcontrol hstack hstart =>
      rw [cleanups_leave]
      exact .none
  | suspended hcontrol hstack =>
      rw [cleanups_leave]
      exact .none
  | interrupted hcontrol hstack => exact .none

/-! The same of the machine. -/

structure Sound (s : State) : Prop where
  orderly : ∀ t, (s.threads t).cleanup.Orderly
  wf : Wf s.view

theorem Sound.tidy (h : Sound s) : Tidy s where
  orderly := h.orderly
  code p hcontrol := by
    have hheaded := h.wf.headed
    rw [View.Headed, view_mode hcontrol] at hheaded
    exact hheaded

theorem start_sound : Sound State.start where
  orderly _ _ hmem := by cases hmem
  wf := by
    refine ⟨List.nodup_nil, fun t => ⟨fun hrun => ?_, fun hmem => ?_⟩, List.isChain_nil, fun p hp => absurd rfl hp,
      fun p q co hp => ?_, fun p co hp => ?_, fun _ _ => rfl, fun t ht => ?_, fun co => ⟨fun hbusy => ?_, ?_⟩, fun co hbusy => ?_, rfl⟩
    · cases hrun
    · cases hmem
    · cases hp
    · cases hp
    · cases ht
    · cases hbusy
    · rintro ⟨p, hp, -⟩
      cases hp
    · cases hbusy

theorem Sound.touched (h : Sound s) {a : Action} {cs : Thread → Cleanup} (ht : Touches s a cs) (x : Thread) : (cs x).Orderly := by
  have hold : ∀ {t c}, c.Orderly → (Function.update s.cleanups t c x).Orderly := by
    intro t c hc
    by_cases hx : x = t
    · rw [hx, Function.update_self]
      exact hc
    · rw [Function.update_of_ne hx]
      exact h.orderly x
  cases ht with
  | none => exact h.orderly x
  | does _ hcontrol hstack hdoes => exact hold (hdoes.plain (h.tidy.plain hcontrol hstack)).orderly
  | pushed co hcontrol hstack => exact hold (h.tidy.plain hcontrol hstack)
  | popped hstack hframes => exact hold (Cleanup.Plain.orderly (orderly_tail (h.orderly _) hframes))
  | born => exact hold fun co hmem => by cases hmem

theorem Sound.step {a : Action} (h : Sound s) (hstep : Step s a s') : Sound s' where
  orderly := h.touched (moves_touches (State.step_moves hstep))
  wf := h.wf.switch (moves_switch h.tidy (State.step_moves hstep))

theorem Reached.sound (hs : Reached s) : Sound s :=
  hs.invariant (fun _ h => h ▸ start_sound) fun _ _ _ h hstep => h.step hstep

end

end Emilua.Coroutines
