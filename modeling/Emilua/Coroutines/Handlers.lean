import Emilua.Coroutines.Endings

/-!
What becomes of cleanup handlers. Every handler that was pushed waits, was popped,
or was run once, and none waits when its thread has come to its end: provided that
no handler of a root scope pushes to the list that is being walked or pops from it.
-/
namespace Emilua.Coroutines
open Transition Relation

/-- The handlers that are still to run when the calls are left one after the other,
in that order. -/
inductive Awaits : List Frame → List (List Handler) → List Handler → Prop where
  | root (hs) : Awaits [] [hs] hs.reverse
  | ending (o) {hs i} (hi : i ≤ hs.length) : Awaits [.ending o i] [hs] (hs.take i).reverse
  | guarded (g) {fs ss ws} (hs) (h : Awaits fs ss ws) : Awaits (.guarded g :: fs) (hs :: ss) (hs.reverse ++ ws)
  | unwinding (g o) {fs ss ws} (hs) (h : Awaits fs ss ws) : Awaits (.unwinding g o hs :: fs) ss (hs ++ ws)
  | popping {fs ss ws} (h : Awaits fs ss ws) : Awaits (.popping :: fs) ss ws
  | resuming (co) {fs ss ws} (h : Awaits fs ss ws) : Awaits (.resuming co :: fs) ss ws

def Op.Edits : Op → Bool
  | .push | .pop _ => true
  | _ => false

def Frame.walks : Frame → Bool
  | .ending _ _ => true
  | _ => false

/-- The operation does not change the list of handlers of the root scope while that
is walked. -/
def Cleanup.Apart (c : Cleanup) (op : Op) : Prop := op.Edits = true → c.scopes.length = 1 → ∀ f ∈ c.frames, f.walks = false

instance (c : Cleanup) (op : Op) : Decidable (c.Apart op) := inferInstanceAs (Decidable (_ → _ → _))

/-- What a step does to the handlers that wait. Exits run the first one; the code
pushes and pops in the innermost scope that is open, so `inner` waits in calls that
are being left. -/
inductive Turn (ws : List Handler) (c : Cleanup) (ws' : List Handler) (c' : Cleanup) : Prop where
  | none (hws : ws' = ws) (hnext : c'.next = c.next) (hran : c'.ran = c.ran) (hdropped : c'.dropped = c.dropped)
  | pushed (inner outer : List Handler) (hws : ws = inner ++ outer) (hws' : ws' = inner ++ c.next :: outer)
      (hnext : c'.next = c.next + 1) (hran : c'.ran = c.ran) (hdropped : c'.dropped = c.dropped)
  | ran (h : Handler) (hws : ws = h :: ws') (hnext : c'.next = c.next) (hran : c'.ran = h :: c.ran) (hdropped : c'.dropped = c.dropped)
  | popped (h : Handler) (inner outer : List Handler) (hws : ws = inner ++ h :: outer) (hws' : ws' = inner ++ outer)
      (hnext : c'.next = c.next) (hkept : (c'.ran = h :: c.ran ∧ c'.dropped = c.dropped) ∨ (c'.ran = c.ran ∧ c'.dropped = h :: c.dropped))

section
variable {c c' : Cleanup} {l l' : Level} {start : Start} {p : Phase} {op : Op} {n : Next} {ws ws' : List Handler}

/-- The innermost open scope may be replaced, unless it is the root scope that is walked. -/
theorem Awaits.innermost {fs : List Frame} {hs : List Handler} {ss : List (List Handler)} (h : Awaits fs (hs :: ss) ws)
    (hapart : (hs :: ss).length = 1 → ∀ f ∈ fs, f.walks = false) :
    ∃ inner outer, ws = inner ++ (hs.reverse ++ outer) ∧ ∀ hs', Awaits fs (hs' :: ss) (inner ++ (hs'.reverse ++ outer)) := by
  generalize hscopes : hs :: ss = scopes at h hapart
  induction h with
  | root hs' =>
      cases hscopes
      refine ⟨[], [], by simp, fun hs' => ?_⟩
      simpa using Awaits.root hs'
  | @ending o hs' i hi => cases hapart rfl _ List.mem_cons_self
  | guarded g hs' h ih =>
      cases hscopes
      exact ⟨[], _, rfl, fun hs' => .guarded g hs' h⟩
  | unwinding g o pending h ih =>
      obtain ⟨inner, outer, rfl, hall⟩ := ih hscopes fun hlen f hf => hapart hlen f (List.mem_cons_of_mem _ hf)
      refine ⟨pending ++ inner, outer, (List.append_assoc ..).symm, fun hs' => ?_⟩
      rw [List.append_assoc]
      exact .unwinding g o pending (hall hs')
  | popping h ih =>
      obtain ⟨inner, outer, rfl, hall⟩ := ih hscopes fun hlen f hf => hapart hlen f (List.mem_cons_of_mem _ hf)
      exact ⟨inner, outer, rfl, fun hs' => .popping (hall hs')⟩
  | resuming co h ih =>
      obtain ⟨inner, outer, rfl, hall⟩ := ih hscopes fun hlen f hf => hapart hlen f (List.mem_cons_of_mem _ hf)
      exact ⟨inner, outer, rfl, fun hs' => .resuming co (hall hs')⟩

theorem Cleanup.Restores.turn {fs : List Frame} (hr : c.Restores l fs p c' l' n) (hw : Awaits fs c.scopes ws) :
    Awaits c'.frames c'.scopes ws ∧ Turn ws c ws c' := by
  cases hr with
  | restored _ | refused _ => exact ⟨hw, .none rfl rfl rfl rfl⟩

theorem Cleanup.Does.turn (hd : c.Does l start p op c' l' n) (hapart : c.Apart op) (hw : Awaits c.frames c.scopes ws) :
    ∃ ws', Awaits c'.frames c'.scopes ws' ∧ Turn ws c ws' c' := by
  cases hd with
  | interrupted | unmatched | disable | error | handled | failed | ended => exact ⟨ws, hw, .none rfl rfl rfl rfl⟩
  | call g => exact ⟨ws, .guarded g [] hw, .none rfl rfl rfl rfl⟩
  | @push hs ss hscopes =>
      rw [hscopes] at hw
      obtain ⟨inner, outer, rfl, hall⟩ := hw.innermost (hscopes ▸ hapart rfl)
      have hnew := hall (hs ++ [c.next])
      rw [List.reverse_concat] at hnew
      exact ⟨_, hnew, .pushed inner _ rfl rfl rfl rfl rfl⟩
  | @pop hs ss h hscopes =>
      rw [hscopes] at hw
      obtain ⟨inner, outer, rfl, hall⟩ := hw.innermost (hscopes ▸ hapart rfl)
      refine ⟨_, .popping (hall hs), .popped h inner (hs.reverse ++ outer) ?_ rfl rfl (.inl ⟨rfl, rfl⟩)⟩
      rw [List.reverse_concat]
      rfl
  | @drop hs ss h hscopes =>
      rw [hscopes] at hw
      obtain ⟨inner, outer, rfl, hall⟩ := hw.innermost (hscopes ▸ hapart rfl)
      refine ⟨_, hall hs, .popped h inner (hs.reverse ++ outer) ?_ rfl rfl (.inr ⟨rfl, rfl⟩)⟩
      rw [List.reverse_concat]
      rfl
  | restore hr =>
      obtain ⟨hw', hturn⟩ := hr.turn hw
      exact ⟨ws, hw', hturn⟩
  | body o hcause hframes hroot =>
      rw [hframes] at hw
      generalize c.scopes = ss at hw hroot ⊢
      cases hw with
      | root hs =>
          cases hroot
          have hending := Awaits.ending o (Nat.le_refl hs.length)
          rw [List.take_length] at hending
          exact ⟨_, hending, .none rfl rfl rfl rfl⟩
  | @guarded _ _ g fs hs ss o hcause hframes hscopes =>
      rw [hframes, hscopes] at hw
      cases hw with
      | guarded _ _ hw => exact ⟨_, .unwinding g o hs.reverse hw, .none rfl rfl rfl rfl⟩
  | popped hframes hr =>
      rw [hframes] at hw
      cases hw with
      | popping hw =>
          obtain ⟨hw', hturn⟩ := hr.turn hw
          exact ⟨ws, hw', hturn⟩
  | @next g o h hs fs hframes =>
      rw [hframes] at hw
      cases hw with
      | unwinding _ _ _ hw => exact ⟨_, .unwinding g o hs hw, .ran h rfl rfl rfl rfl⟩
  | unwound hframes hr =>
      rw [hframes] at hw
      cases hw with
      | unwinding _ _ _ hw =>
          obtain ⟨hw', hturn⟩ := hr.turn hw
          exact ⟨_, hw', hturn⟩
  | @nextOfRoot o i fs hs h hframes hroot hget =>
      rw [hframes] at hw
      generalize hscopes : c.scopes = ss at hw hroot ⊢
      cases hw with
      | @ending _ hs' _ hi =>
          obtain rfl : hs' = hs := Option.some.inj hroot
          have htake : (hs'.take (i + 1)).reverse = h :: (hs'.take i).reverse := by
            rw [List.take_add_one, hget, Option.toList_some, List.reverse_concat]
          refine ⟨_, .ending o (Nat.le_of_succ_le hi), ?_⟩
          rw [htake]
          exact .ran h rfl rfl rfl rfl

/-- The handlers that were pushed are those that wait and those that do not any more. -/
def Cleanup.Accounts (c : Cleanup) (ws : List Handler) : Prop := (ws ++ c.ran ++ c.dropped).Perm (List.range c.next)

theorem Turn.accounts (ht : Turn ws c ws' c') (h : c.Accounts ws) : c'.Accounts ws' := by
  rw [Cleanup.Accounts] at h ⊢
  cases ht with
  | none hws hnext hran hdropped => rwa [hws, hnext, hran, hdropped]
  | pushed inner outer hws hws' hnext hran hdropped =>
      rw [hws', hnext, hran, hdropped, List.range_succ]
      rw [hws] at h
      have hmove : (inner ++ c.next :: outer ++ c.ran ++ c.dropped).Perm (c.next :: (inner ++ outer ++ c.ran ++ c.dropped)) := by
        simp only [List.append_assoc, List.cons_append]
        exact List.perm_middle
      exact hmove.trans ((h.cons _).trans (List.perm_append_singleton ..).symm)
  | ran x hws hnext hran hdropped =>
      rw [hnext, hran, hdropped]
      rw [hws] at h
      refine List.Perm.trans ?_ h
      simp only [List.append_assoc, List.cons_append]
      exact List.perm_middle
  | popped x inner outer hws hws' hnext hkept =>
      rw [hnext, hws']
      rw [hws] at h
      have hfront : (x :: (inner ++ outer ++ c.ran ++ c.dropped)).Perm (inner ++ x :: outer ++ c.ran ++ c.dropped) := by
        simp only [List.append_assoc, List.cons_append]
        exact List.perm_middle.symm
      rcases hkept with ⟨hran, hdropped⟩ | ⟨hran, hdropped⟩ <;> rw [hran, hdropped]
      · exact (List.perm_middle.append_right c.dropped).trans (hfront.trans h)
      · exact List.perm_middle.trans (hfront.trans h)

end

/-- The frame of a root scope is the outermost one. -/
def Cleanup.Rooted (c : Cleanup) : Prop := ∀ f ∈ c.frames.dropLast, f.walks = false

section
variable {c c' : Cleanup} {l l' : Level} {start : Start} {p : Phase} {op : Op} {n : Next}

theorem Cleanup.Rooted.tail {f : Frame} {fs : List Frame} (h : c.Rooted) (hframes : c.frames = f :: fs) :
    ({ c with frames := fs } : Cleanup).Rooted := by
  intro x hx
  refine h x ?_
  rw [hframes]
  change x ∈ fs.dropLast at hx
  cases fs with
  | nil => cases hx
  | cons y fs => exact List.mem_cons_of_mem _ hx

theorem rooted_cons {f : Frame} {fs : List Frame} (hf : f.walks = false) (h : ∀ x ∈ fs.dropLast, x.walks = false) :
    ∀ x ∈ (f :: fs).dropLast, x.walks = false := by
  intro x hx
  cases fs with
  | nil => cases hx
  | cons y fs =>
      rcases List.mem_cons.mp hx with rfl | hx
      · exact hf
      · exact h x hx

theorem Cleanup.Does.rooted (hd : c.Does l start p op c' l' n) (h : c.Rooted) : c'.Rooted := by
  have hrestored : ∀ {fs p}, (∀ x ∈ fs.dropLast, x.walks = false) → c.Restores l fs p c' l' n → c'.Rooted := by
    intro fs p hfs hr
    cases hr with
    | restored _ | refused _ => exact hfs
  cases hd with
  | interrupted | push | unmatched | drop | disable | error | handled | failed | ended => exact h
  | call | pop => exact rooted_cons rfl h
  | restore hr => exact hrestored h hr
  | body _ _ hframes _ =>
      intro x hx
      cases hx
  | guarded _ _ hframes _ | next hframes => exact rooted_cons rfl (h.tail hframes)
  | popped hframes hr | unwound hframes hr => exact hrestored (h.tail hframes) hr
  | @nextOfRoot o i fs _ _ hframes _ _ =>
      cases fs with
      | nil =>
          intro x hx
          cases hx
      | cons y fs => cases h (.ending o (i + 1)) (by rw [hframes]; exact List.mem_cons_self)

end

/-! The same of all threads of the machine. -/

/-- A thread that has come to its end has left all its calls but that of the root scope. -/
structure Ended (s : State) : Prop where
  rooted : ∀ t, (s.cleanups t).Rooted
  ended : ∀ t, s.view.raw t = .dead → ∃ o, (s.cleanups t).frames = [.ending o 0]
  unborn : ∀ t, s.created ≤ t → s.cleanups t = .init

section
variable {s s' : State} {t : Thread} {a : Action} {ws : List Handler}

theorem Touches.other {cs : Thread → Cleanup} (ht : Touches s a cs) (hunborn : s.cleanups s.created = .init)
    (htop : ∀ rest, s.stack ≠ t :: rest) : cs t = s.cleanups t := by
  cases ht with
  | none => rfl
  | does _ _ hstack _ | pushed _ _ hstack | popped hstack _ =>
      refine Function.update_of_ne ?_ _ _
      rintro rfl
      exact htop _ hstack
  | born =>
      have hsame : Function.update s.cleanups s.created .init = s.cleanups := update_same hunborn.symm
      exact congrFun hsame t

/-- A thread comes to its end by a step of its own. -/
theorem moves_dead (hm : s.Moves a s') (hdead : (s'.threads t).raw = .dead) : (s.threads t).raw = .dead ∨
    ∃ rest o l, s.stack = t :: rest ∧
      (s.cleanups t).Does (s.fibers s.current).level (s.threads t).start .looping .tick (s'.cleanups t) l (.ended o) := by
  have hone : ∀ {ts : Thread → LuaThread} {x y}, (Function.update ts x y t).raw = .dead → (y.raw = .dead → (ts x).raw = .dead) →
      (ts t).raw = .dead := by
    intro ts x y hx hy
    by_cases htx : t = x
    · subst htx
      rw [Function.update_self] at hx
      exact hy hx
    · rwa [Function.update_of_ne htx] at hx
  cases hm with
  | inside native hcontrol hstack hdoes hnext hnative => exact .inl (hone hdead id)
  | @ended x rest o c l hcontrol hstack hdoes =>
      by_cases htx : t = x
      · subst htx
        have hclean := cleanups_update s t fun y => { y with cleanup := c }
        have hleft : ((s.did t c l (s.fibers s.current).net).leave t .dead rest (o = .ok)).cleanups t = c := by
          rw [cleanups_leave]
          exact (congrFun hclean t).trans (Function.update_self ..)
        exact .inr ⟨rest, o, l, hstack, hleft.symm ▸ hdoes⟩
      · have hsame : ((s.did x c l (s.fibers s.current).net).leave x .dead rest (o = .ok)).threads t = s.threads t :=
          (Function.update_of_ne htx _ _).trans (Function.update_of_ne htx _ _)
        exact .inl (hsame ▸ hdead)
  | passed hcontrol hstack htarget hnative => exact .inl (hone (hone hdead fun h => by cases h) id)
  | returned hcontrol hstack hframes hown => exact .inl (hone hdead id)
  | continued hcontrol hstack htarget hraw => exact .inl (hone (hone hdead fun h => by cases h) id)
  | lost hcontrol hstack hframes hraw => exact .inl (hone (hone hdead id) id)
  | arrived hcontrol hstack htarget => exact .inl hdead
  | woken hcontrol hf hfiber hraw => exact .inl (hone hdead fun h => by cases h)
  | added hcontrol hstack ha => exact .inl (hone hdead fun h => by cases h)
  | refused hcontrol hstack ha => exact .inl hdead
  | resumed hcontrol hstack hco hstart hbusy hraw => exact .inl (hone (hone hdead fun h => by cases h) id)
  | unresumed hcontrol hstack hraw => exact .inl (hone hdead id)
  | yielded hcontrol hstack hstart => exact .inl (hone hdead fun h => by cases h)
  | suspended hcontrol hstack => exact .inl (hone hdead fun h => by cases h)
  | interrupted hcontrol hstack => exact .inl hdead

theorem Touches.rooted {cs : Thread → Cleanup} (ht : Touches s a cs) (h : ∀ t, (s.cleanups t).Rooted) : (cs t).Rooted := by
  have hone : ∀ {x c}, c.Rooted → (Function.update s.cleanups x c t).Rooted := by
    intro x c hc
    by_cases htx : t = x
    · rwa [htx, Function.update_self]
    · rw [Function.update_of_ne htx]
      exact h t
  cases ht with
  | none => exact h t
  | does _ _ _ hdoes => exact hone (hdoes.rooted (h _))
  | pushed co _ _ => exact hone (rooted_cons rfl (h _))
  | popped _ hframes => exact hone ((h _).tail hframes)
  | born => exact hone fun x hx => by cases hx

theorem Ended.step (h : Ended s) (hs : Sound s) (hstep : Step s a s') : Ended s' := by
  have hm := State.step_moves hstep
  have ht := moves_touches hm
  have hcreated := (moves_switch hs.tidy hm).created_le
  have hkept : ∀ {t}, s.view.raw t ≠ .running → s'.cleanups t = s.cleanups t := by
    intro t hraw
    refine ht.other (h.unborn s.created (Nat.le_refl _)) fun rest hstack => hraw ?_
    exact hs.wf.top hstack
  refine ⟨fun t => ht.rooted h.rooted, fun t hdead => ?_, fun t hle => ?_⟩
  · rcases moves_dead hm hdead with hold | ⟨rest, o, l, hstack, hdoes⟩
    · have hraw : s.view.raw t ≠ .running := by
        change (s.threads t).raw ≠ _
        rw [hold]
        decide
      rw [hkept hraw]
      exact h.ended t hold
    · generalize hsame : s'.cleanups t = c at hdoes
      cases hdoes with
      | @ended o fs hframes =>
          refine ⟨o, ?_⟩
          rw [hframes]
          cases fs with
          | nil => rfl
          | cons y fs => cases h.rooted t (.ending o 0) (by rw [hframes]; exact List.mem_cons_self)
      | unwound _ hr => cases hr
  · have hold := Nat.le_trans hcreated hle
    rw [hkept]
    · exact h.unborn t hold
    · rw [hs.wf.unborn t hold]
      decide

theorem start_ended : Ended .start where
  rooted _ _ hx := by cases hx
  ended _ hdead := by cases hdead
  unborn _ _ := rfl

theorem Reached.ended (hs : Reached s) : Ended s := by
  have hboth := hs.invariant (I := fun s => Sound s ∧ Ended s) (fun _ h => h ▸ ⟨start_sound, start_ended⟩)
    fun _ _ _ h hstep => ⟨h.1.step hstep, h.2.step h.1 hstep⟩
  exact hboth.2

end

def State.Apart (s : State) : Action → Prop
  | .code op => ∀ t ∈ s.stack.head?, (s.threads t).cleanup.Apart op
  | _ => True

instance (s : State) : (a : Action) → Decidable (s.Apart a)
  | .code op => inferInstanceAs (Decidable (∀ t ∈ s.stack.head?, (s.threads t).cleanup.Apart op))
  | .create | .spawn | .load | .resume _ | .yield | .suspend _ | .interrupt _ | .wake _ => isTrue trivial

/-- Each thread's handlers are accounted for. -/
def Tended (s : State) : Prop := ∀ t, ∃ ws, Awaits (s.cleanups t).frames (s.cleanups t).scopes ws ∧ (s.cleanups t).Accounts ws

section
variable {s s' : State} {t : Thread} {a : Action} {ws : List Handler}

theorem Touches.turn {cs : Thread → Cleanup} (ht : Touches s a cs) (hunborn : s.cleanups s.created = .init) (hapart : s.Apart a)
    (hw : Awaits (s.cleanups t).frames (s.cleanups t).scopes ws) :
    ∃ ws', Awaits (cs t).frames (cs t).scopes ws' ∧ Turn ws (s.cleanups t) ws' (cs t) := by
  have hsame : ∃ ws', Awaits (s.cleanups t).frames (s.cleanups t).scopes ws' ∧ Turn ws (s.cleanups t) ws' (s.cleanups t) :=
    ⟨ws, hw, .none rfl rfl rfl rfl⟩
  have hone : ∀ {x c}, (t = x → ∃ ws', Awaits c.frames c.scopes ws' ∧ Turn ws (s.cleanups t) ws' c) →
      ∃ ws', Awaits (Function.update s.cleanups x c t).frames (Function.update s.cleanups x c t).scopes ws' ∧
        Turn ws (s.cleanups t) ws' (Function.update s.cleanups x c t) := by
    intro x c hc
    by_cases htx : t = x
    · subst htx
      rw [Function.update_self]
      exact hc rfl
    · rwa [Function.update_of_ne htx]
  cases ht with
  | none => exact hsame
  | does ha hcontrol hstack hdoes =>
      refine hone fun heq => ?_
      subst heq
      subst ha
      exact hdoes.turn (hapart t (by rw [hstack]; rfl)) hw
  | pushed co hcontrol hstack =>
      refine hone fun heq => ?_
      subst heq
      exact ⟨ws, .resuming co hw, .none rfl rfl rfl rfl⟩
  | @popped x rest co fs hstack hframes =>
      refine hone fun heq => ?_
      subst heq
      change Awaits (s.threads t).cleanup.frames _ ws at hw
      rw [hframes] at hw
      cases hw with
      | resuming _ hw => exact ⟨ws, hw, .none rfl rfl rfl rfl⟩
  | born =>
      refine hone fun heq => ?_
      subst heq
      rw [hunborn] at hw ⊢
      exact ⟨ws, hw, .none rfl rfl rfl rfl⟩

theorem Tended.step (h : Tended s) (he : Ended s) (hapart : s.Apart a) (hstep : Step s a s') : Tended s' := by
  have ht := moves_touches (State.step_moves hstep)
  intro t
  obtain ⟨ws, hw, haccounts⟩ := h t
  obtain ⟨ws', hw', hmove⟩ := ht.turn (he.unborn s.created (Nat.le_refl _)) hapart hw
  exact ⟨ws', hw', hmove.accounts haccounts⟩

abbrev ReachedApart (s : State) : Prop := Reachable (· = .start) (restrict State.Apart Step) s

theorem ReachedApart.tended (hs : ReachedApart s) : Tended s := by
  have hboth := hs.invariant (I := fun s => (Sound s ∧ Ended s) ∧ Tended s)
    (fun _ h => h ▸ ⟨⟨start_sound, start_ended⟩, fun _ => ⟨[], .root [], .refl _⟩⟩)
    fun _ _ _ h hstep => ⟨⟨h.1.1.step hstep.2, h.1.2.step h.1.1 hstep.2⟩, h.2.step h.1.2 hstep.1 hstep.2⟩
  exact hboth.2

/-- The steps, as long as they meet the condition. -/
def State.stepsIf (ok : State → Action → Prop) [∀ s a, Decidable (ok s a)] : List Action → State → Option State
  | [], s => some s
  | a :: as, s => if ok s a then (s.step a).bind (stepsIf ok as) else none

theorem restricted_steps {ok : State → Action → Prop} [∀ s a, Decidable (ok s a)] {as : List Action}
    (hs : Reachable (· = .start) (restrict ok Step) s) (hsteps : s.stepsIf ok as = some s') :
    Reachable (· = .start) (restrict ok Step) s' := by
  induction as generalizing s with
  | nil =>
      obtain rfl : s = s' := Option.some.inj hsteps
      exact hs
  | cons a as ih =>
      rw [State.stepsIf] at hsteps
      split at hsteps
      · rename_i hok
        obtain ⟨s₁, hstep, hrest⟩ := Option.bind_eq_some_iff.mp hsteps
        exact ih (hs.trans (.single ⟨a, hok, hstep⟩)) hrest
      · cases hsteps

/-- The main fiber with a handler in its root scope and one in a call of `pcall`. -/
def twoScopes : List Action :=
  [.wake 0, .code .tick, .code .push, .code (.call .pcall), .code .push, .code .ret, .code .tick, .code .ret, .code .tick,
    .code .ret, .code .tick, .code .ret, .code .tick]

/-- A handler of a root scope that pushes another one: that is never run. -/
example : (State.start.steps [.wake 0, .code .tick, .code .push, .code .ret, .code .tick, .code .push, .code .ret, .code .tick]).map
    (fun s => ((s.threads 0).raw, (s.threads 0).cleanup.ran, (s.threads 0).cleanup.next)) = some (.dead, [0], 2) := by decide

/-- A handler of a root scope that pops: it is run again. -/
example : (State.start.steps [.wake 0, .code .tick, .code .push, .code .ret, .code .tick, .code (.pop true)]).map
    (fun s => (s.threads 0).cleanup.ran) = some [0, 0] := by decide

end

end Emilua.Coroutines
