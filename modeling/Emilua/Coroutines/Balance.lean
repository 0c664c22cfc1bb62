import Emilua.Coroutines.Handlers

/-!
The count of `disable_interruption`. A fiber's count is what its own calls add up
to, and one for each exit or `scope_cleanup_pop` that it, or a coroutine that it has
run last, is inside of. The root scope of a coroutine takes one and never gives it
back.
-/
namespace Emilua.Coroutines
open Transition Relation

def Frame.holds : Frame → Nat
  | .unwinding .. | .popping | .ending .. => 1
  | .guarded _ | .resuming _ => 0

/-- How many times the calls have disabled interruption. -/
def held (fs : List Frame) : Nat := (fs.map Frame.holds).sum

@[simp] theorem held_nil : held [] = 0 := rfl

@[simp] theorem held_cons (f : Frame) (fs : List Frame) : held (f :: fs) = f.holds + held fs := rfl

/-- The count that the threads of fiber `f` have taken. -/
def weight (owner : Thread → Thread) (cs : Thread → Cleanup) (n : Nat) (f : Thread) : Nat :=
  ∑ t ∈ Finset.range n, if owner t = f then held (cs t).frames else 0

/-- The code restores only what it has disabled, and a coroutine that is inside of an
exit is not resumed by other fibers. -/
def State.Fair (s : State) : Action → Prop
  | .code .restore => 0 < (s.fibers s.current).net ∨ (s.fibers s.current).level.toInteger = 0
  | .resume co => held (s.threads co).cleanup.frames = 0 ∨ (s.threads co).owner = s.current
  | _ => True

instance (s : State) : (a : Action) → Decidable (s.Fair a)
  | .code .restore => inferInstanceAs (Decidable (_ ∨ _))
  | .resume _ => inferInstanceAs (Decidable (_ ∨ _))
  | .code (.call _) | .code .push | .code (.pop _) | .code .disable | .code .error | .code .ret | .code .tick => isTrue trivial
  | .create | .spawn | .load | .yield | .suspend _ | .interrupt _ | .wake _ => isTrue trivial

section
variable {c c' : Cleanup} {l l' : Level} {start : Start} {p : Phase} {op : Op} {n : Next} {d : FiberData}

theorem netOf_same (hop : op ≠ .disable ∧ op ≠ .restore) : State.netOf d p n op = d.net := by
  cases op with
  | disable => exact absurd rfl hop.1
  | restore => exact absurd rfl hop.2
  | _ => rfl

theorem toInteger_disabled (l : Level) : (disableInterruption l).toInteger = l.toInteger + 1 := rfl

theorem Cleanup.Restores.count {fs : List Frame} (hr : c.Restores l fs p c' l' n) (hl : 0 < l.toInteger) :
    c'.frames = fs ∧ l'.toInteger + 1 = l.toInteger := by
  cases hr with
  | restored _ => exact ⟨rfl, Nat.sub_add_cancel hl⟩
  | refused hzero => exact absurd hzero (Nat.ne_of_gt hl)

/-- The count changes by what the code adds and by what the calls take or give back. -/
theorem Cleanup.Does.count (hd : c.Does l start p op c' l' n) (hl : held c.frames ≤ l.toInteger) :
    (l'.toInteger : Int) + d.net + held c.frames = l.toInteger + State.netOf d p n op + held c'.frames := by
  have hkept : ∀ {fs : List Frame} {x : Frame}, c.frames = x :: fs → x.holds = 1 → held c.frames = held fs + 1 := by
    intro fs x hframes hx
    rw [hframes, held_cons, hx, Nat.add_comm]
  cases hd with
  | interrupted | unmatched | error | handled | ended | push | drop => rfl
  | failed hop => rw [netOf_same (by rcases hop with rfl | rfl <;> simp)]
  | call g => rw [netOf_same (by simp), held_cons, Frame.holds, Nat.zero_add]
  | pop hscopes =>
      rw [netOf_same (by simp), held_cons, Frame.holds, toInteger_disabled]
      push_cast
      ring
  | disable =>
      rw [State.netOf, toInteger_disabled]
      push_cast
      ring
  | restore hr =>
      cases hr with
      | restored hpos =>
          rw [State.netOf, if_pos ⟨rfl, rfl⟩]
          change ((l.toInteger - 1 : Nat) : Int) + d.net + held c.frames = l.toInteger + (d.net - 1) + held c.frames
          omega
      | refused hzero => rw [State.netOf, if_neg (by simp)]
  | body o hcause hframes hroot =>
      have hop : op ≠ .disable ∧ op ≠ .restore := by rcases hcause with ⟨-, rfl, -⟩ | ⟨-, rfl, -⟩ <;> simp
      rw [netOf_same hop, hframes, held_cons, Frame.holds, held_nil, toInteger_disabled]
      push_cast
      ring
  | guarded o hcause hframes hscopes =>
      have hop : op ≠ .disable ∧ op ≠ .restore := by rcases hcause with ⟨-, rfl⟩ | ⟨-, rfl⟩ <;> simp
      rw [netOf_same hop, hframes, held_cons, held_cons, Frame.holds, Frame.holds, toInteger_disabled]
      push_cast
      ring
  | popped hframes hr =>
      have hone := hkept hframes rfl
      obtain ⟨hfs, hcount⟩ := hr.count (by omega)
      rw [netOf_same (by simp), hfs, hone]
      omega
  | next hframes =>
      rw [netOf_same (by simp), hkept hframes rfl, held_cons, Frame.holds]
      push_cast
      ring
  | unwound hframes hr =>
      have hone := hkept hframes rfl
      obtain ⟨hfs, hcount⟩ := hr.count (by omega)
      rw [netOf_same (by simp), hfs, hone]
      omega
  | nextOfRoot hframes hroot hget =>
      rw [netOf_same (by simp), hkept hframes rfl, held_cons, Frame.holds]
      push_cast
      ring

/-- What the code adds does not fall below zero. -/
theorem Cleanup.Does.paid (hd : c.Does l start p op c' l' n) (hnet : 0 ≤ d.net) (hfair : op = .restore → 0 < d.net ∨ l.toInteger = 0) :
    0 ≤ State.netOf d p n op := by
  by_cases hdisable : op = .disable
  · rw [hdisable, State.netOf]
    omega
  by_cases hrestore : op = .restore
  · subst hrestore
    cases hd with
    | failed hop => rcases hop with hop | hop <;> cases hop
    | body o hcause _ _ => rcases hcause with ⟨-, hop, -⟩ | ⟨-, hop, -⟩ <;> cases hop
    | guarded o hcause _ _ => rcases hcause with ⟨-, hop⟩ | ⟨-, hop⟩ <;> cases hop
    | restore hr =>
        cases hr with
        | restored hpos =>
            rw [State.netOf, if_pos ⟨rfl, rfl⟩]
            have hfair := hfair rfl
            omega
        | refused hzero =>
            rw [State.netOf, if_neg (by simp)]
            exact hnet
  · rwa [netOf_same ⟨hdisable, hrestore⟩]

end

section
variable {owner : Thread → Thread} {cs : Thread → Cleanup} {c : Cleanup} {n : Nat} {t co f : Thread}

theorem sum_change {g g' : Nat → Nat} (ht : t < n) (h : ∀ x, x ≠ t → g' x = g x) :
    ∑ x ∈ Finset.range n, g' x + g t = ∑ x ∈ Finset.range n, g x + g' t := by
  have hrest : ∑ x ∈ (Finset.range n).erase t, g' x = ∑ x ∈ (Finset.range n).erase t, g x :=
    Finset.sum_congr rfl fun x hx => h x (Finset.ne_of_mem_erase hx)
  have hg := Finset.add_sum_erase _ g (Finset.mem_range.mpr ht)
  have hg' := Finset.add_sum_erase _ g' (Finset.mem_range.mpr ht)
  omega

theorem weight_update (ht : t < n) : weight owner (Function.update cs t c) n f + (if owner t = f then held (cs t).frames else 0) =
    weight owner cs n f + (if owner t = f then held c.frames else 0) := by
  have hsum := @sum_change n t (fun x => if owner x = f then held (cs x).frames else 0)
    (fun x => if owner x = f then held (Function.update cs t c x).frames else 0) ht fun x hx => by
      rw [Function.update_of_ne hx]
  rw [Function.update_self] at hsum
  exact hsum

/-- A call that takes nothing. -/
theorem weight_same (h : held c.frames = held (cs t).frames) : weight owner (Function.update cs t c) n f = weight owner cs n f := by
  refine Finset.sum_congr rfl fun x _ => ?_
  by_cases hx : x = t
  · rw [hx, Function.update_self, h]
  · rw [Function.update_of_ne hx]

theorem weight_owner (h : held (cs co).frames = 0 ∨ owner co = t) : weight (Function.update owner co t) cs n f = weight owner cs n f := by
  refine Finset.sum_congr rfl fun x _ => ?_
  by_cases hx : x = co
  · subst hx
    rw [Function.update_self]
    rcases h with h | rfl
    · rw [h, ite_self, ite_self]
    · rfl
  · rw [Function.update_of_ne hx]

theorem held_le_weight (ht : t < n) : held (cs t).frames ≤ weight owner cs n (owner t) := by
  have hle := Finset.single_le_sum (f := fun x => if owner x = owner t then held (cs x).frames else 0) (fun _ _ => Nat.zero_le _)
    (Finset.mem_range.mpr ht)
  rwa [if_pos rfl] at hle

end

/-- Each fiber's count is what its code adds, and what the threads that it has run
last have taken. -/
structure Balanced (s : State) : Prop where
  owners : ∀ t < s.created, s.owner t < s.created
  due : ∀ f < s.created, ((s.fibers f).level.toInteger : Int) = (s.fibers f).net + weight s.owner s.cleanups s.created f
  paid : ∀ f, 0 ≤ (s.fibers f).net

section
variable {s s' : State} {t co f : Thread} {a : Action}

/-- Steps that change neither counts nor what is held. -/
theorem Balanced.of_same (h : Balanced s) (howner : ∀ t < s.created, s'.owner t < s.created) (hcreated : s'.created = s.created)
    (hlevel : ∀ f, (s'.fibers f).level = (s.fibers f).level) (hnet : ∀ f, (s'.fibers f).net = (s.fibers f).net)
    (hweight : ∀ f, weight s'.owner s'.cleanups s.created f = weight s.owner s.cleanups s.created f) : Balanced s' := by
  refine ⟨fun t ht => ?_, fun f hf => ?_, fun f => ?_⟩
  · rw [hcreated] at ht ⊢
    exact howner t ht
  · rw [hcreated] at hf ⊢
    rw [hlevel, hnet, hweight]
    exact h.due f hf
  · rw [hnet]
    exact h.paid f

/-- While a thread is inside of an exit, its fiber's count is positive. -/
theorem Balanced.covers (h : Balanced s) (ht : t < s.created) : held (s.cleanups t).frames ≤ (s.fibers (s.owner t)).level.toInteger := by
  have hle : held (s.cleanups t).frames ≤ weight s.owner s.cleanups s.created (s.owner t) := held_le_weight ht
  have hdue := h.due (s.owner t) (h.owners t ht)
  have hpaid := h.paid (s.owner t)
  omega

theorem Balanced.did (h : Balanced s) (hs : Sound s) (ho : Owned s) {rest : List Thread} {p : Phase} {op : Op} {c : Cleanup} {l : Level}
    {n : Next} (hstack : s.stack = t :: rest) (hdoes : (s.cleanups t).Does (s.fibers s.current).level (s.threads t).start p op c l n)
    (hfair : op = .restore → 0 < (s.fibers s.current).net ∨ (s.fibers s.current).level.toInteger = 0) :
    Balanced (s.did t c l (State.netOf (s.fibers s.current) p n op)) := by
  have howns : s.owner t = s.current := ho.running t (hstack ▸ List.mem_cons_self)
  have hborn : t < s.created := hs.wf.unborn_of (by rw [hs.wf.top hstack]; decide)
  have howner : (s.did t c l (State.netOf (s.fibers s.current) p n op)).owner = s.owner :=
    @owner_same s t (fun x => { x with cleanup := c }) rfl
  have hclean : (s.did t c l (State.netOf (s.fibers s.current) p n op)).cleanups = Function.update s.cleanups t c :=
    cleanups_update s t fun x => { x with cleanup := c }
  have hcovers := h.covers hborn
  rw [howns] at hcovers
  have hcount := hdoes.count (d := s.fibers s.current) hcovers
  refine ⟨?_, fun f hf => ?_, fun f => ?_⟩
  · rw [howner]
    exact h.owners
  · have hweight := @weight_update s.owner s.cleanups c s.created t f hborn
    have hdue := h.due f hf
    rw [howner, hclean]
    change ((Function.update s.fibers s.current _ f).level.toInteger : Int) = (Function.update s.fibers s.current _ f).net + weight _ _ s.created f
    by_cases hfc : f = s.current
    · rw [hfc, howns, if_pos rfl, if_pos rfl] at hweight
      rw [hfc] at hdue
      rw [hfc, Function.update_self]
      change (l.toInteger : Int) = State.netOf (s.fibers s.current) p n op + _
      omega
    · rw [howns, if_neg (Ne.symm hfc), if_neg (Ne.symm hfc)] at hweight
      rw [Function.update_of_ne hfc]
      omega
  · change 0 ≤ (Function.update s.fibers s.current _ f).net
    by_cases hfc : f = s.current
    · rw [hfc, Function.update_self]
      exact hdoes.paid (h.paid s.current) hfair
    · rw [Function.update_of_ne hfc]
      exact h.paid f

theorem cleanups_resumed (s : State) (t : Thread) (fs : List Frame) :
    (s.resumed t fs).cleanups = Function.update s.cleanups t { (s.threads t).cleanup with frames := fs } :=
  cleanups_update s t fun x => { x with cleanup := { x.cleanup with frames := fs } }

theorem Balanced.step (h : Balanced s) (hs : Sound s) (ho : Owned s) (hfair : s.Fair a) (hm : s.Moves a s') : Balanced s' := by
  have hsame : s'.owner = s.owner → s'.created = s.created → s'.fibers = s.fibers → s'.cleanups = s.cleanups → Balanced s' := by
    intro howner hcreated hfibers hclean
    refine h.of_same (by rw [howner]; exact h.owners) hcreated (fun f => by rw [hfibers]) (fun f => by rw [hfibers]) fun f => ?_
    rw [howner, hclean]
  -- A call of `resume` takes nothing.
  have hcall : ∀ {t c}, s'.owner = s.owner → s'.created = s.created → s'.fibers = s.fibers →
      s'.cleanups = Function.update s.cleanups t c → held c.frames = held (s.cleanups t).frames → Balanced s' := by
    intro t c howner hcreated hfibers hclean hheld
    refine h.of_same (by rw [howner]; exact h.owners) hcreated (fun f => by rw [hfibers]) (fun f => by rw [hfibers]) fun f => ?_
    rw [howner, hclean, weight_same hheld]
  cases hm with
  | @inside t rest p op c l n k native hcontrol hstack hdoes hnext hnative =>
      have hdid := h.did hs ho hstack hdoes fun hop => by
        subst hop
        exact hfair
      exact ⟨hdid.owners, hdid.due, hdid.paid⟩
  | @ended t rest o c l hcontrol hstack hdoes =>
      have hdid := h.did hs ho hstack hdoes fun hop => by cases hop
      refine hdid.of_same (by rw [owner_leave]; exact hdid.owners) rfl (fun _ => rfl) (fun _ => rfl) fun f => ?_
      rw [owner_leave, cleanups_leave]
      rfl
  | @passed t rest co hcontrol hstack htarget hnative =>
      exact hsame ((owner_leave ..).trans (owner_busy ..)) rfl rfl ((cleanups_leave ..).trans (cleanups_busy ..))
  | @returned t rest ok co fs hcontrol hstack hframes hown =>
      refine hcall (owner_resumed ..) rfl rfl (cleanups_resumed s t fs) ?_
      change held fs = held (s.threads t).cleanup.frames
      rw [hframes, held_cons, Frame.holds, Nat.zero_add]
  | @continued t rest co hcontrol hstack htarget hraw =>
      have howns : s.owner co = s.current := (ho.linked t co htarget).trans (ho.running t (hstack ▸ List.mem_cons_self))
      refine hsame ?_ rfl rfl ((cleanups_run ..).trans (cleanups_busy ..))
      rw [owner_run, owner_busy]
      exact update_same howns.symm
  | @lost t rest co fs hcontrol hstack hframes hraw =>
      have hthread : ((s.setBusy co false).threads t).cleanup = (s.threads t).cleanup := congrFun (cleanups_busy s co false) t
      have hclean := cleanups_resumed (s.setBusy co false) t fs
      rw [cleanups_busy, hthread] at hclean
      refine hcall ((owner_resumed ..).trans (owner_busy ..)) rfl rfl hclean ?_
      change held fs = held (s.threads t).cleanup.frames
      rw [hframes, held_cons, Frame.holds, Nat.zero_add]
  | arrived hcontrol hstack htarget => exact hsame rfl rfl rfl rfl
  | @woken f hcontrol hf hfiber hraw =>
      exact hsame (@owner_same s f (fun x => { x with raw := .running }) rfl) rfl rfl (wake_cleanups s f)
  | @added a t rest start l hcontrol hstack ha hl =>
      have howner : (s.add start l).owner = Function.update s.owner s.created s.created := Function.comp_update ..
      have hclean : (s.add start l).cleanups = Function.update s.cleanups s.created .init := Function.comp_update ..
      have hold : ∀ x < s.created, (s.add start l).owner x = s.owner x ∧ (s.add start l).cleanups x = s.cleanups x := by
        intro x hx
        rw [howner, hclean, Function.update_of_ne (Nat.ne_of_lt hx), Function.update_of_ne (Nat.ne_of_lt hx)]
        exact ⟨rfl, rfl⟩
      have hweight : ∀ f, weight (s.add start l).owner (s.add start l).cleanups (s.created + 1) f =
          weight s.owner s.cleanups s.created f := by
        intro f
        rw [weight, Finset.sum_range_succ, hclean, Function.update_self, ← hclean]
        change _ + (if _ then held [] else 0) = _
        rw [held_nil, ite_self, Nat.add_zero]
        refine Finset.sum_congr rfl fun x hx => ?_
        obtain ⟨hxo, hxc⟩ := hold x (Finset.mem_range.mp hx)
        rw [hxo, hxc]
      refine ⟨fun x hx => ?_, fun f hf => ?_, fun f => ?_⟩
      · rcases Nat.lt_succ_iff_lt_or_eq.mp hx with hlt | rfl
        · rw [(hold x hlt).1]
          exact Nat.lt_succ_of_lt (h.owners x hlt)
        · rw [howner, Function.update_self]
          exact Nat.lt_succ_self _
      · change ((Function.update s.fibers s.created _ f).level.toInteger : Int) =
          (Function.update s.fibers s.created _ f).net + weight _ _ (s.created + 1) f
        rw [hweight]
        rcases Nat.lt_succ_iff_lt_or_eq.mp hf with hlt | rfl
        · rw [Function.update_of_ne (Nat.ne_of_lt hlt)]
          exact h.due f hlt
        · rw [Function.update_self, hl]
          have hzero : weight s.owner s.cleanups s.created s.created = 0 := by
            refine Finset.sum_eq_zero fun x hx => if_neg ?_
            exact Nat.ne_of_lt (h.owners x (Finset.mem_range.mp hx))
          rw [hzero]
          rfl
      · change 0 ≤ (Function.update s.fibers s.created _ f).net
        by_cases hfc : f = s.created
        · rw [hfc, Function.update_self]
        · rw [Function.update_of_ne hfc]
          exact h.paid f
  | refused hcontrol hstack ha => exact hsame rfl rfl rfl rfl
  | @resumed t rest co hcontrol hstack hco hstart hbusy hraw =>
      have howner := owner_run (s.setFrames t (.resuming co :: (s.threads t).cleanup.frames)) co
      rw [owner_frames] at howner
      have hclean := cleanups_update s t fun x => { x with cleanup := { x.cleanup with frames := .resuming co :: (s.threads t).cleanup.frames } }
      have hall := (cleanups_run (s.setFrames t (.resuming co :: (s.threads t).cleanup.frames)) co).trans hclean
      have hcurrent := hs.wf.current (hstack ▸ List.mem_cons_self)
      refine h.of_same (fun x hx => ?_) rfl (fun _ => rfl) (fun _ => rfl) fun f => ?_
      · rw [howner]
        by_cases hxc : x = co
        · rw [hxc, Function.update_self]
          exact hcurrent.2
        · rw [Function.update_of_ne hxc]
          exact h.owners x hx
      · rw [howner, hall, weight_owner, weight_same]
        · change held (.resuming co :: (s.threads t).cleanup.frames) = held (s.threads t).cleanup.frames
          rw [held_cons, Frame.holds, Nat.zero_add]
        · have hct : co ≠ t := by
            rintro rfl
            have hrun : (s.threads co).raw = .running := hs.wf.top hstack
            rw [hrun] at hraw
            rcases hraw with hraw | hraw <;> cases hraw
          rw [Function.update_of_ne hct]
          exact hfair
  | @unresumed t rest co hcontrol hstack hraw => exact hcall (owner_resumed ..) rfl rfl (cleanups_resumed s t _) rfl
  | yielded hcontrol hstack hstart => exact hsame (owner_leave ..) rfl rfl (cleanups_leave ..)
  | suspended hcontrol hstack => exact hsame (owner_leave ..) rfl rfl (cleanups_leave ..)
  | @interrupted t rest f hcontrol hstack =>
      have hfiber : ∀ x, (Function.update s.fibers f { s.fibers f with interrupted := true } x).level = (s.fibers x).level ∧
          (Function.update s.fibers f { s.fibers f with interrupted := true } x).net = (s.fibers x).net := by
        intro x
        by_cases hx : x = f
        · rw [hx, Function.update_self]
          exact ⟨rfl, rfl⟩
        · rw [Function.update_of_ne hx]
          exact ⟨rfl, rfl⟩
      exact h.of_same h.owners rfl (fun x => (hfiber x).1) (fun x => (hfiber x).2) fun _ => rfl

end

abbrev ReachedFair (s : State) : Prop := Reachable (· = .start) (restrict State.Fair Step) s

section
variable {s : State}

theorem start_balanced : Balanced .start where
  owners _ _ := Nat.one_pos
  due f _ := by
    have hzero : weight State.start.owner State.start.cleanups State.start.created f = 0 :=
      Finset.sum_eq_zero fun _ _ => ite_self _
    rw [hzero]
    rfl
  paid _ := Int.le_refl 0

theorem ReachedFair.balanced (hs : ReachedFair s) : Balanced s := by
  have hall := hs.invariant (I := fun s => (Sound s ∧ Owned s) ∧ Balanced s)
    (fun _ h => h ▸ ⟨⟨start_sound, start_owned⟩, start_balanced⟩) fun s a s' h hstep => by
      have hm := State.step_moves hstep.2
      exact ⟨⟨h.1.1.step hstep.2, h.1.2.step h.1.1 hm⟩, h.2.step h.1.1 h.1.2 hstep.1 hm⟩
  exact hall.2

/-- A fiber's count of `disable_interruption` is what its own calls add up to, and one
for each exit or `scope_cleanup_pop` that a thread of its is inside of. Cleanup
handlers run with interruption disabled. A thread that has come to its end has not
given back what its root scope took: after a coroutine, the fiber cannot be
interrupted any more. -/
theorem interruption_balance (hs : ReachedFair s) :
    (∀ f < s.created, 0 ≤ (s.fibers f).net ∧
      ((s.fibers f).level.toInteger : Int) = (s.fibers f).net + weight s.owner s.cleanups s.created f) ∧
    (∀ t, (s.threads t).raw = .dead → held (s.threads t).cleanup.frames = 1) ∧
    ∀ t < s.created, 0 < held (s.threads t).cleanup.frames →
      (s.fibers (s.threads t).owner).level.disabled = true ∧ ((s.threads t).owner = s.current → s.refused = false) := by
  have h := hs.balanced
  refine ⟨fun f hf => ⟨h.paid f, h.due f hf⟩, fun t hdead => ?_, fun t ht hheld => ?_⟩
  · obtain ⟨o, hframes⟩ := (Reached.ended hs.of_restrict).ended t hdead
    change held (s.cleanups t).frames = 1
    rw [hframes]
    rfl
  · have hcovers : held (s.threads t).cleanup.frames ≤ (s.fibers (s.threads t).owner).level.toInteger := h.covers ht
    have hdisabled : (s.fibers (s.threads t).owner).level.disabled = true := by
      have hpos := Nat.lt_of_lt_of_le hheld hcovers
      cases hl : (s.fibers (s.threads t).owner).level with
      | boolean b =>
          rw [hl] at hpos
          exact absurd hpos (Nat.lt_irrefl 0)
      | count n =>
          rw [hl] at hpos
          exact decide_eq_true hpos
    refine ⟨hdisabled, fun howner => ?_⟩
    rw [howner] at hdisabled
    rw [State.refused, hdisabled]
    rfl

/-- A fiber has run a coroutine to its end, and is then interrupted. -/
def afterCoroutine : List Action :=
  [.wake 0, .code .tick, .spawn, .suspend false, .wake 1, .code .tick, .create, .resume 2, .code .tick, .code .ret, .code .tick,
    .code .tick, .interrupt 1]

theorem interruption_balance_coroutine : ∃ s, State.start.stepsIf State.Fair afterCoroutine = some s ∧ s.control = .code .user ∧
    s.stack = [1] ∧ (s.fibers 1).interrupted = true ∧ (s.fibers 1).net = 0 ∧ s.refused = false := by
  have hrun : State.start.stepsIf State.Fair afterCoroutine = some ((State.start.stepsIf State.Fair afterCoroutine).get rfl) :=
    (Option.some_get rfl).symm
  obtain ⟨-, hdead, hheld⟩ := interruption_balance (restricted_steps ⟨.start, rfl, .refl⟩ hrun)
  have hone := hdead 2 rfl
  exact ⟨_, hrun, rfl, rfl, rfl, rfl, (hheld 2 (by decide) (by rw [hone]; decide)).2 rfl⟩

end

end Emilua.Coroutines
