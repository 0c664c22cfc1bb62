import Emilua.Sched.Suspension

/-!
`cond:wait(mtx)` as the program calls it: Lua code that calls `cond_wait`, locks
the mutex again, and then raises what `cond_wait` has returned.
-/
namespace Emilua.Sched
open Transition

/-- Where a fiber is in a call of `cond:wait`. -/
inductive Stage where
  | native
  | returned (o : Outcome)
  | locking (o : Outcome)
deriving DecidableEq, Repr

/-- `held` says whether the fiber had the mutex when it called, and `notified`
whether a notification has taken it from the list. Nothing else reads them. -/
structure WaitCall where
  cond : Nat
  mutex : Nat
  stage : Stage
  held : Bool
  notified : Bool
deriving DecidableEq, Repr

/-- How a call ends: `cond_wait` or `mtx:lock` has raised an error, or
`cond_wait` has returned `o` and the mutex is locked. `error(e, 0)` is reached
unless `o` is `done`. -/
inductive Ended where
  | raised (e : Errc)
  | waited (o : Outcome)
deriving DecidableEq, Repr

structure Exit where
  fiber : FiberId
  ended : Ended
  held : Bool
  holds : Bool
  notified : Bool
deriving DecidableEq, Repr

structure Waiters extends Process where
  calls : FiberId → Option WaitCall
  exits : List Exit

/-- An argument that is not a condition variable or not a mutex is `none`. -/
inductive Waiters.Action where
  | process (a : Process.Action)
  | wait (c m : Option Nat)
  | lock
deriving DecidableEq, Repr

namespace Process

def condWaitReply (p : Process) (f : FiberId) (c m : Option Nat) : Reply :=
  match c, m with
  | none, _ | some _, none => .raised .invalidArgument
  | some _, some m =>
      if p.vm.locked m = false then .raised .operationNotPermitted
      else if p.disallowed f ≠ 0 then .raised .forbidSuspendBlock
      else if (p.vm.fibers f).refused then .raised .interrupted
      else .suspended

def mutexLockReply (p : Process) (f : FiberId) (m : Nat) : Reply :=
  if p.disallowed f ≠ 0 then .raised .forbidSuspendBlock
  else if p.vm.locked m then .suspended
  else .returned

/-- `cond_wait`. -/
def condWait (p : Process) (c m : Option Nat) : ExecM Process :=
  match c, m with
  | some c, some m => p.exec (.call (.condWait c m))
  | _, _ => .ok p

def holds (p : Process) (f : FiberId) (m : Nat) : Bool := f ∈ p.vm.holders m

end Process

namespace Waiters

def initial : Waiters := ⟨.initial, fun _ => none, []⟩

def setCall (w : Waiters) (f : FiberId) (x : Option WaitCall) : Waiters :=
  { w with calls := Function.update w.calls f x }

/-- The call of fiber `f` ends. -/
def exit (w : Waiters) (f : FiberId) (x : WaitCall) (e : Ended) : Waiters :=
  { w.setCall f none with exits := w.exits ++ [⟨f, e, x.held, w.holds f x.mutex, x.notified⟩] }

/-- The fibers that `a` notifies. -/
def notifies (s : State) : Sched.Action → List FiberId
  | .condNotifyOne c => (s.queues (.cond c)).take 1
  | .condNotifyAll c => s.queues (.cond c)
  | _ => []

/-- Fiber `f` has been resumed, and what it waited for comes back with `o`. -/
def resume (w : Waiters) (f : FiberId) (o : Outcome) : Waiters :=
  match w.calls f with
  | some x =>
      match x.stage with
      | .native => w.setCall f (some { x with stage := .returned o })
      | .locking e => w.exit f x (.waited e)
      | .returned _ => w
  | none => w

/-- The fibers of `fs` have been notified. -/
def notify (w : Waiters) (fs : List FiberId) : Waiters :=
  { w with calls := fun f =>
      if f ∈ fs then (w.calls f).map fun x => { x with notified := true } else w.calls f }

/-- What an action of the program or the system means for the calls. -/
def follow (w : Waiters) (s : State) (a : Process.Action) : Waiters :=
  match a with
  | .call .runHandler =>
      match s.strand with
      | x :: _ => w.resume x.fiber (x.args.read (s.fibers x.fiber).interrupted)
      | [] => w
  | .call a => w.notify (notifies s a)
  | _ => w

/-- A fiber in a call of `cond:wait` does nothing else; the system may act. -/
def mayAct (w : Waiters) (a : Process.Action) : Bool :=
  match a with
  | .call (.condWait _ _) => false
  | .call (.complete _ _) | .call (.answer _ _) => true
  | _ =>
      match w.vm.current with
      | some f => (w.calls f).isNone
      | none => true

def exec (w : Waiters) (a : Action) : ExecM Waiters :=
  match a with
  | .process a =>
      if w.mayAct a then do
        let p ← w.toProcess.exec a
        .ok ({ w with toProcess := p }.follow w.vm a)
      else .error .disabled
  | .wait c m =>
      match w.vm.current with
      | none => .error .disabled
      | some f =>
          if w.vm.valid = false ∨ (w.calls f).isSome then .error .disabled
          else do
            let held := m.any (w.holds f)
            let p ← w.condWait c m
            match w.condWaitReply f c m, c, m with
            | .raised e, _, _ =>
                .ok { w with
                  toProcess := p
                  exits := w.exits ++ [⟨f, .raised e, held, m.any (p.holds f), false⟩] }
            | _, some c, some m => .ok ({ w with toProcess := p }.setCall f (some ⟨c, m, .native, held, false⟩))
            | _, _, _ => .error .disabled
  | .lock =>
      match w.vm.current with
      | none => .error .disabled
      | some f =>
          match w.calls f with
          | some x =>
              match x.stage with
              | .returned o => do
                  let p ← w.toProcess.exec (.call (.mutexLock x.mutex))
                  match w.mutexLockReply f x.mutex with
                  | .raised e => .ok ({ w with toProcess := p }.exit f x (.raised e))
                  | .returned => .ok ({ w with toProcess := p }.exit f x (.waited o))
                  | _ => .ok ({ w with toProcess := p }.setCall f (some { x with stage := .locking o }))
              | _ => .error .disabled
          | none => .error .disabled

def Step (w : Waiters) (a : Action) (w' : Waiters) : Prop := w.exec a = .ok w'

def Initial (w : Waiters) : Prop := w = initial

theorem initial_self : Initial initial := rfl

end Waiters

/-- What `cond_wait` returns. -/
def told (notified : Bool) : Outcome := if notified then .done else .interrupted

/-- The VM is where fiber `f` is in its call. -/
def WaitCall.Fits (x : WaitCall) (s : State) (f : FiberId) : Prop :=
  match x.stage with
  | .native =>
      (s.fibers f).phase = .suspended (.queue (.cond x.cond)) ∧
        (f ∈ s.queues (.cond x.cond) → x.notified = false) ∧
        ∀ y ∈ s.strand, y.fiber = f → y.args = .outcome (told x.notified)
  | .returned o => s.current = some f ∧ o = told x.notified
  | .locking o =>
      (s.fibers f).phase = .suspended (.queue (.mutex x.mutex)) ∧ o = told x.notified ∧
        (f ∈ s.queues (.mutex x.mutex) ∨ f ∈ s.holders x.mutex)

section
variable {s s' : State} {a : Action} {f g : FiberId} {c m : Nat} {w : Wait} {q : Queue}

theorem posted_unique {xs : List Post} (h : (xs.map Post.fiber).count f ≤ 1) {x y : Post} (hx : x ∈ xs) (hy : y ∈ xs)
    (hxf : x.fiber = f) (hyf : y.fiber = f) : x = y := by
  induction xs with
  | nil => cases hx
  | cons z zs ih =>
      rw [List.map_cons, List.count_cons] at h
      have hout : z.fiber = f → ∀ v ∈ zs, v.fiber ≠ f := by
        intro hz v hv hvf
        have hpos : 0 < (zs.map Post.fiber).count f := List.count_pos_iff.mpr (List.mem_map.mpr ⟨v, hv, hvf⟩)
        simp only [hz, beq_self_eq_true, if_true] at h
        omega
      rcases List.mem_cons.mp hx with hxz | hxs
      · rcases List.mem_cons.mp hy with hyz | hys
        · rw [hxz, hyz]
        · exact absurd hyf (hout (hxz ▸ hxf) y hys)
      · rcases List.mem_cons.mp hy with hyz | hys
        · exact absurd hxf (hout (hyz ▸ hyf) x hxs)
        · exact ih (by omega) hxs hys

theorem Coherent.at_le_one (h : Coherent s) (f : FiberId) (l : Place) : (s.at l).count f ≤ 1 := by
  obtain ⟨o, -, hhome⟩ := (h f).placed
  rw [hhome l]
  split <;> omega

/-- A fiber that waits in a list has not been resumed. -/
theorem Coherent.queued_not_posted (h : Coherent s) (hf : f ∈ s.queues q) : ∀ y ∈ s.strand, y.fiber ≠ f := by
  intro y hy hyf
  exact h.elsewhere (l := .strand) (List.mem_map.mpr ⟨y, hy, hyf⟩) nofun hf

/-- A fiber suspended in a list is in it or has been resumed. -/
theorem Coherent.queued_or_posted (h : Coherent s) (hw : (s.fibers f).phase = .suspended (.queue q)) :
    f ∈ s.queues q ∨ ∃ y ∈ s.strand, y.fiber = f := by
  obtain ⟨o, hfits, hhome⟩ := (h f).placed
  rw [hw] at hfits
  rcases hfits with rfl | ⟨l, hl, rfl⟩
  · have hone := hhome .strand
    rw [if_pos rfl] at hone
    have hmem : f ∈ s.at .strand := List.count_pos_iff.mp (by omega)
    obtain ⟨y, hy, hyf⟩ := List.mem_map.mp hmem
    exact .inr ⟨y, hy, hyf⟩
  · cases hl
    have hone := hhome (.queue q)
    rw [if_pos rfl] at hone
    have hmem : f ∈ s.at (.queue q) := List.count_pos_iff.mp (by omega)
    exact .inl hmem

theorem Coherent.suspended_of_queued (h : Coherent s) (hf : f ∈ s.queues q) :
    (s.fibers f).phase = .suspended (.queue q) := by
  obtain ⟨w, hw, hplace, -⟩ := (h f).of_mem (l := .queue q) nofun hf
  rw [hw, Wait.place_eq_queue hplace]

theorem mem_notifies (hf : f ∈ Waiters.notifies s a) : ∃ c, f ∈ s.queues (.cond c) := by
  cases a with
  | condNotifyOne c => exact ⟨c, List.mem_of_mem_take hf⟩
  | condNotifyAll c => exact ⟨c, hf⟩
  | _ => cases hf

/-- What becomes of a fiber that waits for a condition. -/
theorem cond_moves (h : Coherent s) (hs : exec s a = .ok s') (hf : f ∈ s.queues (.cond c)) :
    (f ∈ s'.queues (.cond c) ∧ f ∉ Waiters.notifies s a) ∨
    (f ∈ Waiters.notifies s a ∧ ∃ y ∈ s'.strand, y.fiber = f ∧ y.args = .outcome .done) ∨
    (f ∉ Waiters.notifies s a ∧ ∃ y ∈ s'.strand, y.fiber = f ∧ y.args = .outcome .interrupted) := by
  have hother : ∀ c', c' ≠ c → f ∉ s.queues (.cond c') := fun c' hc =>
    h.other_queue hf (.cond c') (by simpa using hc)
  by_cases htouch : a.touches (.cond c) = false
  · refine .inl ⟨by rwa [exec_queues h htouch hs], fun hmem => ?_⟩
    cases a with
    | condNotifyOne c' =>
        exact hother c' (by simpa [Action.touches, eq_comm] using htouch) (List.mem_of_mem_take hmem)
    | condNotifyAll c' => exact hother c' (by simpa [Action.touches, eq_comm] using htouch) hmem
    | _ => cases hmem
  · obtain ⟨-, ⟨r, hr, hcall⟩ | ⟨i, ec, rfl, -⟩ | ⟨i, o, rfl, -⟩ | ⟨p, ps, rfl, -⟩ | ⟨o, rfl, -⟩⟩ := exec_cases hs
    · cases a with
      | condNotifyOne c' =>
          obtain rfl : c = c' := by simpa [Action.touches] using htouch
          cases hcall
          unfold State.condNotifyOne
          cases hq : s.queues (.cond c) with
          | nil =>
              rw [hq] at hf
              cases hf
          | cons next rest =>
              rw [hq] at hf
              have hnotifies : Waiters.notifies s (.condNotifyOne c) = [next] := by rw [Waiters.notifies, hq]; rfl
              rw [hnotifies]
              by_cases hfn : f = next
              · subst hfn
                exact .inr (.inl ⟨List.mem_singleton_self _, ⟨f, .outcome .done, false⟩,
                  List.mem_append_right _ (List.mem_singleton_self _), rfl, rfl⟩)
              · refine .inl ⟨?_, by simpa using hfn⟩
                change f ∈ Function.update s.queues (.cond c) rest (.cond c)
                rw [Function.update_self]
                exact (List.mem_cons.mp hf).resolve_left hfn
      | condNotifyAll c' =>
          obtain rfl : c = c' := by simpa [Action.touches] using htouch
          cases hcall
          exact .inr (.inl ⟨hf, ⟨f, .outcome .done, false⟩,
            List.mem_append_right _ (List.mem_map.mpr ⟨f, hf, rfl⟩), rfl, rfl⟩)
      | condWait c' m =>
          cases hcall
          refine .inl ⟨?_, List.not_mem_nil⟩
          unfold State.condWait
          repeat' split
          · exact hf
          · exact hf
          · change f ∈ ((s.setQueue (.cond c') (s.queues (.cond c') ++ [r])).condUnlock r m).queues (.cond c)
            rw [queues_condUnlock (q := .cond c) (by simp)]
            change f ∈ Function.update s.queues (.cond c') _ (.cond c)
            by_cases hcc : c = c'
            · subst hcc
              rw [Function.update_self]
              exact List.mem_append_left _ hf
            · rwa [Function.update_of_ne (by simpa using hcc)]
      | fiberInterrupt g =>
          simp only [call] at hcall
          split at hcall
          · rcases fiberInterrupt_cases hcall with ⟨-, rfl⟩ | ⟨-, -, rfl⟩ | ⟨-, -, t, ht, rfl⟩
            · exact .inl ⟨hf, List.not_mem_nil⟩
            · exact .inl ⟨hf, List.not_mem_nil⟩
            · by_cases hi : (s.fibers g).interrupter = .queue (.cond c)
              · rw [hi] at ht
                simp only [State.interrupterCall] at ht
                split at ht
                · cases ht
                  by_cases hfg : f = g
                  · subst hfg
                    exact .inr (.inr ⟨List.not_mem_nil, ⟨f, .outcome .interrupted, false⟩,
                      List.mem_append_right _ (List.mem_singleton_self _), rfl, rfl⟩)
                  · refine .inl ⟨?_, List.not_mem_nil⟩
                    change f ∈ Function.update s.queues (.cond c) _ (.cond c)
                    rw [Function.update_self]
                    exact (List.mem_erase_of_ne hfg).mpr hf
                · cases ht
                  exact .inl ⟨hf, List.not_mem_nil⟩
              · refine .inl ⟨?_, List.not_mem_nil⟩
                change f ∈ t.queues (.cond c)
                rw [queues_interrupterCall hi ht]
                exact hf
          · cases hcall
      | _ => simp [Action.touches] at htouch
    all_goals simp [Action.touches] at htouch

/-- A fiber that waits for a mutex gets it from the fiber that takes it out of
the list, and a fiber that does not run keeps what it has. -/
theorem mutex_moves (h : Coherent s) (hs : exec s a = .ok s') (hidle : s.current ≠ some f)
    (hf : f ∈ s.queues (.mutex m) ∨ f ∈ s.holders m) : f ∈ s'.queues (.mutex m) ∨ f ∈ s'.holders m := by
  have hunlock : ∀ {s₁ : State} {r : FiberId} {m' : Nat}, r ≠ f →
      (f ∈ s₁.queues (.mutex m) ∨ f ∈ s₁.holders m) →
      f ∈ (s₁.condUnlock r m').queues (.mutex m) ∨ f ∈ (s₁.condUnlock r m').holders m := by
    intro s₁ r m' hr hf
    by_cases hm : m = m'
    · subst hm
      unfold State.condUnlock
      cases hq : s₁.queues (.mutex m) with
      | nil =>
          rw [hq] at hf
          refine .inr ?_
          change f ∈ Function.update s₁.holders m _ m
          rw [Function.update_self]
          exact (List.mem_erase_of_ne hr.symm).mpr (hf.resolve_left List.not_mem_nil)
      | cons next rest =>
          rw [hq] at hf
          change f ∈ Function.update s₁.queues (.mutex m) rest (.mutex m) ∨ f ∈ Function.update s₁.holders m _ m
          rw [Function.update_self, Function.update_self]
          rcases hf with hf | hf
          · rcases List.mem_cons.mp hf with rfl | hf
            · exact .inr (List.mem_append_right _ (List.mem_singleton_self _))
            · exact .inl hf
          · exact .inr (List.mem_append_left _ ((List.mem_erase_of_ne hr.symm).mpr hf))
    · have hholders : (s₁.condUnlock r m').holders m = s₁.holders m := by
        unfold State.condUnlock
        split <;> exact Function.update_of_ne hm ..
      rw [queues_condUnlock (by simpa using hm), hholders]
      exact hf
  cases hl : a.locks with
  | false =>
      have hheld := exec_held hl hs
      simp only [State.held, Prod.mk.injEq] at hheld
      have htouch : a.touches (.mutex m) = false := by
        cases a with
        | mutexLock m | mutexTryLock m | mutexUnlock m | condWait c m | recursiveMutexLock m
        | recursiveMutexTryLock m | recursiveMutexUnlock m => cases hl
        | _ => simp [Action.touches, Wait.silent]
      rw [exec_queues h htouch hs, hheld.2.1]
      exact hf
  | true =>
      obtain ⟨-, ⟨r, hr, hcall⟩ | ⟨i, ec, rfl, -⟩ | ⟨i, o, rfl, -⟩ | ⟨p, ps, rfl, -⟩ | ⟨o, rfl, -⟩⟩ := exec_cases hs
      · have hrf : r ≠ f := fun heq => hidle (heq ▸ hr)
        have hmore : ∀ m', f ∈ s.queues (.mutex m) ∨ f ∈ Function.update s.holders m' (s.holders m' ++ [r]) m := by
          intro m'
          refine hf.imp_right fun hf => ?_
          by_cases hm : m = m'
          · subst hm
            rw [Function.update_self]
            exact List.mem_append_left _ hf
          · rwa [Function.update_of_ne hm]
        cases a with
        | mutexLock m' =>
            cases hcall
            unfold State.mutexLock
            split
            · refine hf.imp_left fun hf => ?_
              change f ∈ Function.update s.queues (.mutex m') _ (.mutex m)
              by_cases hm : m = m'
              · subst hm
                rw [Function.update_self]
                exact List.mem_append_left _ hf
              · rwa [Function.update_of_ne (by simpa using hm)]
            · exact hmore m'
        | mutexTryLock m' =>
            cases hcall
            unfold State.mutexTryLock
            split
            · exact hf
            · exact hmore m'
        | mutexUnlock m' =>
            cases hcall
            by_cases hlocked : s.locked m' = false
            · rw [State.mutexUnlock, if_pos hlocked]
              exact hf
            · rw [State.mutexUnlock, if_neg hlocked]
              exact hunlock hrf hf
        | condWait c m' =>
            cases hcall
            unfold State.condWait
            repeat' split
            · exact hf
            · exact hf
            · exact @hunlock (s.setQueue _ _) _ _ hrf hf
        | recursiveMutexLock m' | recursiveMutexTryLock m' | recursiveMutexUnlock m' =>
            cases hcall
            simp only [State.recursiveMutexLock, State.recursiveMutexTryLock, State.recursiveMutexUnlock]
            repeat' split
            all_goals exact hf
        | _ => cases hl
      all_goals cases hl

/-- What a fiber that is suspended in a list is resumed with does not change. -/
theorem posts_kept (h : Coherent s) (h' : Coherent s') (hs : exec s a = .ok s') {x : Post} (hx : x ∈ s.strand)
    (hxf : x.fiber = f) {y : Post} (hy : y ∈ s'.strand) (hyf : y.fiber = f) : y = x := by
  obtain ⟨es, ps, heffect⟩ := exec_effect h hs
  rcases heffect.strand with hstrand | ⟨z, hstrand, -⟩
  · exact posted_unique (h'.at_le_one f .strand) hy (hstrand ▸ List.mem_append_left _ hx) hyf hxf
  · exact posted_unique (h.at_le_one f .strand) (hstrand ▸ List.mem_cons_of_mem _ hy) hx hyf hxf

theorem mem_foldl_waits {es : List Event} {xs : List FiberId} (hf : f ∈ es.foldl (Event.waits q) xs) :
    f ∈ xs ∨ ∃ b, .suspend f (.queue q) b ∈ es := by
  induction es generalizing xs with
  | nil => exact .inl hf
  | cons e es ih =>
      rcases ih hf with hmem | ⟨b, hb⟩
      · unfold Event.waits at hmem
        split at hmem
        · rename_i g q' b
          split at hmem
          · rename_i hq
            subst hq
            rcases List.mem_append.mp hmem with hmem | hmem
            · exact .inl hmem
            · rw [List.mem_singleton] at hmem
              subst hmem
              exact .inr ⟨b, List.mem_cons_self ..⟩
          · exact .inl hmem
        · exact .inl (List.mem_of_mem_erase hmem)
        · exact .inl hmem
      · exact .inr ⟨b, List.mem_cons_of_mem _ hb⟩

/-- Only the running fiber can go to a list. -/
theorem queue_gains (h : Coherent s) (hq : Queued s) (hq' : Queued s') (hs : exec s a = .ok s')
    (hf : f ∈ s'.queues q) : f ∈ s.queues q ∨ s.current = some f := by
  obtain ⟨es, ps, heffect⟩ := exec_effect h hs
  rw [hq' q, State.line_append heffect.log] at hf
  rcases mem_foldl_waits hf with hmem | ⟨b, hb⟩
  · rw [hq q]
    exact .inl hmem
  · cases heffect.emits _ hb with
    | suspend _ _ hcur => exact .inr hcur
    | release _ g he => cases he

/-- Who is in a call and neither runs nor is resumed stays where it is. -/
theorem WaitCall.Fits.exec {x : WaitCall} (hx : x.Fits s f) (h : Coherent s) (h' : Coherent s')
    (hq : Queued s) (hq' : Queued s') (hs : Sched.exec s a = .ok s') (hidle : s.current ≠ some f)
    (hhead : ∀ y ys, a = .runHandler → s.strand = y :: ys → y.fiber ≠ f) :
    (if f ∈ Waiters.notifies s a then { x with notified := true } else x).Fits s' f := by
  have hstays : ∀ {q}, (s.fibers f).phase = .suspended (.queue q) → (s'.fibers f).phase = .suspended (.queue q) := by
    intro q hw
    rcases exec_waiting h h' hw hs with hsame | ⟨ha, y, ys, hstrand, hyf⟩
    · exact hsame
    · exact absurd hyf (hhead y ys ha hstrand)
  unfold WaitCall.Fits at hx
  cases hstage : x.stage with
  | native =>
      rw [hstage] at hx
      obtain ⟨hw, hqueued, hposts⟩ := hx
      rcases h.queued_or_posted hw with hf | ⟨y, hy, hyf⟩
      · rcases cond_moves h hs hf with ⟨hf', hno⟩ | ⟨hyes, y, hy, hyf, hargs⟩ | ⟨hno, y, hy, hyf, hargs⟩
        · rw [if_neg hno, WaitCall.Fits, hstage]
          exact ⟨hstays hw, fun _ => hqueued hf, fun y hy hyf => absurd hyf (h'.queued_not_posted hf' y hy)⟩
        · rw [if_pos hyes]
          simp only [WaitCall.Fits]
          refine ⟨hstays hw, fun hf' => absurd hyf (h'.queued_not_posted hf' y hy), fun z hz hzf => ?_⟩
          rw [posted_unique (h'.at_le_one f .strand) hz hy hzf hyf, hargs]
          rfl
        · rw [if_neg hno]
          simp only [WaitCall.Fits, hstage]
          refine ⟨hstays hw, fun hf' => absurd hyf (h'.queued_not_posted hf' y hy), fun z hz hzf => ?_⟩
          rw [posted_unique (h'.at_le_one f .strand) hz hy hzf hyf, hargs, hqueued hf]
          rfl
      · have hout : ∀ q, f ∉ s.queues q := fun q hf => h.queued_not_posted hf y hy hyf
        have hno : f ∉ Waiters.notifies s a := fun hmem => by
          obtain ⟨c, hc⟩ := mem_notifies hmem
          exact hout _ hc
        rw [if_neg hno]
        simp only [WaitCall.Fits, hstage]
        refine ⟨hstays hw, fun hf' => ?_, fun z hz hzf => ?_⟩
        · rcases queue_gains h hq hq' hs hf' with hf | hcur
          · exact absurd hf (hout _)
          · exact absurd hcur hidle
        · rw [posts_kept h h' hs hy hyf hz hzf]
          exact hposts y hy hyf
  | returned o =>
      rw [hstage] at hx
      exact absurd hx.1 hidle
  | locking o =>
      rw [hstage] at hx
      obtain ⟨hw, ho, hf⟩ := hx
      have hno : f ∉ Waiters.notifies s a := fun hmem => by
        obtain ⟨c, hc⟩ := mem_notifies hmem
        have hcond := h.suspended_of_queued hc
        rw [hw] at hcond
        cases hcond
      rw [if_neg hno]
      simp only [WaitCall.Fits, hstage]
      exact ⟨hstays hw, ho, mutex_moves h hs hidle hf⟩

/-! The invariant of the calls. -/

def Exit.Good (e : Exit) : Prop :=
  match e.ended with
  | .raised _ => e.holds = e.held ∧ e.notified = false
  | .waited o => e.holds = true ∧ o = told e.notified

structure Waiters.Inv (w : Waiters) : Prop where
  sound : Sound w.vm
  queued : Queued w.vm
  fits : ∀ f x, w.calls f = some x → x.Fits w.vm f
  allowed : ∀ f x, w.calls f = some x → w.disallowed f = 0
  waiting : ∀ f c, (w.vm.fibers f).phase = .suspended (.queue (.cond c)) →
    ∃ x, w.calls f = some x ∧ x.cond = c ∧ x.stage = .native
  exits : ∀ e ∈ w.exits, e.Good

end

namespace Waiters

section
variable {w w' : Waiters} {p p' : Process} {s : State} {a : Sched.Action} {f g : FiberId} {c m : Nat} {x : WaitCall}
  {o : Outcome}

theorem follow_call {s : State} (ha : a ≠ .runHandler) : w.follow s (.call a) = w.notify (notifies s a) := by
  cases a with
  | runHandler => exact absurd rfl ha
  | _ => rfl

@[simp] theorem resume_process : (w.resume g o).toProcess = w.toProcess := by
  unfold resume
  repeat' split
  all_goals rfl

@[simp] theorem follow_process {s : State} {x : Process.Action} : (w.follow s x).toProcess = w.toProcess := by
  unfold follow
  repeat' split
  · exact resume_process
  all_goals rfl

theorem notify_nil : w.notify [] = w := by
  cases w
  simp [notify]

theorem notify_calls {fs : List FiberId} {x' : WaitCall} (hx : (w.notify fs).calls f = some x') :
    ∃ x, w.calls f = some x ∧ x' = if f ∈ fs then { x with notified := true } else x := by
  simp only [notify] at hx
  by_cases hf : f ∈ fs
  · rw [if_pos hf] at hx
    obtain ⟨x, hcall, rfl⟩ := Option.map_eq_some_iff.mp hx
    exact ⟨x, hcall, (if_pos hf).symm⟩
  · rw [if_neg hf] at hx
    exact ⟨x', hx, (if_neg hf).symm⟩

theorem Inv.suspended (h : w.Inv) (hx : w.calls f = some x) (hcur : w.vm.current = some f) : ∃ o, x.stage = .returned o := by
  have hrun := (h.sound.coherent f).running.mpr hcur
  have hfits := h.fits f x hx
  unfold WaitCall.Fits at hfits
  cases hstage : x.stage with
  | native =>
      rw [hstage] at hfits
      rw [hrun] at hfits
      cases hfits.1
  | returned o => exact ⟨o, rfl⟩
  | locking o =>
      rw [hstage] at hfits
      rw [hrun] at hfits
      cases hfits.1

/-- The calls of the fibers that neither run nor are resumed. -/
theorem Inv.others (h : w.Inv) (hs : Sched.exec w.vm a = .ok p.vm) (hf : w.vm.current ≠ some f)
    (hhead : ∀ y ys, a = .runHandler → w.vm.strand = y :: ys → y.fiber ≠ f) (hx : w.calls f = some x) :
    (if f ∈ notifies w.vm a then { x with notified := true } else x).Fits p.vm f :=
  (h.fits f x hx).exec h.sound.coherent (step_sound h.sound hs).coherent h.queued
    (exec_queued h.sound.coherent h.queued hs) hs hf hhead

/-- The call of one fiber changes. -/
theorem Inv.update (h : w.Inv) (hsound : Sound w'.vm) (hqueued : Queued w'.vm) {y : Option WaitCall}
    (hcalls : w'.calls = Function.update w.calls g y)
    (hothers : ∀ f, f ≠ g → ∀ x, w.calls f = some x → x.Fits w'.vm f ∧ w'.disallowed f = 0)
    (hself : ∀ x, y = some x → x.Fits w'.vm g ∧ w'.disallowed g = 0)
    (hwaits : ∀ f c, (w'.vm.fibers f).phase = .suspended (.queue (.cond c)) →
      f ≠ g ∧ (w.vm.fibers f).phase = .suspended (.queue (.cond c)) ∨
        f = g ∧ ∃ x, y = some x ∧ x.cond = c ∧ x.stage = .native)
    (hexits : ∀ e ∈ w'.exits, e ∈ w.exits ∨ e.Good) : w'.Inv := by
  have hboth : ∀ f x, w'.calls f = some x → x.Fits w'.vm f ∧ w'.disallowed f = 0 := by
    intro f x hx
    rw [hcalls] at hx
    by_cases hf : f = g
    · subst hf
      rw [Function.update_self] at hx
      exact hself x hx
    · rw [Function.update_of_ne hf] at hx
      exact hothers f hf x hx
  refine ⟨hsound, hqueued, fun f x hx => (hboth f x hx).1, fun f x hx => (hboth f x hx).2, fun f c hphase => ?_,
    fun e he => (hexits e he).elim (h.exits e) id⟩
  rw [hcalls]
  rcases hwaits f c hphase with ⟨hf, hold⟩ | ⟨rfl, x, rfl, hx⟩
  · rw [Function.update_of_ne hf]
    exact h.waiting f c hold
  · exact ⟨x, Function.update_self .., hx⟩

theorem Inv.runHandler (h : w.Inv) (hs : w.toProcess.exec (.call .runHandler) = .ok p) :
    ({ w with toProcess := p }.follow w.vm (.call .runHandler)).Inv := by
  rcases Process.call_cases hs with ⟨hasks, -⟩ | ⟨-, hexec, hallowed⟩
  · cases hasks
  · have hsound := step_sound h.sound hexec
    have hqueued := exec_queued h.sound.coherent h.queued hexec
    obtain ⟨-, ⟨r, -, hcall⟩ | ⟨i, ec, ha, -⟩ | ⟨i, o, ha, -⟩ | ⟨y, ys, -, hcur, hstrand, hresume⟩ | ⟨o, ha, -⟩⟩ :=
      exec_cases hexec
    · cases hcall
    · cases ha
    · cases ha
    · have hfollow : ({ w with toProcess := p }.follow w.vm (.call .runHandler)) =
          { w with toProcess := p }.resume y.fiber (y.args.read (w.vm.fibers y.fiber).interrupted) := by
        rw [follow]
        simp only [hstrand]
      obtain ⟨v, hv, hvm⟩ := fiberResume_cases hresume
      have hrun : p.vm.current = some y.fiber := by rw [hvm]; rfl
      have hmem : y ∈ w.vm.strand := hstrand ▸ List.mem_cons_self ..
      have hothers : ∀ f, f ≠ y.fiber → ∀ x, w.calls f = some x → x.Fits p.vm f ∧ p.disallowed f = 0 := by
        intro f hf x hx
        refine ⟨h.others hexec (by simp [hcur]) (fun z zs _ hz => ?_) hx, (congrFun hallowed f).trans (h.allowed f x hx)⟩
        rw [hstrand] at hz
        cases hz
        exact hf.symm
      have hwaits : ∀ f c, (p.vm.fibers f).phase = .suspended (.queue (.cond c)) →
          f ≠ y.fiber ∧ (w.vm.fibers f).phase = .suspended (.queue (.cond c)) := by
        intro f c hphase
        refine ⟨?_, ?_⟩
        · rintro rfl
          rw [(hsound.coherent _).running.mpr hrun] at hphase
          cases hphase
        · rcases exec_suspends h.sound.coherent hsound.coherent hphase hexec with hold | ⟨hf, -⟩
          · exact hold
          · rw [hcur] at hf
            cases hf
      rw [hfollow]
      unfold resume
      cases hx : w.calls y.fiber with
      | none =>
          refine h.update hsound hqueued (g := y.fiber) (y := none) ?_ hothers nofun
            (fun f c hphase => .inl (hwaits f c hphase)) fun e he => .inl he
          change w.calls = _
          rw [← hx]
          exact (Function.update_eq_self ..).symm
      | some x =>
          have hfits := h.fits _ x hx
          unfold WaitCall.Fits at hfits
          cases hstage : x.stage with
          | returned o =>
              rw [hstage, hcur] at hfits
              cases hfits.1
          | native =>
              rw [hstage] at hfits
              obtain ⟨-, -, hposts⟩ := hfits
              simp only [hstage]
              refine h.update hsound hqueued rfl hothers (fun x' hx' => ?_) (fun f c hphase => .inl (hwaits f c hphase))
                fun e he => .inl he
              obtain rfl := Option.some.inj hx'
              refine ⟨⟨hrun, ?_⟩, (congrFun hallowed _).trans (h.allowed _ x hx)⟩
              rw [hposts y hmem rfl]
              rfl
          | locking o =>
              rw [hstage] at hfits
              obtain ⟨-, ho, hhas⟩ := hfits
              simp only [hstage]
              refine h.update hsound hqueued rfl hothers nofun (fun f c hphase => .inl (hwaits f c hphase)) fun e he => ?_
              rcases List.mem_append.mp he with hold | hnew
              · exact .inl hold
              · rw [List.mem_singleton] at hnew
                subst hnew
                refine .inr ⟨decide_eq_true ?_, ho⟩
                have hheld := exec_held rfl hexec
                simp only [State.held, Prod.mk.injEq] at hheld
                change y.fiber ∈ p.vm.holders x.mutex
                rw [hheld.2.1]
                exact hhas.resolve_left fun hq => h.sound.coherent.queued_not_posted hq y hmem rfl
    · cases ha

/-- What the running fiber or the system does, where the running fiber is not in a call. -/
theorem Inv.call (h : w.Inv) (ha : a ≠ .runHandler) (hact : w.mayAct (.call a) = true)
    (hs : w.toProcess.exec (.call a) = .ok p) : ({ w with toProcess := p }.follow w.vm (.call a)).Inv := by
  rw [follow_call ha]
  rcases Process.call_cases hs with ⟨hasks, -, rfl⟩ | ⟨-, hexec, hallowed⟩
  · have hno : notifies w.vm a = [] := by
      cases a with
      | condNotifyOne c | condNotifyAll c => cases hasks
      | _ => rfl
    rw [hno, notify_nil]
    exact h
  · have hsound := step_sound h.sound hexec
    have hqueued := exec_queued h.sound.coherent h.queued hexec
    refine ⟨hsound, hqueued, fun f x' hx' => ?_, fun f x' hx' => ?_, fun f c hphase => ?_, h.exits⟩
    · obtain ⟨x, hx, rfl⟩ := notify_calls hx'
      by_cases hcur : w.vm.current = some f
      · -- only the system acts beside a fiber that is in a call
        obtain ⟨o, hstage⟩ := h.suspended hx hcur
        have hfits := h.fits f x hx
        rw [WaitCall.Fits, hstage] at hfits
        have hsame : p.vm.current = w.vm.current ∧ notifies w.vm a = [] := by
          obtain ⟨-, ⟨r, -, hcall⟩ | ⟨i, ec, rfl, hsys⟩ | ⟨i, o, rfl, hsys⟩ | ⟨y, ys, rfl, -⟩ | ⟨o, rfl, hnone, -⟩⟩ :=
            exec_cases hexec
          · have hno : (w.calls f).isNone = false := by rw [hx]; rfl
            cases a with
            | runHandler | complete _ _ | deliver _ | answer _ _ => cases hcall
            | condWait c m => cases hact
            | _ =>
                simp only [mayAct, hcur, hno] at hact
                cases hact
          · obtain ⟨y, -, -, hvm⟩ := complete_cases hsys
            rw [hvm]
            exact ⟨rfl, rfl⟩
          · obtain ⟨y, -, -, hvm⟩ := answer_cases hsys
            rw [hvm]
            exact ⟨rfl, rfl⟩
          · exact absurd rfl ha
          · rw [hnone] at hcur
            cases hcur
        rw [hsame.2, if_neg List.not_mem_nil, WaitCall.Fits, hstage]
        exact ⟨hsame.1.trans hcur, hfits.2⟩
      · exact h.others hexec hcur (fun y ys hrun => absurd hrun ha) hx
    · obtain ⟨x, hx, rfl⟩ := notify_calls hx'
      exact (congrFun hallowed f).trans (h.allowed f x hx)
    · rcases exec_suspends h.sound.coherent hsound.coherent hphase hexec with hold | ⟨-, henters⟩
      · obtain ⟨x, hx, hc, hstage⟩ := h.waiting f c hold
        refine ⟨if f ∈ notifies w.vm a then { x with notified := true } else x, ?_, ?_⟩
        · simp only [notify, hx]
          split <;> rfl
        · split <;> exact ⟨hc, hstage⟩
      · cases a with
        | condWait c m => cases hact
        | _ => simp [Action.enters] at henters

theorem Inv.process (h : w.Inv) {a : Process.Action} (hact : w.mayAct a = true) (hs : w.toProcess.exec a = .ok p) :
    ({ w with toProcess := p }.follow w.vm a).Inv := by
  cases a with
  | call a =>
      by_cases ha : a = .runHandler
      · subst ha
        exact h.runHandler hs
      · exact h.call ha hact hs
  | forbidSuspend | allowSuspend =>
      have hkept : p.vm = w.vm ∧ ∀ f, w.vm.current ≠ some f → p.disallowed f = w.disallowed f := by
        simp only [Process.exec] at hs
        repeat' split at hs
        all_goals cases hs
        all_goals refine ⟨rfl, fun f hf => ?_⟩
        all_goals first | rfl | (refine Function.update_of_ne (fun heq => hf ?_) ..; rw [heq]; assumption)
      obtain ⟨hvm, hallowed⟩ := hkept
      refine ⟨?_, ?_, fun f x hx => ?_, fun f x hx => ?_, ?_, h.exits⟩
      · exact hvm ▸ h.sound
      · exact hvm ▸ h.queued
      · exact hvm ▸ h.fits f x hx
      · refine (hallowed f fun hcur => ?_).trans (h.allowed f x hx)
        simp only [mayAct, hcur] at hact
        rw [show w.calls f = some x from hx] at hact
        cases hact
      · exact hvm ▸ h.waiting

theorem call_of_exec (hf : w.vm.current = some f) (hs : Sched.exec w.vm a = .ok s)
    (ha : a.locks = true) : Sched.call w.vm f a = .ok s := by
  obtain ⟨-, ⟨r, hr, hcall⟩ | ⟨i, ec, rfl, -⟩ | ⟨i, o, rfl, -⟩ | ⟨y, ys, rfl, -⟩ | ⟨o, rfl, -⟩⟩ := exec_cases hs
  · obtain rfl : f = r := Option.some.inj (hf.symm.trans hr)
    exact hcall
  all_goals cases ha

/-- `cond_wait` raises an error and leaves everything as it is, or the fiber
goes to the list and the mutex is unlocked. -/
theorem condWait_cases {c m : Option Nat} (hf : p.vm.current = some f) (hp : p.condWait c m = .ok p') :
    (∃ e, p.condWaitReply f c m = .raised e ∧ (p'.vm = p.vm ∨ p'.vm = p.vm.record (.refuse f)) ∧
      p'.disallowed = p.disallowed) ∨
    ∃ c' m', c = some c' ∧ m = some m' ∧ p.condWaitReply f c m = .suspended ∧ p.disallowed f = 0 ∧
      p.exec (.call (.condWait c' m')) = .ok p' ∧ (p'.vm.fibers f).phase = .suspended (.queue (.cond c')) ∧
      f ∈ p'.vm.queues (.cond c') := by
  cases c with
  | none =>
      cases hp
      exact .inl ⟨_, rfl, .inl rfl, rfl⟩
  | some c =>
      cases m with
      | none =>
          cases hp
          exact .inl ⟨_, rfl, .inl rfl, rfl⟩
      | some m =>
          have hexec : p.exec (.call (.condWait c m)) = .ok p' := hp
          unfold Process.condWaitReply
          simp only
          rcases Process.call_cases hexec with ⟨-, hno, rfl⟩ | ⟨hok, hs, hallowed⟩
          · rw [Process.forbids_iff hf] at hno
            by_cases hlocked : p'.vm.locked m = false
            · rw [if_pos hlocked]
              exact .inl ⟨_, rfl, .inl rfl, rfl⟩
            · rw [if_neg hlocked, if_pos hno]
              exact .inl ⟨_, rfl, .inl rfl, rfl⟩
          · have hmay : p.disallowed f = 0 := by
              by_contra hno
              rw [(Process.forbids_iff hf).mpr hno] at hok
              exact absurd (hok rfl) nofun
            obtain hvm : p.vm.condWait f c m = p'.vm :=
              Except.ok.inj (call_of_exec (w := ⟨p, fun _ => none, []⟩) hf hs rfl)
            unfold State.condWait at hvm
            by_cases hlocked : p.vm.locked m = false
            · rw [if_pos hlocked] at hvm
              rw [if_pos hlocked]
              exact .inl ⟨_, rfl, .inl hvm.symm, hallowed⟩
            · rw [if_neg hlocked] at hvm
              rw [if_neg hlocked, if_neg (by simpa using hmay)]
              by_cases hrefused : (p.vm.fibers f).refused = true
              · rw [if_pos hrefused] at hvm
                rw [if_pos hrefused]
                exact .inl ⟨_, rfl, .inr hvm.symm, hallowed⟩
              · rw [if_neg hrefused] at hvm
                rw [if_neg hrefused]
                refine .inr ⟨c, m, rfl, rfl, rfl, hmay, hexec, ?_, ?_⟩
                · rw [← hvm]
                  exact suspend_phase _
                · rw [← hvm]
                  change f ∈ (State.condUnlock _ f m).queues (.cond c)
                  rw [queues_condUnlock (q := .cond c) (by simp)]
                  change f ∈ Function.update p.vm.queues (.cond c) _ (.cond c)
                  rw [Function.update_self]
                  exact List.mem_append_right _ (List.mem_singleton_self _)

/-- The calls of the other fibers when the running fiber does `a`. -/
theorem Inv.acting (h : w.Inv) (hf : w.vm.current = some f) (hno : notifies w.vm a = []) (ha : a ≠ .runHandler)
    (hs : w.toProcess.exec (.call a) = .ok p) (g : FiberId) (hg : g ≠ f) (x : WaitCall) (hx : w.calls g = some x) :
    x.Fits p.vm g ∧ p.disallowed g = 0 := by
  rcases Process.call_cases hs with ⟨-, -, rfl⟩ | ⟨-, hexec, hallowed⟩
  · exact ⟨h.fits g x hx, h.allowed g x hx⟩
  · have hcur : w.vm.current ≠ some g := fun heq => hg (Option.some.inj (heq.symm.trans hf))
    have hfits := h.others hexec hcur (fun y ys hrun => absurd hrun ha) hx
    rw [hno, if_neg List.not_mem_nil] at hfits
    exact ⟨hfits, (congrFun hallowed g).trans (h.allowed g x hx)⟩

theorem condWait_sound {c m : Option Nat} (h : Sound p.vm ∧ Queued p.vm) (hp : p.condWait c m = .ok p') :
    Sound p'.vm ∧ Queued p'.vm := by
  unfold Process.condWait at hp
  split at hp
  · exact Process.exec_sound h hp
  · cases hp
    exact h

theorem Inv.wait (h : w.Inv) {c m : Option Nat} (hs : w.exec (.wait c m) = .ok w') : w'.Inv := by
  simp only [exec] at hs
  cases hcur : w.vm.current with
  | none => simp only [hcur] at hs; cases hs
  | some f =>
      simp only [hcur] at hs
      split at hs
      · cases hs
      · cases hp : w.condWait c m with
        | error e => rw [hp] at hs; cases hs
        | ok p =>
            rw [hp] at hs
            simp only [bind, Except.bind] at hs
            obtain ⟨hsound, hqueued⟩ := condWait_sound ⟨h.sound, h.queued⟩ hp
            rcases condWait_cases hcur hp with ⟨e, hreply, hvm, hallowed⟩ |
              ⟨c', m', rfl, rfl, hreply, hmay, hexec, hphase, hmem⟩
            · simp only [hreply, Except.ok.injEq] at hs
              subst hs
              have hholds : m.any (p.holds f) = m.any (w.holds f) := by
                refine congrArg m.any (funext fun m' => ?_)
                rcases hvm with hvm | hvm
                · rw [Process.holds, hvm]
                  rfl
                · rw [Process.holds, hvm]
                  rfl
              have hgood : Exit.Good ⟨f, .raised e, m.any (w.holds f), m.any (p.holds f), false⟩ := ⟨hholds, rfl⟩
              refine ⟨hsound, hqueued, fun g x hx => ?_, fun g x hx => (congrFun hallowed g).trans (h.allowed g x hx), ?_,
                fun e he => ?_⟩
              · rcases hvm with hvm | hvm
                · exact hvm ▸ h.fits g x hx
                · have hfits := h.fits g x hx
                  change x.Fits p.vm g
                  rw [hvm]
                  exact hfits
              · rcases hvm with hvm | hvm
                · exact hvm ▸ h.waiting
                · change ∀ g c, (p.vm.fibers g).phase = _ → _
                  rw [hvm]
                  exact h.waiting
              · rcases List.mem_append.mp he with hold | hnew
                · exact h.exits e hold
                · rw [List.mem_singleton] at hnew
                  exact hnew ▸ hgood
            · simp only [hreply, Except.ok.injEq] at hs
              subst hs
              have hallowed : p.disallowed = w.disallowed := by
                rcases Process.call_cases hexec with ⟨-, -, rfl⟩ | ⟨-, -, hallowed⟩
                · rfl
                · exact hallowed
              have hothers := h.acting (a := .condWait c' m') hcur rfl (by simp) hexec
              refine h.update hsound hqueued rfl hothers (fun x hx => ?_) (fun g c hg => ?_) fun e he => .inl he
              · obtain rfl := Option.some.inj hx
                exact ⟨⟨hphase, fun _ => rfl, fun y hy hyf => absurd hyf (hsound.coherent.queued_not_posted hmem y hy)⟩,
                  (congrFun hallowed f).trans hmay⟩
              · by_cases hgf : g = f
                · subst hgf
                  cases hphase.symm.trans hg
                  exact .inr ⟨rfl, _, rfl, rfl, rfl⟩
                · refine .inl ⟨hgf, ?_⟩
                  rcases Process.call_cases hexec with ⟨-, -, heq⟩ | ⟨-, hsched, -⟩
                  · rw [heq] at hg
                    exact hg
                  · rcases exec_suspends h.sound.coherent hsound.coherent hg hsched with hold | ⟨hcur', -⟩
                    · exact hold
                    · exact absurd (Option.some.inj (hcur'.symm.trans hcur)) hgf

theorem Inv.lock (h : w.Inv) (hs : w.exec .lock = .ok w') : w'.Inv := by
  simp only [exec] at hs
  cases hcur : w.vm.current with
  | none => simp only [hcur] at hs; cases hs
  | some f =>
      cases hx : w.calls f with
      | none => simp only [hcur, hx] at hs; cases hs
      | some x =>
          obtain ⟨o, hstage⟩ := h.suspended hx hcur
          have hmay := h.allowed f x hx
          have hfits := h.fits f x hx
          rw [WaitCall.Fits, hstage] at hfits
          simp only [hcur, hx, hstage] at hs
          cases hp : w.toProcess.exec (.call (.mutexLock x.mutex)) with
          | error e => rw [hp] at hs; cases hs
          | ok p =>
              rw [hp] at hs
              simp only [bind, Except.bind] at hs
              rcases Process.call_cases hp with ⟨-, hno, -⟩ | ⟨-, hexec, hallowed⟩
              · rw [Process.forbids_iff hcur] at hno
                exact absurd hmay hno
              · have hsound := step_sound h.sound hexec
                have hqueued := exec_queued h.sound.coherent h.queued hexec
                have hvm : p.vm = w.vm.mutexLock f x.mutex := (Except.ok.inj (call_of_exec hcur hexec rfl)).symm
                have hwaits : ∀ g c, (p.vm.fibers g).phase = .suspended (.queue (.cond c)) →
                    g ≠ f ∧ (w.vm.fibers g).phase = .suspended (.queue (.cond c)) := by
                  intro g c hg
                  rcases exec_suspends h.sound.coherent hsound.coherent hg hexec with hold | ⟨-, henters⟩
                  · refine ⟨?_, hold⟩
                    rintro rfl
                    rw [(h.sound.coherent g).running.mpr hcur] at hold
                    cases hold
                  · simp [Action.enters] at henters
                have hothers := h.acting (a := .mutexLock x.mutex) hcur rfl (by simp) hp
                unfold Process.mutexLockReply at hs
                rw [if_neg (by simpa using hmay)] at hs
                unfold State.mutexLock at hvm
                by_cases hlocked : w.vm.locked x.mutex = true
                · rw [if_pos hlocked] at hvm hs
                  cases hs
                  refine h.update hsound hqueued rfl hothers (fun x' hx' => ?_)
                    (fun g c hg => .inl (hwaits g c hg)) fun e he => .inl he
                  obtain rfl := Option.some.inj hx'
                  refine ⟨⟨?_, hfits.2, .inl ?_⟩, (congrFun hallowed f).trans hmay⟩
                  · change (p.vm.fibers f).phase = _
                    rw [hvm]
                    exact suspend_phase _
                  · change f ∈ p.vm.queues _
                    rw [hvm]
                    change f ∈ Function.update w.vm.queues (.mutex x.mutex) _ (.mutex x.mutex)
                    rw [Function.update_self]
                    exact List.mem_append_right _ (List.mem_singleton_self _)
                · rw [if_neg hlocked] at hvm hs
                  cases hs
                  refine h.update hsound hqueued rfl hothers (by simp)
                    (fun g c hg => .inl (hwaits g c hg)) fun e he => ?_
                  rcases List.mem_append.mp he with hold | hnew
                  · exact .inl hold
                  · rw [List.mem_singleton] at hnew
                    subst hnew
                    refine .inr ⟨decide_eq_true ?_, hfits.2⟩
                    change f ∈ p.vm.holders x.mutex
                    rw [hvm]
                    change f ∈ Function.update w.vm.holders x.mutex _ x.mutex
                    rw [Function.update_self]
                    exact List.mem_append_right _ (List.mem_singleton_self _)

theorem Inv.step (h : w.Inv) {a : Waiters.Action} (hs : w.exec a = .ok w') : w'.Inv := by
  cases a with
  | process a =>
      simp only [exec] at hs
      split at hs
      · rename_i hact
        cases hp : w.toProcess.exec a with
        | error e => rw [hp] at hs; cases hs
        | ok p =>
            rw [hp] at hs
            cases hs
            exact h.process hact hp
      · cases hs
  | wait c m => exact h.wait hs
  | lock => exact h.lock hs

theorem reachable_inv (hs : Reachable Initial Step w) : w.Inv := by
  refine hs.invariant (I := Inv) ?_ fun w a w' h hstep => h.step hstep
  intro w hw
  rw [hw]
  refine ⟨sound_initial, queued_initial, nofun, nofun, fun f c hphase => ?_, nofun⟩
  simp only [initial, Process.initial, State.initial] at hphase
  repeat' split at hphase
  all_goals cases hphase

/-- `notify_one` on `c` leads from `w` to `w'`. -/
def WakesOldest (w w' : Waiters) (c : Nat) : Prop :=
  match w.vm.line (.cond c) with
  | [] => w' = w
  | next :: rest =>
      w'.vm.line (.cond c) = rest ∧ w'.vm.strand = w.vm.strand ++ [⟨next, .outcome .done, false⟩] ∧
        w'.calls next = (w.calls next).map (fun x => { x with notified := true }) ∧
        ∀ f, f ≠ next → w'.calls f = w.calls f

theorem wakesOldest (h : w.Inv) (hvalid : w.vm.valid = true) (hf : w.vm.current = some f) (hfree : w.calls f = none)
    (c : Nat) : ∃ w', w.exec (.process (.call (.condNotifyOne c))) = .ok w' ∧ WakesOldest w w' c := by
  have hsched : Sched.exec w.vm (.condNotifyOne c) = .ok (w.vm.condNotifyOne c) := by
    unfold Sched.exec
    rw [if_neg (by simp [hvalid])]
    simp only [hf]
    rfl
  have hproc : w.toProcess.exec (.call (.condNotifyOne c)) = .ok ⟨w.vm.condNotifyOne c, w.disallowed⟩ := by
    simp only [Process.exec, Sched.Action.asks, hsched, Bool.false_eq_true, false_and, if_false]
    rfl
  have hact : w.mayAct (.call (.condNotifyOne c)) = true := by
    simp [mayAct, hf, hfree]
  have hexec : w.exec (.process (.call (.condNotifyOne c))) =
      .ok ({ w with vm := w.vm.condNotifyOne c }.notify ((w.vm.queues (.cond c)).take 1)) := by
    simp only [exec, hact, if_true, hproc]
    rfl
  refine ⟨_, hexec, ?_⟩
  have hqueued := exec_queued h.sound.coherent h.queued hsched (.cond c)
  unfold WakesOldest
  rw [← h.queued (.cond c)]
  unfold State.condNotifyOne at hqueued ⊢
  cases hq : w.vm.queues (.cond c) with
  | nil =>
      simp only [List.take_nil]
      rw [notify_nil]
  | cons next rest =>
      simp only [hq] at hqueued
      refine ⟨?_, rfl, if_pos (List.mem_singleton_self _), fun g hg => if_neg (by simpa using hg)⟩
      exact hqueued.symm.trans (Function.update_self ..)

def call (a : Sched.Action) : Action := .process (.call a)

/-- Fiber 2 waits with the mutex, and the main fiber notifies it and then gives
the mutex back. -/
def notifiedWaiter : List Action :=
  [call .runHandler, call .spawn, call .thisFiberYield, call .runHandler, call (.mutexLock 0), .wait (some 0) (some 0),
    call .runHandler, call (.mutexLock 0), call (.condNotifyOne 0), call .thisFiberYield, call .runHandler, .lock,
    call .runHandler, call (.mutexUnlock 0), call .thisFiberYield, call .runHandler]

/-- Fiber 2 has the mutex, and the main fiber, which does not, waits with it. -/
def strangerWaits : List Action :=
  [call .runHandler, call .spawn, call .thisFiberYield, call .runHandler, call (.mutexLock 0), call .thisFiberYield,
    call .runHandler, .wait (some 0) (some 0), call .runHandler, call (.condNotifyOne 0), call .thisFiberYield,
    call .runHandler, .lock]

end

end Waiters

end Emilua.Sched
