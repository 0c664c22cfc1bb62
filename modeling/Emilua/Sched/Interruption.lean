import Emilua.Sched.Effects

/-!
Who is told of an interruption. A fiber raises `interrupted` at a suspension
point that it has entered with its counter at 0, and after `interrupt` only.
Two places of the source do otherwise: the interrupter of a pipe cancels what
other fibers do on the pipe, and an aborted operation is reported as an
interruption to every fiber that has been interrupted, whatever its counter.
-/
namespace Emilua.Sched
open Transition

/-- The actions that touch operations, sends or the receiver. -/
def Action.isIo : Action → Bool
  | .sleepFor | .steadyTimerWait _ | .streamReadSome _ | .pipeReadSome _ | .cancel _ | .fiberInterrupt _ | .chanReceive _
  | .inboxClose | .chanSend | .complete _ _ | .deliver _ | .answer _ _ => true
  | _ => false

structure Apart (s s' : State) : Prop where
  ops : s'.ops = s.ops
  sends : s'.sends = s.sends
  receiver : s'.recvFiber = s.recvFiber
  isOpen : s'.isOpen = s.isOpen
  armed : ∀ g, (s'.fibers g).interrupter = .receive → (s.fibers g).interrupter = .receive

section
variable {s s₁ s' : State} {a : Action} {f : FiberId} {w : Wait}

theorem Apart.of_eq (hfibers : s'.fibers = s.fibers) (hops : s'.ops = s.ops) (hsends : s'.sends = s.sends)
    (hrecv : s'.recvFiber = s.recvFiber) (hopen : s'.isOpen = s.isOpen) : Apart s s' :=
  ⟨hops, hsends, hrecv, hopen, fun _ hg => hfibers ▸ hg⟩

theorem Apart.trans (h : Apart s s₁) (h' : Apart s₁ s') : Apart s s' where
  ops := h'.ops.trans h.ops
  sends := h'.sends.trans h.sends
  receiver := h'.receiver.trans h.receiver
  isOpen := h'.isOpen.trans h.isOpen
  armed g hg := h.armed g (h'.armed g hg)

theorem Apart.of_update {x : Fiber} (hfibers : s'.fibers = Function.update s.fibers f x)
    (hx : x.interrupter = .receive → (s.fibers f).interrupter = .receive) (hops : s'.ops = s.ops)
    (hsends : s'.sends = s.sends) (hrecv : s'.recvFiber = s.recvFiber) (hopen : s'.isOpen = s.isOpen) : Apart s s' where
  ops := hops
  sends := hsends
  receiver := hrecv
  isOpen := hopen
  armed g hg := by
    rw [hfibers] at hg
    by_cases hgf : g = f
    · subst hgf
      rw [Function.update_self] at hg
      exact hx hg
    · rwa [Function.update_of_ne hgf] at hg

theorem apart_record (e : Event) : Apart s (s.record e) := .of_eq rfl rfl rfl rfl rfl

theorem apart_suspend {i : Interrupter} (hi : i ≠ .receive) : Apart s (s.suspend f w i) := by
  refine .of_update (State.suspend_fibers s f w i) ?_ rfl rfl rfl rfl
  simp only [Fiber.setInterrupter]
  split
  · exact id
  · exact fun hno => absurd hno hi

theorem apart_run (o : Outcome) (k : Bool) : Apart s (s.run f w o k) := by
  refine .of_update (State.run_fibers s f w o k) ?_ rfl rfl rfl rfl
  cases k with
  | true => exact id
  | false =>
      simp only [Bool.false_eq_true, if_false, Fiber.setInterrupter]
      split
      · exact id
      · simp

theorem apart_block {i : Interrupter} (hi : i ≠ .receive) (h : Apart s s₁) : Apart s (s₁.suspend f w i) :=
  h.trans (apart_suspend hi)

theorem apart_call (ha : a.isIo = false) (hs : call s f a = .ok s') :
    Apart s s' := by
  cases a with
  | mutexLock m =>
      cases hs
      unfold State.mutexLock
      split
      · exact apart_block (by simp) (.of_eq rfl rfl rfl rfl rfl)
      · exact .of_eq rfl rfl rfl rfl rfl
  | mutexTryLock m | recursiveMutexTryLock m | recursiveMutexUnlock m | condNotifyOne c | condNotifyAll c | mutexUnlock m =>
      cases hs
      simp only [State.mutexTryLock, State.recursiveMutexTryLock, State.recursiveMutexUnlock, State.condNotifyOne,
        State.condNotifyAll, State.mutexUnlock]
      repeat' split
      all_goals exact .of_eq rfl rfl rfl rfl rfl
  | recursiveMutexLock m =>
      cases hs
      unfold State.recursiveMutexLock
      split
      · exact .of_eq rfl rfl rfl rfl rfl
      · split
        · split <;> exact .of_eq rfl rfl rfl rfl rfl
        · exact apart_block (by simp) (.of_eq rfl rfl rfl rfl rfl)
  | condWait c m =>
      cases hs
      unfold State.condWait State.condUnlock
      repeat' split
      · exact .of_eq rfl rfl rfl rfl rfl
      · exact .of_eq rfl rfl rfl rfl rfl
      · exact apart_block (by simp) (.of_eq rfl rfl rfl rfl rfl)
      · exact apart_block (by simp) (.of_eq rfl rfl rfl rfl rfl)
  | futureGet p =>
      cases hs
      unfold State.futureGet
      split
      · exact .of_eq rfl rfl rfl rfl rfl
      · split
        · exact .of_eq rfl rfl rfl rfl rfl
        · exact .of_eq rfl rfl rfl rfl rfl
        · exact .of_eq rfl rfl rfl rfl rfl
        · exact apart_block (by simp) (.of_eq rfl rfl rfl rfl rfl)
  | promiseSetValue p ref | promiseSetError p ref =>
      simp only [call] at hs
      split at hs <;> cases hs
      simp only [State.promiseSetValue, State.promiseSetError]
      split <;> exact .of_eq rfl rfl rfl rfl rfl
  | promiseGc p =>
      simp only [call] at hs
      split at hs <;> cases hs
      exact .of_eq rfl rfl rfl rfl rfl
  | spawn =>
      cases hs
      exact .of_update (f := s.fiberCount) rfl (by intro h; cases h) rfl rfl rfl rfl
  | importModule =>
      simp only [call] at hs
      split at hs <;> cases hs
      exact apart_block (by simp) (.of_update (f := s.fiberCount) rfl (by intro h; cases h) rfl rfl rfl rfl)
  | fiberJoin g =>
      simp only [call] at hs
      split at hs <;> cases hs
      unfold State.fiberJoin
      repeat' split
      · exact .of_eq rfl rfl rfl rfl rfl
      · exact .of_eq rfl rfl rfl rfl rfl
      · exact .of_eq rfl rfl rfl rfl rfl
      · refine apart_block (by simp) (.of_update (f := g) rfl ?_ rfl rfl rfl rfl)
        exact id
      · refine .of_update (f := g) rfl ?_ rfl rfl rfl rfl
        exact id
  | fiberDetach g =>
      simp only [call] at hs
      split at hs <;> cases hs
      unfold State.fiberDetach
      split
      · exact .of_eq rfl rfl rfl rfl rfl
      · split
        all_goals
          refine .of_update (f := g) rfl ?_ rfl rfl rfl rfl
          exact id
  | fiberGc g =>
      simp only [call] at hs
      split at hs <;> cases hs
      unfold State.fiberGc
      split
      · exact .of_eq rfl rfl rfl rfl rfl
      · split
        all_goals
          refine .of_update (f := g) rfl ?_ rfl rfl rfl rfl
          exact id
  | finish ok =>
      have hstop : Apart s (s.stop f ok) := by
        refine .of_update (f := f) rfl ?_ rfl rfl rfl rfl
        exact id
      rcases fiberEpilogue_cases hs with ⟨-, -, -, rfl⟩ | ⟨-, -, rfl⟩ | ⟨-, rfl⟩ | ⟨g, w, -, -, rfl⟩
      · exact ⟨rfl, rfl, rfl, rfl, hstop.armed⟩
      · refine hstop.trans (.of_update (f := f) rfl ?_ rfl rfl rfl rfl)
        exact id
      · refine hstop.trans (.of_update (f := f) rfl ?_ rfl rfl rfl rfl)
        exact id
      · have hrelease : Apart (s.stop f ok) ((s.stop f ok).release f ok) := by
          refine .of_update (f := f) (State.release_fibers _ f ok) ?_ ?_ ?_ ?_ ?_
          · exact id
          all_goals
            unfold State.release
            simp only
            split <;> rfl
        exact (hstop.trans hrelease).trans (apart_run _ _)
  | thisFiberYield =>
      cases hs
      unfold State.thisFiberYield
      split
      · exact .of_eq rfl rfl rfl rfl rfl
      · exact apart_block (by simp) (.of_eq rfl rfl rfl rfl rfl)
  | disableInterruption | restoreInterruption =>
      cases hs
      refine .of_update (f := f) rfl ?_ rfl rfl rfl rfl
      exact id
  | runHandler => cases hs
  | _ => cases ha

end

/-- Fiber `f` has been interrupted, and its counter is 0. -/
def Heard (s : State) (f : FiberId) : Prop := (s.fibers f).interrupted = true ∧ (s.fibers f).disabled.on = false

/-- The interrupter of a receiver leads to it as long as there is one. -/
def ReceiverKnown (s : State) : Prop :=
  ∀ g, (s.fibers g).interrupter = .receive → s.recvFiber = some g ∨ (s.recvFiber = none ∧ s.isOpen = false)

/-- What a step does to operations, sends and the receiver. Operations without
an object and sends are cancelled for fibers that have heard of it. -/
structure IoChange (s s' : State) : Prop where
  ops : ∀ x ∈ s'.ops, (x.cancelled = false ∧ x.fast = x.object.isNone) ∨
    ∃ y ∈ s.ops, x.fiber = y.fiber ∧ x.fast = y.fast ∧ x.object = y.object ∧
      (x.cancelled = y.cancelled ∨ y.object ≠ none ∨ Heard s' y.fiber)
  sends : ∀ x ∈ s'.sends, x ∈ s.sends ∨ x.2 = false ∨ Heard s' x.1
  receiver : ReceiverKnown s → ReceiverKnown s'

section
variable {s s' : State} {a : Action} {f g : FiberId}

theorem ioChange_ops {x : Op} (hx : x ∈ s.ops) : (x.cancelled = false ∧ x.fast = x.object.isNone) ∨
    ∃ y ∈ s.ops, x.fiber = y.fiber ∧ x.fast = y.fast ∧ x.object = y.object ∧
      (x.cancelled = y.cancelled ∨ y.object ≠ none ∨ Heard s' y.fiber) :=
  .inr ⟨x, hx, rfl, rfl, rfl, .inl rfl⟩

theorem Apart.ioChange (h : Apart s s') : IoChange s s' where
  ops x hx := ioChange_ops (h.ops ▸ hx)
  sends x hx := .inl (h.sends ▸ hx)
  receiver hr g hg := by
    rw [h.receiver, h.isOpen]
    exact hr g (h.armed g hg)

/-- Some operations are cancelled. -/
theorem ioChange_setOps_map {c : Op → Bool} (hops : s'.ops = s.ops.map fun x => if c x then { x with cancelled := true } else x)
    (hc : ∀ y ∈ s.ops, c y = true → y.object ≠ none ∨ Heard s' y.fiber) (hsends : s'.sends = s.sends)
    (hrecv : s'.recvFiber = s.recvFiber) (hopen : s'.isOpen = s.isOpen)
    (harmed : ∀ g, (s'.fibers g).interrupter = .receive → (s.fibers g).interrupter = .receive) : IoChange s s' where
  ops x hx := by
    rw [hops] at hx
    obtain ⟨y, hy, rfl⟩ := List.mem_map.mp hx
    by_cases hyc : c y = true
    · rw [if_pos hyc]
      exact .inr ⟨y, hy, rfl, rfl, rfl, .inr (hc y hy hyc)⟩
    · rw [if_neg hyc]
      exact ioChange_ops hy
  sends x hx := .inl (hsends ▸ hx)
  receiver hr g hg := by
    rw [hrecv, hopen]
    exact hr g (harmed g hg)

theorem ioChange_startOp (f : FiberId) (object : Option Nat) {i : Interrupter} (hi : i ≠ .receive) :
    IoChange s (s.startOp f object i) := by
  unfold State.startOp
  split
  · exact (apart_record _).ioChange
  · have hapart : Apart (s.setOps (s.ops ++ [⟨f, object, false, object.isNone⟩]))
        ((s.setOps (s.ops ++ [⟨f, object, false, object.isNone⟩])).suspend f .io i) := apart_suspend hi
    refine ⟨fun x hx => ?_, fun x hx => .inl hx, fun hr g hg => hr g (hapart.armed g hg)⟩
    rcases List.mem_append.mp hx with hold | hnew
    · exact ioChange_ops hold
    · rw [List.mem_singleton] at hnew
      subst hnew
      exact .inl ⟨rfl, rfl⟩

theorem armed_disarm {t : State} (ht : ∀ h, (t.fibers h).interrupter = .receive → (s.fibers h).interrupter = .receive)
    (h : FiberId) (hh : ((t.setFiber g fun x => { x with interrupter := .none }).fibers h).interrupter = .receive) :
    h ≠ g ∧ (s.fibers h).interrupter = .receive := by
  by_cases hg : h = g
  · subst hg
    rw [State.setFiber_fibers_self] at hh
    cases hh
  · rw [State.setFiber_fibers_ne t hg] at hh
    exact ⟨hg, ht h hh⟩

theorem armed_mark (h : FiberId) (hh : ((s.mark g).fibers h).interrupter = .receive) :
    (s.fibers h).interrupter = .receive := by
  rw [State.mark_fibers] at hh
  by_cases hg : h = g
  · subst hg
    rwa [Function.update_self] at hh
  · rwa [Function.update_of_ne hg] at hh

theorem ioChange_fiberInterrupt (h : Coherent s) (hs : s.fiberInterrupt f g = .ok s') : IoChange s s' := by
  rcases fiberInterrupt_cases hs with ⟨-, rfl⟩ | ⟨-, -, rfl⟩ | ⟨-, -, t, ht, rfl⟩
  · exact (Apart.of_eq rfl rfl rfl rfl rfl).ioChange
  · exact Apart.ioChange ⟨rfl, rfl, rfl, rfl, armed_mark⟩
  · have hheard : ∀ {u : State}, (∀ h', (u.fibers h').Steady ((s.mark g).fibers h')) →
        (s.fibers g).interrupter ≠ .none → Heard (u.setFiber g fun x => { x with interrupter := .none }) g := by
      intro u hu hi
      obtain ⟨hself, -⟩ := marked_fibers hu
      refine ⟨hself.2.2, ?_⟩
      rw [hself.2.1]
      exact ((h g).armed hi).1
    cases hint : (s.fibers g).interrupter with
    | none =>
        rw [hint] at ht
        cases ht
        exact Apart.ioChange ⟨rfl, rfl, rfl, rfl, fun h' hh => (armed_disarm armed_mark h' hh).2⟩
    | queue q =>
        rw [hint] at ht
        simp only [State.interrupterCall] at ht
        split at ht <;> cases ht
        all_goals exact Apart.ioChange ⟨rfl, rfl, rfl, rfl, fun h' hh => (armed_disarm armed_mark h' hh).2⟩
    | join h' =>
        rw [hint] at ht
        cases ht
        refine Apart.ioChange ⟨rfl, rfl, rfl, rfl, fun k hk => (armed_disarm (s := s) (fun k' hk' => ?_) k hk).2⟩
        refine armed_mark (g := g) k' ?_
        by_cases hk : k' = h'
        · subst hk
          simpa [State.post, State.setHandle, State.setFiber] using hk'
        · simpa [State.post, State.setHandle, State.setFiber, hk] using hk'
    | signal =>
        rw [hint] at ht
        cases ht
        refine ioChange_setOps_map (c := fun x => x.fiber = g) (by simp [State.setFiber, State.setOps, State.mark, State.record])
          (fun y _ hy => .inr ?_) rfl rfl rfl fun h' hh => (armed_disarm armed_mark h' hh).2
        rw [of_decide_eq_true hy]
        exact hheard (fun _ => .refl _) (by simp [hint])
    | pipe o =>
        rw [hint] at ht
        cases ht
        refine ioChange_setOps_map (c := fun x => x.object = some o)
          (by simp [State.setFiber, State.setOps, State.mark, State.record])
          (fun y _ hy => .inl ?_) rfl rfl rfl fun h' hh => (armed_disarm armed_mark h' hh).2
        rw [of_decide_eq_true hy]
        simp
    | send =>
        rw [hint] at ht
        cases ht
        refine ⟨fun x hx => ioChange_ops hx, fun x hx => ?_, fun hr h' hh => hr h' (armed_disarm armed_mark h' hh).2⟩
        obtain ⟨y, hy, rfl⟩ := List.mem_map.mp hx
        by_cases hyg : y.1 = g
        · rw [if_pos hyg]
          refine .inr (.inr ?_)
          rw [hyg]
          exact hheard (fun _ => .refl _) (by simp [hint])
        · rw [if_neg hyg]
          exact .inl hy
    | receive =>
        rw [hint] at ht
        simp only [State.interrupterCall] at ht
        split at ht <;> cases ht
        refine ⟨fun x hx => ioChange_ops hx, fun x hx => .inl hx, fun hr h' hh => ?_⟩
        -- the receiver was the one that is interrupted, and no other interrupter leads to it
        obtain ⟨hne, harmed⟩ := armed_disarm armed_mark h' hh
        rcases hr h' harmed with hsome | hnone
        · rcases hr g hint with hg | hnone
          · rw [hg] at hsome
            exact absurd (Option.some.inj hsome).symm hne
          · rw [hnone.1] at hsome
            cases hsome
        · exact .inr ⟨rfl, hnone.2⟩

theorem ioChange_chanReceive (f : FiberId) (queued : Bool) :
    IoChange s (s.chanReceive f queued) := by
  unfold State.chanReceive
  split
  · exact (apart_record _).ioChange
  · split
    · exact (Apart.of_eq rfl rfl rfl rfl rfl).ioChange
    · rename_i hguard
      push Not at hguard
      refine ⟨fun x hx => ioChange_ops hx, fun x hx => .inl hx, fun hr g hg => ?_⟩
      by_cases hgf : g = f
      · exact .inl (by rw [hgf]; rfl)
      · have hfib : ((s.setReceiver (some f)).suspend f .receive .receive).fibers g = s.fibers g := by
          rw [State.suspend_fibers, Function.update_of_ne hgf]
          rfl
        rw [hfib] at hg
        rcases hr g hg with hsome | hnone
        · rw [hguard.2.1] at hsome
          cases hsome
        · exact absurd hnone.2 hguard.1

theorem ioChange_inboxClose : IoChange s s.inboxClose := by
  unfold State.inboxClose
  split
  · exact (Apart.of_eq rfl rfl rfl rfl rfl).ioChange
  · split
    · rename_i hr
      exact ⟨fun x hx => ioChange_ops hx, fun x hx => .inl hx, fun _ g _ => .inr ⟨hr, rfl⟩⟩
    · exact ⟨fun x hx => ioChange_ops hx, fun x hx => .inl hx, fun _ g _ => .inr ⟨rfl, rfl⟩⟩

theorem ioChange_call (h : Coherent s) (hs : call s f a = .ok s') : IoChange s s' := by
  cases a with
  | sleepFor | steadyTimerWait o | streamReadSome o | pipeReadSome o =>
      cases hs
      exact ioChange_startOp f _ (by simp)
  | cancel o =>
      cases hs
      refine ioChange_setOps_map (c := fun x => x.object = some o) (by simp [State.cancel, State.setOps])
        (fun y _ hy => .inl ?_) rfl rfl rfl fun _ hg => hg
      rw [of_decide_eq_true hy]
      simp
  | fiberInterrupt g =>
      simp only [call] at hs
      split at hs
      · exact ioChange_fiberInterrupt h hs
      · cases hs
  | chanReceive queued =>
      cases hs
      exact ioChange_chanReceive f queued
  | inboxClose =>
      cases hs
      exact ioChange_inboxClose
  | chanSend =>
      cases hs
      unfold State.chanSend
      split
      · exact (apart_record _).ioChange
      · have hapart : Apart (s.setSends (s.sends ++ [(f, false)])) ((s.setSends (s.sends ++ [(f, false)])).suspend f .send
            .send) := apart_suspend (by simp)
        refine ⟨fun x hx => ioChange_ops hx, fun x hx => ?_, fun hr g hg => hr g (hapart.armed g hg)⟩
        rcases List.mem_append.mp hx with hold | hnew
        · exact .inl hold
        · rw [List.mem_singleton] at hnew
          subst hnew
          exact .inr (.inl rfl)
  | complete _ _ | deliver _ | answer _ _ => cases hs
  | _ => exact (apart_call rfl hs).ioChange

/-- The interrupter of a fiber that is resumed is gone. -/
theorem run_interrupter {w : Wait} {o : Outcome}
    (harmed : (s.fibers f).interrupter ≠ .none → (s.fibers f).disabled.on = false) :
    ((s.run f w o false).fibers f).interrupter = .none := by
  rw [State.run_fibers, Function.update_self]
  simp only [Bool.false_eq_true, if_false, Fiber.setInterrupter]
  split
  · rename_i hon
    by_contra hi
    exact absurd (hon.symm.trans (harmed hi)) (by simp)
  · rfl

theorem ioChange_exec (h : Coherent s) (hs : exec s a = .ok s') : IoChange s s' := by
  obtain ⟨-, ⟨f, hcur, hcall⟩ | ⟨i, ec, -, hs⟩ | ⟨i, o, -, hs⟩ | ⟨p, ps, -, -, -, hs⟩ | ⟨o, -, -, hs⟩⟩ :=
    exec_cases hs
  · exact ioChange_call h hcall
  · obtain ⟨x, -, -, rfl⟩ := complete_cases hs
    refine ⟨fun y hy => ioChange_ops (List.mem_of_mem_eraseIdx hy), fun y hy => .inl hy, fun hr => hr⟩
  · obtain ⟨x, -, -, rfl⟩ := answer_cases hs
    refine ⟨fun y hy => ioChange_ops hy, fun y hy => .inl (List.mem_of_mem_eraseIdx hy), fun hr => hr⟩
  · obtain ⟨w, -, rfl⟩ := fiberResume_cases hs
    have hpop : Apart s { s with strand := ps } := .of_eq rfl rfl rfl rfl rfl
    exact (hpop.trans (apart_run _ _)).ioChange
  · obtain ⟨r, w, hr, hw, -, rfl⟩ := deliver_cases hs
    refine ⟨fun y hy => ioChange_ops hy, fun y hy => .inl hy, fun hknown g hg => ?_⟩
    -- the receiver runs, and its interrupter is cleared
    by_cases hgr : g = r
    · subst hgr
      have hself := run_interrupter (s := s.setReceiver none) (f := g) (w := w) (o := o) fun hi => ((h g).armed hi).1
      rw [hself] at hg
      cases hg
    · have hfib : ((s.setReceiver none).run r w o false).fibers g = s.fibers g := by
        rw [State.run_fibers, Function.update_of_ne hgr]
        rfl
      rw [hfib] at hg
      rcases hknown g hg with hsome | hnone
      · rw [hr] at hsome
        exact absurd (Option.some.inj hsome).symm hgr
      · rw [hr] at hnone
        cases hnone.1

end

/-- The call fiber `f` has suspended in last, and whether its counter was above 0. -/
def Event.suspends (f : FiberId) : Event → Option (Wait × Bool)
  | .suspend g w disabled => if g = f then some (w, disabled) else none
  | _ => none

def lastSuspend (f : FiberId) (log : List Event) : Option (Wait × Bool) :=
  (log.filterMap (Event.suspends f)).getLast?

/-- The interrupter of `g` cancels a pipe that another fiber uses. -/
def cancelsOthers (s : State) : Action → Bool
  | .fiberInterrupt g =>
      match (s.handles g).attached, (s.fibers g).interrupter with
      | true, .pipe o => s.ops.any fun x => x.object = some o && x.fiber ≠ g
      | _, _ => false
  | _ => false

/-- A fiber is resumed from an aborted operation that it has entered with its
counter above 0, and it has been interrupted. -/
def misreports (s : State) : Action → Bool
  | .runHandler =>
      match s.strand with
      | [] => false
      | x :: _ =>
          x.args = .io .aborted false && (s.fibers x.fiber).interrupted && (s.fibers x.fiber).disabled.on
  | _ => false

structure Told (s : State) : Prop where
  fast : ∀ x ∈ s.ops, x.fast = x.object.isNone
  ops : ∀ x ∈ s.ops, x.fast = true → x.cancelled = true → Heard s x.fiber
  sends : ∀ x ∈ s.sends, x.2 = true → Heard s x.1
  receiver : ReceiverKnown s
  posts : ∀ x ∈ s.strand, x.args = .outcome .interrupted ∨ x.args = .io .aborted true → Heard s x.fiber
  codes : ∀ x ∈ s.strand, ∀ ec k, x.args = .io ec k → ec ≠ .interrupted
  start : ∀ x ∈ s.strand, (s.fibers x.fiber).phase = .suspended .start → x.args = .outcome .done
  last : ∀ f w, (s.fibers f).phase = .suspended w →
    w = .start ∨ lastSuspend f s.log = some (w, (s.fibers f).disabled.on)
  observed : ∀ l₁ f w l₂, s.log = l₁ ++ .resume f w .interrupted :: l₂ →
    .interrupt f ∈ l₁ ∧ lastSuspend f l₁ = some (w, false)

section
variable {s s' : State} {a : Action} {es : List Event} {ps : List Post} {f g : FiberId} {w : Wait}

/-- A suspended fiber does not change its counter. -/
theorem Effect.disabled_eq (he : Effect s a s' es ps) (h : Coherent s) (hw : (s.fibers f).phase = .suspended w) :
    (s'.fibers f).disabled = (s.fibers f).disabled := by
  have hcur : s.current ≠ some f := by
    intro hf
    have hrun := (h f).running.mpr hf
    rw [hw] at hrun
    cases hrun
  cases he.turns f with
  | same _ hd | resume _ _ _ hd | interrupt _ hd => exact hd
  | suspend _ hf | finish _ hf | count hf => exact absurd hf hcur
  | born hf =>
      obtain ⟨ok, hok⟩ := (h f).fresh (by rw [hf])
      rw [hw] at hok
      cases hok

theorem Effect.heard (he : Effect s a s' es ps) (h : Coherent s) (hflag : Flagged s) (hflag' : Flagged s')
    (hw : (s.fibers f).phase = .suspended w) (hf : Heard s f) : Heard s' f := by
  refine ⟨?_, ?_⟩
  · exact (hflag'.flag f).mpr (he.log_mem ((hflag.flag f).mp hf.1))
  · rw [he.disabled_eq h hw]
    exact hf.2

theorem Settled.at_wait (h : Settled s f) {l : Place} (hl : l ≠ .strand) (hf : f ∈ s.at l) :
    ∃ w, (s.fibers f).phase = .suspended w := by
  obtain ⟨w, hw, -, -⟩ := h.of_mem hl hf
  exact ⟨w, hw⟩

theorem lastSuspend_append (l es : List Event) (hes : ∀ e ∈ es, e.suspends f = none) :
    lastSuspend f (l ++ es) = lastSuspend f l := by
  have hnil : es.filterMap (Event.suspends f) = [] := List.filterMap_eq_nil_iff.mpr hes
  rw [lastSuspend, List.filterMap_append, hnil, List.append_nil, lastSuspend]

theorem lastSuspend_new {l es : List Event} {y : Wait × Bool} (hes : ∀ e ∈ es, e.suspends f = none ∨ e.suspends f = some y)
    (hmem : ∃ e ∈ es, e.suspends f = some y) : lastSuspend f (l ++ es) = some y := by
  have hall : ∀ z ∈ es.filterMap (Event.suspends f), z = y := by
    intro z hz
    obtain ⟨e, he, hez⟩ := List.mem_filterMap.mp hz
    rcases hes e he with hnone | hsome
    · rw [hnone] at hez
      cases hez
    · rw [hsome] at hez
      exact (Option.some.inj hez).symm
  have hne : es.filterMap (Event.suspends f) ≠ [] := by
    obtain ⟨e, he, hey⟩ := hmem
    exact List.ne_nil_of_mem (List.mem_filterMap.mpr ⟨e, he, hey⟩)
  rw [lastSuspend, List.filterMap_append, List.getLast?_append_of_ne_nil _ hne,
    List.getLast?_eq_some_getLast hne, hall _ (List.getLast_mem hne)]

/-- The events of a step that suspend `f`. -/
theorem Effect.suspends (he : Effect s a s' es ps) {e : Event} (hmem : e ∈ es) {y : Wait × Bool}
    (hy : e.suspends f = some y) :
    s.current = some f ∧ (s'.fibers f).phase = .suspended y.1 ∧ y.2 = (s.fibers f).disabled.on := by
  cases he.emits e hmem with
  | suspend f' w hf hw _ =>
      simp only [Event.suspends] at hy
      split at hy
      · rename_i heq
        subst heq
        cases hy
        exact ⟨hf, hw, rfl⟩
      · cases hy
  | release _ _ hrel => cases e <;> simp_all [Event.suspends, Event.releases]
  | _ => cases hy

/-- The handler that runs and what it reads. -/
theorem interrupted_read {x : Args} {b : Bool} (h : x.read b = .interrupted) :
    x = .outcome .interrupted ∨ x = .io .aborted true ∨ (x = .io .aborted false ∧ b = true) ∨
      ∃ k, x = .io .interrupted k := by
  cases x with
  | outcome o =>
      left
      have ho : o = .interrupted := h
      rw [ho]
  | io ec fast =>
      cases ec with
      | aborted =>
          simp only [Args.read] at h
          cases fast with
          | true => exact .inr (.inl rfl)
          | false =>
              cases b with
              | true => exact .inr (.inr (.inl ⟨rfl, rfl⟩))
              | false => cases h
      | interrupted => exact .inr (.inr (.inr ⟨fast, rfl⟩))
      | _ => cases h

theorem Effect.strand_mem (he : Effect s a s' es ps) {x : Post} (hx : x ∈ s'.strand) : x ∈ s.strand ∨ x ∈ ps := by
  rcases he.strand with hstrand | ⟨y, hstrand, rfl⟩
  · rw [hstrand] at hx
    exact List.mem_append.mp hx
  · rw [hstrand]
    exact .inl (List.mem_cons_of_mem y hx)

/-- What is posted for a fiber that raises `interrupted` has been heard. -/
theorem told_posts (h : Coherent s) (ht : Told s) (hflag : Flagged s) (hflag' : Flagged s') (he : Effect s a s' es ps)
    {x : Post} (hx : x ∈ s'.strand) (hargs : x.args = .outcome .interrupted ∨ x.args = .io .aborted true) :
    Heard s' x.fiber := by
  rcases he.strand_mem hx with hold | hnew
  · obtain ⟨w, hw, -⟩ := (h x.fiber).of_posted (List.mem_map.mpr ⟨x, hold, rfl⟩)
    exact he.heard h hflag hflag' hw (ht.posts x hold hargs)
  · cases he.posts x hnew with
    | interrupt f hon hyes harmed =>
        obtain ⟨-, w, hw, -⟩ := (h f).armed harmed
        exact ⟨hyes, by rw [he.disabled_eq h hw]; exact hon⟩
    | receiver f g hf hg hyes =>
        have hgf : f = g := by
          rcases ht.receiver g hg with hsome | hnone
          · exact Option.some.inj (hf.symm.trans hsome)
          · rw [hf] at hnone
            cases hnone.1
        subst hgf
        obtain ⟨hon, w, hw, -⟩ := (h f).armed (by rw [hg]; exact nofun)
        exact ⟨hyes, by rw [he.disabled_eq h hw]; exact hon⟩
    | complete y ec hy hec =>
        have haborted : ec = .aborted ∧ y.fast = true := by simpa using hargs
        obtain ⟨w, hw⟩ := (h y.fiber).at_wait (l := .io) nofun (List.mem_map.mpr ⟨y, hy, rfl⟩)
        have hcancelled : y.cancelled = true := by
          rw [haborted.1] at hec
          simpa using hec
        exact he.heard h hflag hflag' hw (ht.ops y hy haborted.2 hcancelled)
    | send y o hy ho =>
        have hint : o = .interrupted := by simpa using hargs
        obtain ⟨w, hw⟩ := (h y.1).at_wait (l := .send) nofun (List.mem_map.mpr ⟨y, hy, rfl⟩)
        have hasked : y.2 = true := by
          rw [hint] at ho
          simpa using ho
        exact he.heard h hflag hflag' hw (ht.sends y hy hasked)
    | answer f p o hf ho =>
        have hint : o = .interrupted := by simpa using hargs
        rw [hint] at ho
        cases hfuture : s'.futures p <;> rw [hfuture] at ho <;> cases ho
    | start | yield _ _ _ | wake _ _ _ _ _ | close _ _ => simp at hargs

theorem told_start (h : Coherent s) (ht : Told s) (he : Effect s a s' es ps) {x : Post} (hx : x ∈ s'.strand)
    (hw : (s'.fibers x.fiber).phase = .suspended .start) : x.args = .outcome .done := by
  rcases he.strand_mem hx with hold | hnew
  · obtain ⟨w, hw₀, -⟩ := (h x.fiber).of_posted (List.mem_map.mpr ⟨x, hold, rfl⟩)
    have hwait := he.wait_eq h hw₀ hw
    exact ht.start x hold (hwait ▸ hw₀)
  · cases he.posts x hnew with
    | start | yield _ _ _ | wake _ _ _ _ _ => rfl
    | answer f p o hf ho =>
        have hplace := he.wait_of_mem h (l := .queue (.future p)) (by simp) hf hw
        cases hplace
    | interrupt f hon hyes harmed =>
        obtain ⟨-, w, hw₀, hfits⟩ := (h f).armed harmed
        have hwait := he.wait_eq h hw₀ hw
        subst hwait
        cases hi : (s.fibers f).interrupter <;> rw [hi] at hfits harmed <;> first | exact absurd rfl harmed | cases hfits
    | receiver f g hf | close f hf =>
        have hplace := he.wait_of_mem h (l := .receive) (by simp) (by simp [State.at, hf]) hw
        cases hplace
    | complete y ec hy hec =>
        have hplace := he.wait_of_mem h (l := .io) (by simp) (List.mem_map.mpr ⟨y, hy, rfl⟩) hw
        cases hplace
    | send y o hy ho =>
        have hplace := he.wait_of_mem h (l := .send) (by simp) (List.mem_map.mpr ⟨y, hy, rfl⟩) hw
        cases hplace

theorem told_last (h : Coherent s) (ht : Told s) (he : Effect s a s' es ps)
    (hw : (s'.fibers f).phase = .suspended w) :
    w = .start ∨ lastSuspend f s'.log = some (w, (s'.fibers f).disabled.on) := by
  have hstays : ∀ {w₀}, (s.fibers f).phase = .suspended w₀ →
      w = .start ∨ lastSuspend f s'.log = some (w, (s'.fibers f).disabled.on) := by
    intro w₀ hw₀
    have hwait := he.wait_eq h hw₀ hw
    subst hwait
    refine (ht.last f w hw₀).imp_right fun hlast => ?_
    rw [he.log, lastSuspend_append, hlast, he.disabled_eq h hw₀]
    intro e hmem
    by_contra hsome
    obtain ⟨y, hy⟩ := Option.ne_none_iff_exists'.mp hsome
    have hrun := (h f).running.mpr (he.suspends hmem hy).1
    rw [hw₀] at hrun
    cases hrun
  cases he.turns f with
  | same hphase | interrupt hphase => exact hstays (hphase ▸ hw)
  | suspend w₀ hf hphase hdisabled _ hmem =>
      rw [hphase] at hw
      cases hw
      refine .inr ?_
      rw [he.log, hdisabled]
      refine lastSuspend_new (fun e hmem => ?_) ⟨_, hmem, by simp [Event.suspends]⟩
      cases hy : e.suspends f with
      | none => exact .inl rfl
      | some y =>
          obtain ⟨-, hphase', hon⟩ := he.suspends hmem hy
          rw [hphase] at hphase'
          refine .inr ?_
          rw [Phase.suspended.inj hphase', ← hon]
  | resume _ _ hphase =>
      rw [hphase] at hw
      cases hw
  | finish _ _ hphase =>
      rw [hphase] at hw
      cases hw
  | count hf hphase =>
      rw [hphase, (h f).running.mpr hf] at hw
      cases hw
  | born _ hphase =>
      rw [hphase] at hw
      exact .inl (Phase.suspended.inj hw).symm

/-- Only a handler of the strand resumes a fiber with `interrupted`. -/
theorem interrupted_resume (he : Effect s a s' es ps) (hs : exec s a = .ok s')
    (hmem : .resume f w .interrupted ∈ es) :
    ∃ x rest, a = .runHandler ∧ s.strand = x :: rest ∧ x.fiber = f ∧ (s.fibers f).phase = .suspended w ∧
      x.args.read (s.fibers f).interrupted = .interrupted ∧ es = [.resume f w .interrupted] := by
  have hes : ∀ {l : List Event}, s'.log = s.log ++ l → es = l := by
    intro l hl
    rw [he.log] at hl
    exact List.append_cancel_left hl
  obtain ⟨-, ⟨f', hcur, -⟩ | ⟨i, ec, -, hs⟩ | ⟨i, o, -, hs⟩ | ⟨x, rest, ha, -, hstrand, hs⟩ | ⟨o, -, -, hs⟩⟩ :=
    exec_cases hs
  · cases he.emits _ hmem with
    | resume _ _ _ _ ho =>
        generalize hout : Outcome.interrupted = out at ho
        cases ho with
        | handler _ _ _ hno =>
            rw [hcur] at hno
            cases hno
        | join => cases hout
        | receive _ ho => rcases ho with rfl | rfl <;> cases hout
    | release _ _ hno => cases hno
  · obtain ⟨x, -, -, rfl⟩ := complete_cases hs
    rw [hes rfl] at hmem
    cases List.mem_singleton.mp hmem
  · obtain ⟨x, -, -, rfl⟩ := answer_cases hs
    rw [hes rfl] at hmem
    cases List.mem_singleton.mp hmem
  · obtain ⟨w', hw', rfl⟩ := fiberResume_cases hs
    have hone : es = [.resume x.fiber w' (x.args.read (s.fibers x.fiber).interrupted)] := hes rfl
    rw [hone] at hmem
    obtain ⟨hf, hw, hread⟩ := Event.resume.inj (List.mem_singleton.mp hmem)
    subst hf hw
    rw [← hread] at hone
    exact ⟨x, rest, ha, hstrand, rfl, hw', hread.symm, hone⟩
  · obtain ⟨r, w', -, -, ho, rfl⟩ := deliver_cases hs
    rw [hes rfl] at hmem
    obtain ⟨-, -, hout⟩ := Event.resume.inj (List.mem_singleton.mp hmem)
    rcases ho with rfl | rfl <;> cases hout

theorem not_misreports {x : Post} {xs : List Post} (hok : misreports s .runHandler = false) (hs : s.strand = x :: xs)
    (hargs : x.args = .io .aborted false) (hflag : (s.fibers x.fiber).interrupted = true) :
    (s.fibers x.fiber).disabled.on = false := by
  simp only [misreports, hs, hargs, hflag] at hok
  simpa using hok

/-- A fiber that is resumed with `interrupted` has heard of it. -/
theorem observed_new (hflag : Flagged s) (ht : Told s) (hok : misreports s a = false)
    (he : Effect s a s' es ps) (hs : exec s a = .ok s') (hmem : .resume f w .interrupted ∈ es) :
    es = [.resume f w .interrupted] ∧ .interrupt f ∈ s.log ∧ lastSuspend f s.log = some (w, false) := by
  obtain ⟨x, rest, rfl, hstrand, rfl, hw, hread, hes⟩ := interrupted_resume he hs hmem
  have hx : x ∈ s.strand := by
    rw [hstrand]
    exact List.mem_cons_self
  have hheard : Heard s x.fiber := by
    rcases interrupted_read hread with hargs | hargs | ⟨hargs, hyes⟩ | ⟨k, hargs⟩
    · exact ht.posts x hx (.inl hargs)
    · exact ht.posts x hx (.inr hargs)
    · exact ⟨hyes, not_misreports hok hstrand hargs hyes⟩
    · exact absurd rfl (ht.codes x hx _ k hargs)
  refine ⟨hes, (hflag.flag x.fiber).mp hheard.1, ?_⟩
  rcases ht.last x.fiber w hw with rfl | hlast
  · rw [ht.start x hx hw] at hread
    cases hread
  · rw [hlast, hheard.2]

theorem told_codes (ht : Told s) (he : Effect s a s' es ps) {x : Post} (hx : x ∈ s'.strand) {ec : Outcome} {k : Bool}
    (hargs : x.args = .io ec k) : ec ≠ .interrupted := by
  rcases he.strand_mem hx with hold | hnew
  · exact ht.codes x hold ec k hargs
  · cases he.posts x hnew with
    | complete y ec' hy hec =>
        obtain ⟨rfl, -⟩ := Args.io.inj hargs
        rcases hec with rfl | rfl | ⟨rfl, -⟩ <;> exact nofun
    | _ => cases hargs

theorem exec_told (h : Coherent s) (hflag : Flagged s) (ht : Told s) (hok : misreports s a = false)
    (hs : exec s a = .ok s') : Told s' := by
  obtain ⟨es, ps, he⟩ := exec_effect h hs
  have hflag' := exec_flagged h hflag hs
  have hio := ioChange_exec h hs
  have hheard : ∀ {l : Place} {f}, l ≠ .strand → f ∈ s.at l → Heard s f → Heard s' f := by
    intro l f hl hf
    obtain ⟨w, hw⟩ := (h f).at_wait hl hf
    exact he.heard h hflag hflag' hw
  refine ⟨fun x hx => ?_, fun x hx hfast hcancelled => ?_, fun x hx hasked => ?_, hio.receiver ht.receiver,
    fun x hx => told_posts h ht hflag hflag' he hx, fun x hx ec k => told_codes ht he hx,
    fun x hx => told_start h ht he hx, fun f w => told_last h ht he, fun l₁ f w l₂ hlog => ?_⟩
  · rcases hio.ops x hx with ⟨-, hnew⟩ | ⟨y, hy, -, hfast, hobject, -⟩
    · exact hnew
    · rw [hfast, hobject]
      exact ht.fast y hy
  · rcases hio.ops x hx with ⟨hnew, -⟩ | ⟨y, hy, hfiber, hfast', -, hwhy⟩
    · rw [hnew] at hcancelled
      cases hcancelled
    · rw [hfast'] at hfast
      rw [hfiber]
      rcases hwhy with heq | hobject | hyes
      · rw [heq] at hcancelled
        exact hheard (l := .io) nofun (List.mem_map.mpr ⟨y, hy, rfl⟩) (ht.ops y hy hfast hcancelled)
      · rw [ht.fast y hy, Option.isNone_iff_eq_none] at hfast
        exact absurd hfast hobject
      · exact hyes
  · rcases hio.sends x hx with hold | hno | hyes
    · exact hheard (l := .send) nofun (List.mem_map.mpr ⟨x, hold, rfl⟩) (ht.sends x hold hasked)
    · rw [hno] at hasked
      cases hasked
    · exact hyes
  · rw [he.log] at hlog
    -- the event is an old one, or the only one of this step
    rcases List.append_eq_append_iff.mp hlog with ⟨es₁, rfl, hes⟩ | ⟨l₃, hold, hrest⟩
    · obtain ⟨hone, hnew⟩ := observed_new (f := f) (w := w) hflag ht hok he hs (by rw [hes]; simp)
      have hnil : es₁ = [] := by
        rw [hone] at hes
        cases es₁ with
        | nil => rfl
        | cons e es₂ => simp at hes
      rw [hnil, List.append_nil]
      exact hnew
    · cases l₃ with
      | nil =>
          rw [List.nil_append] at hrest
          rw [List.append_nil] at hold
          rw [← hold]
          exact (observed_new hflag ht hok he hs (by rw [← hrest]; simp)).2
      | cons e' l₃ =>
          rw [List.cons_append] at hrest
          obtain ⟨rfl, -⟩ := List.cons.inj hrest
          exact ht.observed l₁ f w l₃ hold

theorem told_initial : Told State.initial where
  fast x hx := absurd hx (List.not_mem_nil)
  ops x hx := absurd hx (List.not_mem_nil)
  sends x hx := absurd hx (List.not_mem_nil)
  receiver g hg := by
    simp only [State.initial] at hg
    repeat' split at hg
    all_goals cases hg
  posts x hx hargs := by
    rw [List.mem_singleton.mp hx] at hargs
    simp at hargs
  codes x hx ec k hargs := by
    rw [List.mem_singleton.mp hx] at hargs
    cases hargs
  start x hx _ := by rw [List.mem_singleton.mp hx]
  last f w hw := by
    simp only [State.initial] at hw
    repeat' split at hw
    · exact .inl (Phase.suspended.inj hw).symm
    all_goals cases hw
  observed l₁ f w l₂ hlog := by
    have hmem : Event.resume f w .interrupted ∈ State.initial.log := by
      rw [hlog]
      simp
    cases List.mem_singleton.mp hmem

end

/-- What the end of a suspension of `f` and its result depend on. -/
structure Untouched (s s' : State) (f : FiberId) : Prop where
  phase : (s'.fibers f).phase = (s.fibers f).phase
  disabled : (s'.fibers f).disabled = (s.fibers f).disabled
  places : ∀ l, (s'.at l).count f = (s.at l).count f
  posts : s'.strand.filter (fun x => x.fiber = f) = s.strand.filter fun x => x.fiber = f
  ops : s'.ops.filter (fun x => x.fiber = f) = s.ops.filter fun x => x.fiber = f
  sends : s'.sends.filter (fun x => x.1 = f) = s.sends.filter fun x => x.1 = f
  futures : s'.futures = s.futures

section
variable {s s₁ s' : State} {f g h : FiberId}

theorem Untouched.refl (s : State) (f : FiberId) : Untouched s s f :=
  ⟨rfl, rfl, fun _ => rfl, rfl, rfl, rfl, rfl⟩

theorem Untouched.trans (h : Untouched s s₁ f) (h' : Untouched s₁ s' f) : Untouched s s' f where
  phase := h'.phase.trans h.phase
  disabled := h'.disabled.trans h.disabled
  places l := (h'.places l).trans (h.places l)
  posts := h'.posts.trans h.posts
  ops := h'.ops.trans h.ops
  sends := h'.sends.trans h.sends
  futures := h'.futures.trans h.futures

theorem untouched_record (s : State) (e : Event) (f : FiberId) : Untouched s (s.record e) f :=
  ⟨rfl, rfl, fun l => by cases l <;> rfl, rfl, rfl, rfl, rfl⟩

theorem untouched_setHandle (s : State) (k : Handle → Handle) (f : FiberId) : Untouched s (s.setHandle g k) f :=
  ⟨rfl, rfl, fun l => by cases l <;> rfl, rfl, rfl, rfl, rfl⟩

theorem untouched_setFiber {k : Fiber → Fiber} (hphase : (k (s.fibers g)).phase = (s.fibers g).phase)
    (hdisabled : (k (s.fibers g)).disabled = (s.fibers g).disabled)
    (hwaiter : (k (s.fibers g)).waiter.count f = (s.fibers g).waiter.count f) : Untouched s (s.setFiber g k) f := by
  have hfib : ∀ x : Fiber, (s.setFiber g k).fibers f = x → x.phase = (s.fibers f).phase ∧
      x.disabled = (s.fibers f).disabled := by
    rintro x rfl
    by_cases hf : f = g
    · subst hf
      rw [State.setFiber_fibers_self]
      exact ⟨hphase, hdisabled⟩
    · rw [State.setFiber_fibers_ne s hf]
      exact ⟨rfl, rfl⟩
  refine ⟨(hfib _ rfl).1, (hfib _ rfl).2, fun l => ?_, rfl, rfl, rfl, rfl⟩
  cases l with
  | joiner h =>
      change ((s.setFiber g k).fibers h).waiter.count f = (s.fibers h).waiter.count f
      by_cases hh : h = g
      · subst hh
        rw [State.setFiber_fibers_self]
        exact hwaiter
      · rw [State.setFiber_fibers_ne s hh]
  | _ => rfl

theorem untouched_mark (s : State) (g f : FiberId) : Untouched s (s.mark g) f :=
  (untouched_setFiber rfl rfl rfl).trans (untouched_record _ _ f)

theorem untouched_disarm (s : State) (g f : FiberId) :
    Untouched s (s.setFiber g fun x => { x with interrupter := .none }) f :=
  untouched_setFiber rfl rfl rfl

theorem untouched_post (hf : f ≠ g) (x : Args) (k : Bool) : Untouched s (s.post g x k) f where
  phase := rfl
  disabled := rfl
  places l := by
    rw [State.at_post, List.count_append]
    split
    · rw [List.count_singleton, if_neg (by simpa using hf.symm), Nat.add_zero]
    · rfl
  posts := by simp [State.post, hf.symm]
  ops := rfl
  sends := rfl
  futures := rfl

theorem untouched_unqueue (hf : f ≠ g) (q : Queue) : Untouched s (s.setQueue q ((s.queues q).erase g)) f where
  phase := rfl
  disabled := rfl
  places l := by
    rw [State.at_setQueue]
    split
    · rename_i hl
      rw [hl]
      exact List.count_erase_of_ne hf
    · rfl
  posts := rfl
  ops := rfl
  sends := rfl
  futures := rfl

theorem filter_map_of_fixed {α : Type} {xs : List α} {p : α → Bool} {k : α → α} (hp : ∀ x ∈ xs, p (k x) = p x)
    (hk : ∀ x ∈ xs, p x = true → k x = x) : (xs.map k).filter p = xs.filter p := by
  rw [List.filter_map, List.filter_congr (p := p ∘ k) (q := p) hp]
  have hid : (xs.filter p).map k = (xs.filter p).map id :=
    List.map_congr_left fun x hx => hk x (List.mem_filter.mp hx).1 (List.mem_filter.mp hx).2
  rw [hid, List.map_id]

theorem untouched_setOps {c : Op → Prop} [DecidablePred c] (hc : ∀ x ∈ s.ops, c x → x.fiber ≠ f) :
    Untouched s (s.setOps (s.ops.map fun x => if c x then { x with cancelled := true } else x)) f where
  phase := rfl
  disabled := rfl
  places l := by
    rw [State.at_setOps]
    split
    · rename_i hl
      rw [hl, List.map_map]
      refine congrArg (List.count f) (List.map_congr_left fun x _ => ?_)
      simp only [Function.comp_apply]
      split <;> rfl
    · rfl
  posts := rfl
  ops := by
    refine filter_map_of_fixed (fun x _ => ?_) fun x hx hf => ?_
    · split <;> rfl
    · rw [if_neg]
      intro hyes
      exact hc x hx hyes (of_decide_eq_true hf)
  sends := rfl
  futures := rfl

theorem untouched_setSends (hf : f ≠ g) :
    Untouched s (s.setSends (s.sends.map fun x => if x.1 = g then (x.1, true) else x)) f where
  phase := rfl
  disabled := rfl
  places l := by
    rw [State.at_setSends]
    split
    · rename_i hl
      rw [hl, List.map_map]
      refine congrArg (List.count f) (List.map_congr_left fun x _ => ?_)
      simp only [Function.comp_apply]
      split <;> rfl
    · rfl
  posts := rfl
  ops := rfl
  sends := by
    refine filter_map_of_fixed (fun x _ => ?_) fun x hx hx' => ?_
    · split <;> rfl
    · have hxf : x.1 = f := of_decide_eq_true hx'
      rw [if_neg]
      rw [hxf]
      exact hf
  futures := rfl

theorem untouched_unreceive (hr : s.recvFiber = some g) (hf : f ≠ g) : Untouched s (s.setReceiver none) f where
  phase := rfl
  disabled := rfl
  places l := by
    rw [State.at_setReceiver]
    split
    · rename_i hl
      rw [hl]
      simp only [State.at, hr, Option.toList_none, Option.toList_some, List.count_nil]
      rw [List.count_singleton, if_neg (by simpa using hf.symm)]
    · rfl
  posts := rfl
  ops := rfl
  sends := rfl
  futures := rfl

/-- The joiner of a fiber is the one that waits in its `join`. -/
theorem Coherent.waiter_eq (hc : Coherent s) (hi : (s.fibers g).interrupter = .join h) : (s.fibers h).waiter = [g] := by
  have hmem := (hc g).joining h hi
  simp only [State.at, Fiber.waiter] at hmem ⊢
  split at hmem <;> simp_all [Joiner.toList]
  all_goals
    split at hmem <;> simp_all

/-- The interrupter of `g` ends the suspension of `g` only. -/
theorem untouched_interrupter {t : State} (hc : Coherent s) (hr : ReceiverKnown s)
    (hpipe : ∀ o, (s.fibers g).interrupter = .pipe o → ∀ x ∈ s.ops, x.object = some o → x.fiber = g) (hf : f ≠ g)
    (ht : (s.mark g).interrupterCall g (s.fibers g).interrupter = .ok t) : Untouched (s.mark g) t f := by
  cases hi : (s.fibers g).interrupter with
  | none =>
      rw [hi] at ht
      cases ht
      exact .refl _ _
  | queue q =>
      rw [hi] at ht
      simp only [State.interrupterCall] at ht
      split at ht <;> cases ht
      · exact (untouched_unqueue hf q).trans (untouched_post hf _ _)
      · exact .refl _ _
  | join h =>
      rw [hi] at ht
      cases ht
      refine (Untouched.trans (untouched_setFiber rfl rfl ?_) (untouched_setHandle _ _ f)).trans (untouched_post hf _ _)
      have hwaiter : ((s.mark g).fibers h).waiter = [g] := by
        rw [← hc.waiter_eq hi, State.mark_fibers]
        by_cases hh : h = g
        · subst hh
          rw [Function.update_self]
          rfl
        · rw [Function.update_of_ne hh]
      rw [hwaiter, List.count_singleton, if_neg (by simpa using hf.symm)]
      simp only [Fiber.waiter, Joiner.toList]
      split <;> rfl
  | signal =>
      rw [hi] at ht
      cases ht
      refine untouched_setOps (c := fun x => x.fiber = g) fun x _ hx => ?_
      rw [hx]
      exact hf.symm
  | pipe o =>
      rw [hi] at ht
      cases ht
      refine untouched_setOps (c := fun x => x.object = some o) fun x hx hxo => ?_
      rw [hpipe o hi x hx hxo]
      exact hf.symm
  | receive =>
      rw [hi] at ht
      simp only [State.interrupterCall] at ht
      split at ht <;> cases ht
      rename_i r hrecv
      have hrg : r = g := by
        rcases hr g hi with hsome | hnone
        · exact Option.some.inj (hrecv.symm.trans hsome)
        · exact absurd (hrecv.symm.trans hnone.1) (by simp)
      rw [hrg] at hrecv ⊢
      exact (untouched_unreceive hrecv hf).trans (untouched_post hf _ _)
  | send =>
      rw [hi] at ht
      cases ht
      exact untouched_setSends hf

theorem not_cancelsOthers (hok : cancelsOthers s (.fiberInterrupt g) = false) (hattached : (s.handles g).attached = true)
    {o : Nat} (hi : (s.fibers g).interrupter = .pipe o) {x : Op} (hx : x ∈ s.ops) (hxo : x.object = some o) :
    x.fiber = g := by
  simp only [cancelsOthers, hattached, hi, List.any_eq_false] at hok
  simpa [hxo] using hok x hx

/-- `interrupt` of `g` leaves the suspensions of other fibers alone, and that
of `g` if it has been entered with the counter above 0. -/
theorem untouched_fiberInterrupt (hc : Coherent s) (hr : ReceiverKnown s)
    (hok : cancelsOthers s (.fiberInterrupt g) = false) (hs : s.fiberInterrupt h g = .ok s')
    (hf : f ≠ g ∨ (s.fibers f).disabled.on = true) : Untouched s s' f := by
  rcases fiberInterrupt_cases hs with ⟨-, rfl⟩ | ⟨-, -, rfl⟩ | ⟨hattached, -, t, ht, rfl⟩
  · exact .refl _ _
  · exact untouched_mark s g f
  · refine ((untouched_mark s g f).trans ?_).trans (untouched_disarm t g f)
    by_cases hfg : f = g
    · subst hfg
      -- a fiber whose counter is above 0 has no interrupter
      have hnone : (s.fibers f).interrupter = .none := by
        by_contra hi
        exact absurd (((hc f).armed hi).1.symm.trans (hf.resolve_left (absurd rfl))) nofun
      rw [hnone] at ht
      cases ht
      exact .refl _ _
    · exact untouched_interrupter hc hr (fun o hi x hx => not_cancelsOthers hok hattached hi hx) hfg ht

theorem reachable_told
    (hs : Reachable Initial (restrict (fun s a => cancelsOthers s a = false ∧ misreports s a = false) Step) s) :
    Sound s ∧ Flagged s ∧ Told s := by
  refine hs.invariant (I := fun s => Sound s ∧ Flagged s ∧ Told s) ?_ ?_
  · intro s hs
    rw [hs]
    exact ⟨sound_initial, flagged_initial, told_initial⟩
  · rintro s a s' ⟨hsound, hflag, ht⟩ ⟨hok, hstep⟩
    exact ⟨step_sound hsound hstep, exec_flagged hsound.coherent hflag hstep,
      exec_told hsound.coherent hflag ht hok.2 hstep⟩

/-- The calls that can raise `interrupted`; the locks of mutexes cannot. -/
def Action.suspending : Action → Bool
  | .condWait _ _ | .futureGet _ | .fiberJoin _ | .thisFiberYield | .sleepFor | .steadyTimerWait _ | .streamReadSome _
  | .pipeReadSome _ | .chanReceive _ | .chanSend => true
  | _ => false

/-- A fiber that is refused does not suspend. `cond:wait` looks at the mutex first. -/
theorem refused_call {a : Action} (ha : a.suspending = true) (hr : (s.fibers f).refused = true) (hs : call s f a = .ok s') :
    s' = s.record (.refuse f) ∨ ∃ c m, a = .condWait c m ∧ s.locked m = false ∧ s' = s := by
  cases a with
  | condWait c m =>
      cases hs
      by_cases hm : s.locked m = false
      · exact .inr ⟨c, m, rfl, hm, by rw [State.condWait, if_pos hm]⟩
      · left
        rw [State.condWait, if_neg hm, if_pos hr]
  | futureGet p =>
      cases hs
      left
      rw [State.futureGet, if_pos hr]
  | fiberJoin g =>
      simp only [call] at hs
      split at hs <;> cases hs
      left
      rw [State.fiberJoin, if_pos hr]
  | thisFiberYield =>
      cases hs
      left
      rw [State.thisFiberYield, if_pos hr]
  | sleepFor | steadyTimerWait o | streamReadSome o | pipeReadSome o =>
      cases hs
      left
      exact if_pos hr
  | chanReceive queued =>
      cases hs
      left
      rw [State.chanReceive, if_pos hr]
  | chanSend =>
      cases hs
      left
      rw [State.chanSend, if_pos hr]
  | _ => cases ha

theorem suspending_call {a : Action} (ha : a.suspending = true) (hs : exec s a = .ok s') :
    ∃ f, s.current = some f ∧ call s f a = .ok s' := by
  obtain ⟨-, hcall | ⟨i, ec, rfl, -⟩ | ⟨i, o, rfl, -⟩ | ⟨x, xs, rfl, -⟩ | ⟨o, rfl, -⟩⟩ := exec_cases hs
  · exact hcall
  all_goals cases ha

theorem interrupt_call (hs : exec s (.fiberInterrupt g) = .ok s') : ∃ f, s.fiberInterrupt f g = .ok s' := by
  obtain ⟨-, ⟨f, -, hcall⟩ | ⟨i, ec, ha, -⟩ | ⟨i, o, ha, -⟩ | ⟨x, xs, ha, -⟩ | ⟨o, ha, -⟩⟩ := exec_cases hs
  · simp only [call] at hcall
    split at hcall
    · exact ⟨f, hcall⟩
    · cases hcall
  all_goals cases ha

/-- Fiber 2 sleeps, is interrupted, and then yields. -/
def sleepInterrupted : List Action :=
  [.runHandler, .spawn, .thisFiberYield, .runHandler, .sleepFor, .runHandler, .fiberInterrupt 2, .thisFiberYield,
    .complete 0 .aborted, .runHandler, .thisFiberYield, .runHandler, .thisFiberYield]

end

end Emilua.Sched
