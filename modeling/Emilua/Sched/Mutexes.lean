import Emilua.Sched.Resumes
import Emilua.Lib.Handoff

/-!
A mutex is a lock that is handed over: the fiber that is resumed later has the
lock from the unlock on. `cond:wait` has a copy of the unlock.
-/
namespace Emilua.Sched
open Transition Handoff

/-- The fiber that goes to the end of the line of mutex `m`. -/
def Event.arrives (m : Nat) : Event → Option FiberId
  | .suspend f (.queue (.mutex m')) _ => if m' = m then some f else none
  | _ => none

def Event.hands (m : Nat) : Event → Option FiberId
  | .handOver m' f => if m' = m then some f else none
  | _ => none

def State.lock (s : State) (m : Nat) : Lock FiberId where
  locked := s.locked m
  holders := s.holders m
  pending := s.queues (.mutex m)
  arrivals := s.log.filterMap (Event.arrives m)
  handed := s.log.filterMap (Event.hands m)

/-- The running fiber unlocks only what it holds. -/
def unlocksOwn (s : State) : Action → Bool
  | .mutexUnlock m | .condWait _ m =>
      match s.current with
      | some f => f ∈ s.holders m
      | none => true
  | _ => true

section
variable {s s' : State} {a : Action} {f g : FiberId} {m : Nat} {w : Wait}

/-! What leaves the mutexes alone. -/

@[simp] theorem lock_setFiber (k : Fiber → Fiber) : (s.setFiber f k).lock = s.lock := rfl

@[simp] theorem lock_setHandle (k : Handle → Handle) : (s.setHandle f k).lock = s.lock := rfl

@[simp] theorem lock_setOwner (n : Nat) (o : Option FiberId) (i : Nat) : (s.setOwner n o i).lock = s.lock := rfl

@[simp] theorem lock_setFuture (p : Nat) (x : FutureState) : (s.setFuture p x).lock = s.lock := rfl

@[simp] theorem lock_setOps (ops : List Op) : (s.setOps ops).lock = s.lock := rfl

@[simp] theorem lock_setSends (sends : List (FiberId × Bool)) : (s.setSends sends).lock = s.lock := rfl

@[simp] theorem lock_setReceiver (r : Option FiberId) : (s.setReceiver r).lock = s.lock := rfl

@[simp] theorem lock_unlist : (s.unlist f).lock = s.lock := rfl

@[simp] theorem lock_stop (ok : Bool) : (s.stop f ok).lock = s.lock := rfl

@[simp] theorem lock_addFiber (x : Fiber) : (s.addFiber x).lock = s.lock := rfl

theorem lock_of_log {l : List Event} (hlocked : s'.locked = s.locked) (hholders : s'.holders = s.holders)
    (hqueues : ∀ m, s'.queues (.mutex m) = s.queues (.mutex m)) (hlog : s'.log = s.log ++ l)
    (hes : ∀ e ∈ l, ∀ m, e.arrives m = none ∧ e.hands m = none) : s'.lock = s.lock := by
  funext m
  have harrivals : l.filterMap (Event.arrives m) = [] := List.filterMap_eq_nil_iff.mpr fun e he => (hes e he m).1
  have hhanded : l.filterMap (Event.hands m) = [] := List.filterMap_eq_nil_iff.mpr fun e he => (hes e he m).2
  simp only [State.lock, hlocked, hholders, hqueues, hlog, List.filterMap_append, harrivals, hhanded, List.append_nil]

theorem lock_setQueue {q : Queue} (hq : ∀ m, q ≠ .mutex m) (xs : List FiberId) : (s.setQueue q xs).lock = s.lock :=
  lock_of_log (l := []) rfl rfl (fun m => Function.update_of_ne (hq m).symm _ _) (by simp [State.setQueue]) nofun

theorem lock_record {e : Event} (he : ∀ m, e.arrives m = none ∧ e.hands m = none) : (s.record e).lock = s.lock :=
  lock_of_log (l := [e]) rfl rfl (fun _ => rfl) rfl (by simpa using he)

@[simp] theorem lock_post (x : Args) (k : Bool) : (s.post f x k).lock = s.lock :=
  lock_of_log (l := [.post f]) rfl rfl (fun _ => rfl) rfl (by simp [Event.arrives, Event.hands])

theorem lock_wakeAll {q : Queue} (hq : ∀ m, q ≠ .mutex m) (o : Outcome) : (s.wakeAll q o).lock = s.lock :=
  lock_of_log (l := (s.queues q).map .post) rfl rfl (fun m => Function.update_of_ne (hq m).symm _ _) rfl
    (by simp [Event.arrives, Event.hands])

@[simp] theorem lock_mark : (s.mark f).lock = s.lock := lock_record (e := .interrupt f) fun _ => ⟨rfl, rfl⟩

@[simp] theorem lock_run (o : Outcome) (k : Bool) : (s.run f w o k).lock = s.lock :=
  lock_of_log (l := [.resume f w o]) rfl rfl (fun _ => rfl) rfl (by simp [Event.arrives, Event.hands])

@[simp] theorem lock_release (ok : Bool) : (s.release f ok).lock = s.lock := by
  unfold State.release
  simp only
  split
  all_goals
    exact lock_of_log (l := [.joined f]) rfl rfl (fun _ => rfl) rfl (by simp [Event.arrives, Event.hands])

theorem lock_suspend (hw : ∀ m, w ≠ .queue (.mutex m)) (i : Interrupter) : (s.suspend f w i).lock = s.lock := by
  refine lock_of_log (l := [.suspend f w (s.fibers f).disabled.on]) rfl rfl (fun _ => rfl) rfl ?_
  simp only [List.mem_singleton, forall_eq]
  refine fun m => ⟨?_, rfl⟩
  unfold Event.arrives
  split
  · rename_i heq
    cases heq
    exact absurd rfl (hw _)
  · rfl

theorem lock_enqueue {q : Queue} (hq : ∀ m, q ≠ .mutex m) (i : Interrupter) : (s.enqueue f q i).lock = s.lock :=
  (lock_suspend (fun m heq => hq m (Wait.queue.inj heq)) i).trans (lock_setQueue hq _)

/-! What does not. -/

theorem lock_acquire : ((s.setLocked m true).setHolders m (s.holders m ++ [f])).lock =
    Function.update s.lock m ((s.lock m).acquire f) := by
  funext m'
  by_cases hm : m' = m
  · subst hm
    simp [State.lock, State.setLocked, State.setHolders, Lock.acquire]
  · simp [State.lock, State.setLocked, State.setHolders, hm]

theorem lock_wait (i : Interrupter) : (s.enqueue f (.mutex m) i).lock = Function.update s.lock m ((s.lock m).wait f) := by
  funext m'
  by_cases hm : m' = m
  · subst hm
    simp [State.lock, State.enqueue, State.suspend, State.setQueue, State.setFiber, State.record, Lock.wait,
      Event.arrives, Event.hands]
  · simp [State.lock, State.enqueue, State.suspend, State.setQueue, State.setFiber, State.record, Event.arrives,
      Event.hands, hm, Ne.symm hm]

theorem lock_condUnlock : (s.condUnlock f m).lock = Function.update s.lock m ((s.lock m).unlock f) := by
  funext m'
  unfold State.condUnlock
  split
  · rename_i hq
    by_cases hm : m' = m
    · subst hm
      simp [State.lock, State.setLocked, State.setHolders, Lock.unlock, hq]
    · simp [State.lock, State.setLocked, State.setHolders, hm]
  · rename_i next rest hq
    by_cases hm : m' = m
    · subst hm
      simp [State.lock, State.setQueue, State.post, State.setHolders, State.record, Lock.unlock, hq, Event.arrives,
        Event.hands, List.filterMap_cons]
    · simp [State.lock, State.setQueue, State.post, State.setHolders, State.record, Event.arrives, Event.hands, hm,
        Ne.symm hm]

/-- The lines of `cond_wait` do what `mutex:unlock` does. -/
theorem condUnlock_eq (hlocked : s.locked m = true) : s.condUnlock f m = s.mutexUnlock f m := by
  unfold State.mutexUnlock
  rw [if_neg (by simp [hlocked])]
  rfl

/-- What a step does to a mutex is done by the running fiber. -/
def LockChange (s s' : State) : Prop :=
  s'.lock = s.lock ∨ ∃ f m x, s.current = some f ∧ (s.lock m).Step f x ∧ s'.lock = Function.update s.lock m x

theorem lockChange_interrupterCall {i : Interrupter} (hi : ∀ q, i = .queue q → ∀ m, q ≠ .mutex m)
    (hs : s.interrupterCall g i = .ok s') : s'.lock = s.lock := by
  cases i with
  | none => cases hs; rfl
  | queue q =>
      simp only [State.interrupterCall] at hs
      split at hs <;> cases hs
      · rw [lock_post, lock_setQueue (hi q rfl)]
      · rfl
  | join h' | signal | pipe o | send => cases hs; simp
  | receive =>
      simp only [State.interrupterCall] at hs
      split at hs <;> cases hs
      simp

theorem lockChange_call (h : Coherent s) (hf : s.current = some f) (hok : unlocksOwn s a = true)
    (hs : call s f a = .ok s') : LockChange s s' := by
  have hrefuse : (s.record (.refuse f)).lock = s.lock := lock_record fun _ => ⟨rfl, rfl⟩
  cases a with
  | mutexLock m =>
      cases hs
      unfold State.mutexLock
      split
      · rename_i hlocked
        exact .inr ⟨f, m, _, hf, .wait hlocked, lock_wait _⟩
      · rename_i hfree
        exact .inr ⟨f, m, _, hf, .acquire (Bool.eq_false_of_not_eq_true hfree), lock_acquire⟩
  | mutexTryLock m =>
      cases hs
      unfold State.mutexTryLock
      split
      · exact .inl rfl
      · rename_i hfree
        exact .inr ⟨f, m, _, hf, .acquire (Bool.eq_false_of_not_eq_true hfree), lock_acquire⟩
  | mutexUnlock m =>
      cases hs
      simp only [unlocksOwn, hf, decide_eq_true_eq] at hok
      by_cases hlocked : s.locked m = true
      · rw [← condUnlock_eq hlocked]
        exact .inr ⟨f, m, _, hf, .unlock hok, lock_condUnlock⟩
      · refine .inl ?_
        rw [State.mutexUnlock, if_pos (by simpa using hlocked)]
  | condWait c m =>
      cases hs
      simp only [unlocksOwn, hf, decide_eq_true_eq] at hok
      unfold State.condWait
      split
      · exact .inl rfl
      · split
        · exact .inl hrefuse
        · refine .inr ⟨f, m, _, hf, .unlock hok, ?_⟩
          rw [lock_suspend (by simp), condUnlock_setQueue, lock_setQueue (by simp), lock_condUnlock]
  | recursiveMutexLock m | recursiveMutexTryLock m =>
      cases hs
      simp only [State.recursiveMutexLock, State.recursiveMutexTryLock]
      repeat' split
      all_goals first | exact .inl rfl | exact .inl (lock_enqueue (by simp) _)
  | recursiveMutexUnlock m =>
      cases hs
      unfold State.recursiveMutexUnlock
      repeat' split
      · exact .inl rfl
      · exact .inl rfl
      · exact .inl rfl
      · refine .inl ?_
        rw [lock_post, lock_setOwner, lock_setQueue (by simp)]
  | condNotifyOne c =>
      cases hs
      unfold State.condNotifyOne
      split
      · exact .inl rfl
      · refine .inl ?_
        rw [lock_post, lock_setQueue (by simp)]
  | condNotifyAll c =>
      cases hs
      exact .inl (lock_wakeAll (by simp) _)
  | futureGet p =>
      cases hs
      unfold State.futureGet
      split
      · exact .inl hrefuse
      · split
        · exact .inl (lock_record fun _ => ⟨rfl, rfl⟩)
        · exact .inl (lock_record fun _ => ⟨rfl, rfl⟩)
        · exact .inl (lock_record fun _ => ⟨rfl, rfl⟩)
        · exact .inl (lock_enqueue (by simp) _)
  | promiseSetValue p ref =>
      simp only [call] at hs
      split at hs <;> cases hs
      unfold State.promiseSetValue
      split
      · exact .inl rfl
      · refine .inl ?_
        rw [lock_record fun _ => ⟨rfl, rfl⟩, lock_wakeAll (by simp), lock_setFuture]
  | promiseSetError p ref =>
      simp only [call] at hs
      split at hs <;> cases hs
      unfold State.promiseSetError
      split
      · exact .inl rfl
      · refine .inl ?_
        rw [lock_record fun _ => ⟨rfl, rfl⟩, lock_wakeAll (by simp), lock_setFuture]
  | promiseGc p =>
      simp only [call] at hs
      split at hs <;> cases hs
      refine .inl ?_
      rw [State.promiseGc, lock_record fun _ => ⟨rfl, rfl⟩, lock_wakeAll (by simp), lock_setFuture]
      rfl
  | spawn =>
      cases hs
      exact .inl (lock_post _ _)
  | importModule =>
      simp only [call] at hs
      split at hs <;> cases hs
      refine .inl ?_
      rw [State.importModule, lock_suspend (by simp), lock_post, lock_addFiber]
  | fiberJoin g =>
      simp only [call] at hs
      split at hs <;> cases hs
      unfold State.fiberJoin
      repeat' split
      · exact .inl hrefuse
      · exact .inl rfl
      · exact .inl rfl
      · refine .inl ?_
        rw [lock_suspend (by simp), lock_setHandle, lock_setFiber]
      · refine .inl ?_
        rw [lock_record fun _ => ⟨rfl, rfl⟩, lock_setHandle, lock_unlist]
  | fiberDetach g =>
      simp only [call] at hs
      split at hs <;> cases hs
      have hdrop : ((s.setHandle g fun x => { x with attached := false }).record (.detached g)).lock = s.lock :=
        lock_record fun _ => ⟨rfl, rfl⟩
      unfold State.fiberDetach
      repeat' split
      · exact .inl rfl
      · exact .inl hdrop
      · exact .inl hdrop
  | fiberGc g =>
      simp only [call] at hs
      split at hs <;> cases hs
      have hdrop : ((s.setHandle g fun x => { x with attached := false, collected := true }).record
          (.collectHandle g)).lock = s.lock := lock_record fun _ => ⟨rfl, rfl⟩
      unfold State.fiberGc
      repeat' split
      all_goals exact .inl hdrop
  | fiberInterrupt g =>
      simp only [call] at hs
      split at hs
      · rcases fiberInterrupt_cases hs with ⟨-, rfl⟩ | ⟨-, -, rfl⟩ | ⟨-, -, t, ht, rfl⟩
        · exact .inl rfl
        · exact .inl lock_mark
        · refine .inl ?_
          rw [lock_setFiber, lockChange_interrupterCall ?_ ht, lock_mark]
          -- no interrupter is set for a mutex
          rintro q hq m rfl
          obtain ⟨-, w, -, hfits⟩ := (h g).armed (by rw [hq]; exact (by simp))
          rw [hq] at hfits
          cases w with
          | queue q' =>
              simp only [Interrupter.fits, Bool.and_eq_true, decide_eq_true_eq] at hfits
              obtain ⟨rfl, hloud⟩ := hfits
              cases hloud
          | _ => cases hfits
      · cases hs
  | finish ok =>
      rcases fiberEpilogue_cases hs with ⟨-, -, -, rfl⟩ | ⟨-, -, rfl⟩ | ⟨-, rfl⟩ | ⟨g, w, -, -, rfl⟩
      · exact .inl rfl
      · exact .inl rfl
      · exact .inl rfl
      · refine .inl ?_
        rw [lock_run, lock_release, lock_stop]
  | thisFiberYield =>
      cases hs
      unfold State.thisFiberYield
      split
      · exact .inl hrefuse
      · refine .inl ?_
        rw [lock_suspend (by simp), lock_post]
  | sleepFor | steadyTimerWait o | streamReadSome o | pipeReadSome o =>
      cases hs
      simp only [State.sleepFor, State.steadyTimerWait, State.streamReadSome, State.pipeReadSome, State.startOp]
      split
      · exact .inl hrefuse
      · refine .inl ?_
        rw [lock_suspend (by simp), lock_setOps]
  | cancel o =>
      cases hs
      exact .inl rfl
  | chanReceive queued =>
      cases hs
      unfold State.chanReceive
      split
      · exact .inl hrefuse
      · split
        · exact .inl rfl
        · refine .inl ?_
          rw [lock_suspend (by simp), lock_setReceiver]
  | inboxClose =>
      cases hs
      unfold State.inboxClose
      split
      · exact .inl rfl
      · split
        · exact .inl rfl
        · rename_i r _
          have hpost := lock_post (s := s.setReceiver none) (f := r) (.outcome .channelClosed) false
          exact .inl hpost
  | chanSend =>
      cases hs
      unfold State.chanSend
      split
      · exact .inl hrefuse
      · refine .inl ?_
        rw [lock_suspend (by simp), lock_setSends]
  | disableInterruption | restoreInterruption =>
      cases hs
      exact .inl rfl
  | runHandler | complete _ _ | deliver _ | answer _ _ => cases hs

theorem lockChange_exec (h : Coherent s) (hok : unlocksOwn s a = true) (hs : exec s a = .ok s') : LockChange s s' := by
  obtain ⟨-, ⟨f, hcur, hcall⟩ | ⟨i, ec, -, hs⟩ | ⟨i, o, -, hs⟩ | ⟨p, ps, -, -, -, hs⟩ | ⟨o, -, -, hs⟩⟩ :=
    exec_cases hs
  · exact lockChange_call h hcur hok hcall
  · obtain ⟨x, -, -, rfl⟩ := complete_cases hs
    exact .inl (lock_post _ _)
  · obtain ⟨x, -, -, rfl⟩ := answer_cases hs
    exact .inl (lock_post _ _)
  · obtain ⟨w, -, rfl⟩ := fiberResume_cases hs
    exact .inl (lock_run _ _)
  · obtain ⟨r, w, -, -, -, rfl⟩ := deliver_cases hs
    exact .inl (lock_run _ _)

theorem LockChange.fair (h : LockChange s s') (hfair : ∀ m, (s.lock m).Fair) (m : Nat) : (s'.lock m).Fair := by
  rcases h with heq | ⟨f, m', x, -, hstep, heq⟩
  · rw [heq]
    exact hfair m
  · rw [heq]
    by_cases hm : m = m'
    · subst hm
      rw [Function.update_self]
      exact hstep.fair (hfair m)
    · rw [Function.update_of_ne hm]
      exact hfair m

/-- A lock stays with its holder while the holder does not run. -/
theorem LockChange.holders_eq (h : LockChange s s') (hfair : ∀ m, (s.lock m).Fair) (hf : f ∈ s.holders m)
    (hcur : s.current ≠ some f) : s'.holders m = s.holders m := by
  rcases h with heq | ⟨g, m', x, hg, hstep, heq⟩
  · exact congrArg Lock.holders (congrFun heq m)
  · have hlock := congrFun heq m
    by_cases hm : m = m'
    · subst hm
      rw [Function.update_self] at hlock
      have hne : g ≠ f := by
        rintro rfl
        exact hcur hg
      have hkeep := hstep.holders_eq (hfair m) hf hne
      exact (congrArg Lock.holders hlock).trans hkeep
    · rw [Function.update_of_ne hm] at hlock
      exact congrArg Lock.holders hlock

theorem reachable_fair (hs : Reachable Initial (restrict (fun s a => unlocksOwn s a = true) Step) s) :
    Sound s ∧ ∀ m, (s.lock m).Fair := by
  refine hs.invariant (I := fun s => Sound s ∧ ∀ m, (s.lock m).Fair) ?_ ?_
  · intro s hs
    rw [hs]
    exact ⟨sound_initial, fun _ => Lock.fair_free⟩
  · rintro s a s' ⟨hsound, hfair⟩ ⟨hok, hstep⟩
    exact ⟨step_sound hsound hstep, (lockChange_exec hsound.coherent hok hstep).fair hfair⟩

/-- Fiber 2 waits for the mutex of the main fiber, which hands it over; fiber 3
tries to take it before fiber 2 has run. -/
def handedOver : List Action :=
  [.runHandler, .spawn, .spawn, .mutexLock 0, .thisFiberYield, .runHandler, .mutexLock 0, .runHandler, .thisFiberYield,
    .runHandler, .mutexUnlock 0, .thisFiberYield, .runHandler, .mutexTryLock 0]

end

end Emilua.Sched
