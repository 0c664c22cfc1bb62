import Emilua.Sched.Arrivals
import Emilua.Sched.Effects

/-!
`this_fiber.forbid_suspend` and `this_fiber.allow_suspend`. The calls that can
suspend ask first whether the fiber may, and raise an error if it may not.
-/
namespace Emilua.Sched
open Transition

/-- The errors that the calls of the mutexes and condition variables raise. -/
inductive Errc where
  | invalidArgument
  | operationNotPermitted
  | valueTooLarge
  | forbidSuspendBlock
  | interrupted
deriving DecidableEq, Repr

/-- What comes of a call. -/
inductive Reply where
  | returned
  | locked (b : Bool)
  | suspended
  | raised (e : Errc)
deriving DecidableEq, Repr

/-- The calls that ask whether the fiber may suspend. -/
def Action.asks : Action → Bool
  | .mutexLock _ | .recursiveMutexLock _ | .condWait _ _ | .futureGet _ | .fiberJoin _ | .thisFiberYield | .sleepFor
  | .steadyTimerWait _ | .streamReadSome _ | .pipeReadSome _ | .chanReceive _ | .chanSend => true
  | _ => false

/-- The calls that a fiber suspends in when it does `a`. -/
def Action.enters (a : Action) (w : Wait) : Bool :=
  match a with
  | .mutexLock m => w = .queue (.mutex m)
  | .recursiveMutexLock m => w = .queue (.recursiveMutex m)
  | .condWait c _ => w = .queue (.cond c)
  | .futureGet p => w = .queue (.future p)
  | .importModule | .fiberJoin _ =>
      match w with
      | .join _ => true
      | _ => false
  | .thisFiberYield => w = .yield
  | .sleepFor | .steadyTimerWait _ | .streamReadSome _ | .pipeReadSome _ => w = .io
  | .chanReceive _ => w = .receive
  | .chanSend => w = .send
  | _ => false

section
variable {s s' : State} {a : Action} {f g : FiberId} {w : Wait} {q : Queue}

theorem suspend_phase (i : Interrupter) : ((s.suspend f w i).fibers f).phase = .suspended w := by
  rw [State.suspend_fibers, Function.update_self]

/-- The fiber that calls goes on, or suspends in its call. -/
theorem call_turn (hf : s.current = some f) (ha : ∀ ok, a ≠ .finish ok) (hs : call s f a = .ok s') :
    s'.current = some f ∨ s'.current = none ∧ ∃ w, a.enters w = true ∧ (s'.fibers f).phase = .suspended w := by
  have hsuspend : ∀ {s₁ : State} {w : Wait} (i : Interrupter), a.enters w = true →
      (s₁.suspend f w i).current = some f ∨
        (s₁.suspend f w i).current = none ∧
          ∃ w', a.enters w' = true ∧ ((s₁.suspend f w i).fibers f).phase = .suspended w' :=
    fun i hw => .inr ⟨rfl, _, hw, suspend_phase i⟩
  cases a with
  | mutexLock m | mutexTryLock m | recursiveMutexLock m | recursiveMutexTryLock m | condNotifyOne c =>
      cases hs
      simp only [State.mutexLock, State.mutexTryLock, State.recursiveMutexLock, State.recursiveMutexTryLock,
        State.condNotifyOne]
      repeat' split
      all_goals first | exact .inl hf | exact hsuspend _ (by simp [Action.enters])
  | mutexUnlock m | recursiveMutexUnlock m =>
      cases hs
      simp only [State.mutexUnlock, State.recursiveMutexUnlock]
      repeat' split
      all_goals exact .inl hf
  | condWait c m =>
      cases hs
      unfold State.condWait
      repeat' split
      · exact .inl hf
      · exact .inl hf
      · exact hsuspend _ (by simp [Action.enters])
  | futureGet p =>
      cases hs
      unfold State.futureGet
      repeat' split
      all_goals first | exact .inl hf | exact hsuspend _ (by simp [Action.enters])
  | promiseSetValue p ref | promiseSetError p ref =>
      simp only [call] at hs
      split at hs <;> cases hs
      simp only [State.promiseSetValue, State.promiseSetError]
      split <;> exact .inl hf
  | promiseGc p =>
      simp only [call] at hs
      split at hs <;> cases hs
      exact .inl hf
  | condNotifyAll c | spawn | cancel o | disableInterruption | restoreInterruption =>
      cases hs
      exact .inl hf
  | importModule =>
      simp only [call] at hs
      split at hs <;> cases hs
      exact hsuspend _ rfl
  | fiberJoin g =>
      simp only [call] at hs
      split at hs <;> cases hs
      unfold State.fiberJoin
      repeat' split
      · exact .inl hf
      · exact .inl hf
      · exact .inl hf
      · exact hsuspend _ rfl
      · exact .inl hf
  | fiberDetach g | fiberGc g =>
      simp only [call] at hs
      split at hs <;> cases hs
      simp only [State.fiberDetach, State.fiberGc]
      repeat' split
      all_goals exact .inl hf
  | fiberInterrupt g =>
      simp only [call] at hs
      split at hs
      · rcases fiberInterrupt_cases hs with ⟨-, rfl⟩ | ⟨-, -, rfl⟩ | ⟨-, -, t, ht, rfl⟩
        · exact .inl hf
        · exact .inl hf
        · refine .inl ?_
          change t.current = _
          unfold State.interrupterCall at ht
          repeat' split at ht
          all_goals cases ht <;> exact hf
      · cases hs
  | finish ok => exact absurd rfl (ha ok)
  | thisFiberYield | sleepFor | steadyTimerWait o | streamReadSome o | pipeReadSome o | chanSend =>
      cases hs
      simp only [State.thisFiberYield, State.sleepFor, State.steadyTimerWait, State.streamReadSome,
        State.pipeReadSome, State.startOp, State.chanSend]
      split
      · exact .inl hf
      · exact hsuspend _ rfl
  | chanReceive queued =>
      cases hs
      unfold State.chanReceive
      repeat' split
      · exact .inl hf
      · exact .inl hf
      · exact hsuspend _ rfl
  | inboxClose =>
      cases hs
      unfold State.inboxClose
      repeat' split
      all_goals exact .inl hf
  | runHandler | complete _ _ | deliver _ | answer _ _ => cases hs

/-- A fiber that waits in a list stays suspended until the strand resumes it. -/
theorem exec_waiting (h : Coherent s) (h' : Coherent s') (hw : (s.fibers f).phase = .suspended (.queue q))
    (hs : exec s a = .ok s') :
    (s'.fibers f).phase = .suspended (.queue q) ∨
    (a = .runHandler ∧ ∃ x xs, s.strand = x :: xs ∧ x.fiber = f) := by
  have hidle : s.current ≠ some f := fun hcur => by
    rw [(h f).running.mpr hcur] at hw
    cases hw
  have hplace : ∀ l, f ∈ s.at l → l ≠ .strand → l = .queue q := fun l hmem hl => by
    obtain ⟨w, hphase, hplace, -⟩ := (h f).of_mem hl hmem
    rw [hw] at hphase
    cases hphase
    exact (Option.some.inj hplace).symm
  obtain ⟨es, ps, heffect⟩ := exec_effect h hs
  cases heffect.turns f with
  | same hphase | interrupt hphase => exact .inl (hphase.trans hw)
  | count hf | suspend _ hf | finish _ hf => exact absurd hf hidle
  | born hf =>
      obtain ⟨ok, hok⟩ := (h f).fresh hf.ge
      rw [hw] at hok
      cases hok
  | resume w' hw' hphase =>
      have hcur := (h' f).running.mp hphase
      obtain ⟨-, ⟨g, hg, hcall⟩ | ⟨i, ec, -, hs⟩ | ⟨i, o, -, hs⟩ | ⟨p, ps, ha, -, hstrand, hs⟩ | ⟨o, -, -, hs⟩⟩ :=
        exec_cases hs
      · have hgf : g ≠ f := fun heq => hidle (heq ▸ hg)
        by_cases ha : ∃ ok, a = .finish ok
        · obtain ⟨ok, rfl⟩ := ha
          rcases fiberEpilogue_cases hcall with ⟨-, -, -, rfl⟩ | ⟨-, -, rfl⟩ | ⟨-, rfl⟩ | ⟨k, w, hj, -, rfl⟩
          · cases hcur
          · cases hcur
          · cases hcur
          · obtain rfl : k = f := Option.some.inj hcur
            have hrun := (h g).running.mpr hg
            have hmem : k ∈ s.at (.joiner g) := by simp [State.at, Fiber.waiter, hrun, hj, Joiner.toList]
            cases hplace _ hmem (by simp)
        · rcases call_turn hg (fun ok heq => ha ⟨ok, heq⟩) hcall with hsame | ⟨hnone, -⟩
          · rw [hcur] at hsame
            exact absurd (Option.some.inj hsame).symm hgf
          · rw [hcur] at hnone
            cases hnone
      · obtain ⟨x, -, -, rfl⟩ := complete_cases hs
        exact absurd hcur hidle
      · obtain ⟨x, -, -, rfl⟩ := answer_cases hs
        exact absurd hcur hidle
      · obtain ⟨w, -, rfl⟩ := fiberResume_cases hs
        exact .inr ⟨ha, p, ps, hstrand, Option.some.inj hcur⟩
      · obtain ⟨r, w, hr, -, -, rfl⟩ := deliver_cases hs
        obtain rfl : r = f := Option.some.inj hcur
        have hmem : r ∈ s.at .receive := by simp [State.at, hr]
        cases hplace _ hmem (by simp)

/-- A fiber that is suspended in a list was so before, or has just made the call. -/
theorem exec_suspends (h : Coherent s) (h' : Coherent s') (hw : (s'.fibers f).phase = .suspended (.queue q)) (hs : exec s a = .ok s') :
    (s.fibers f).phase = .suspended (.queue q) ∨ s.current = some f ∧ a.enters (.queue q) = true := by
  obtain ⟨es, ps, heffect⟩ := exec_effect h hs
  cases heffect.turns f with
  | same hphase | interrupt hphase => exact .inl (hphase ▸ hw)
  | count _ hphase => exact .inl (hphase ▸ hw)
  | resume _ _ hphase | finish _ _ hphase | born _ hphase =>
      rw [hphase] at hw
      cases hw
  | suspend w hf hphase =>
      rw [hphase] at hw
      cases hw
      refine .inr ⟨hf, ?_⟩
      have hrun := (h f).running.mpr hf
      obtain ⟨-, ⟨g, hg, hcall⟩ | ⟨i, ec, -, hs⟩ | ⟨i, o, -, hs⟩ | ⟨p, ps, -, hcur, -⟩ | ⟨o, -, hcur, -⟩⟩ := exec_cases hs
      · obtain rfl : f = g := Option.some.inj (hf.symm.trans hg)
        by_cases ha : ∃ ok, a = .finish ok
        · obtain ⟨ok, rfl⟩ := ha
          have hstop : ((s.stop f ok).fibers f).phase = .finished ok := by simp [State.stop_fibers]
          rcases fiberEpilogue_cases hcall with ⟨-, -, -, rfl⟩ | ⟨-, -, rfl⟩ | ⟨-, rfl⟩ | ⟨k, w, -, hk, rfl⟩
          · exact absurd (hphase.symm.trans hstop) (by simp)
          · simp [State.unlist, hstop] at hphase
          · simp [hstop] at hphase
          · rw [State.run_fibers] at hphase
            by_cases hkf : f = k
            · subst hkf
              rw [Function.update_self] at hphase
              cases hphase
            · rw [Function.update_of_ne hkf, State.release_fibers, Function.update_self, hstop] at hphase
              cases hphase
        · rcases call_turn hg (fun ok heq => ha ⟨ok, heq⟩) hcall with hsame | ⟨-, w, henters, hphase'⟩
          · rw [(h' f).running.mpr hsame] at hphase
            cases hphase
          · rw [hphase] at hphase'
            cases hphase'
            exact henters
      · obtain ⟨x, -, -, rfl⟩ := complete_cases hs
        exact absurd (hphase.symm.trans hrun) (by simp)
      · obtain ⟨x, -, -, rfl⟩ := answer_cases hs
        exact absurd (hphase.symm.trans hrun) (by simp)
      · rw [hcur] at hf
        cases hf
      · rw [hcur] at hf
        cases hf

end

/-- A VM with the `SUSPENSION_DISALLOWED` of its fibers. -/
structure Process where
  vm : State
  disallowed : FiberId → Nat

inductive Process.Action where
  | call (a : Sched.Action)
  | forbidSuspend
  | allowSuspend
deriving DecidableEq, Repr

namespace Process

def initial : Process := ⟨.initial, fun _ => 0⟩

/-- The running fiber may not suspend. -/
def forbids (p : Process) : Bool :=
  match p.vm.current with
  | some f => p.disallowed f != 0
  | none => false

def exec (p : Process) : Process.Action → ExecM Process
  | .call a =>
      if a.asks = true ∧ p.forbids = true then .ok p
      else do
        let s ← Sched.exec p.vm a
        .ok { p with vm := s }
  | .forbidSuspend =>
      match p.vm.current with
      | some f => .ok { p with disallowed := Function.update p.disallowed f (p.disallowed f + 1) }
      | none => .error .disabled
  | .allowSuspend =>
      match p.vm.current with
      | some f =>
          if 0 < p.disallowed f then .ok { p with disallowed := Function.update p.disallowed f (p.disallowed f - 1) }
          else .ok p
      | none => .error .disabled

section
variable {p p' : Process} {a : Process.Action} {f : FiberId}

theorem forbids_iff (hf : p.vm.current = some f) : p.forbids = true ↔ p.disallowed f ≠ 0 := by
  simp [forbids, hf]

theorem call_cases {x : Sched.Action} (hs : p.exec (.call x) = .ok p') :
    (x.asks = true ∧ p.forbids = true ∧ p' = p) ∨
    ((x.asks = true → p.forbids = false) ∧ Sched.exec p.vm x = .ok p'.vm ∧ p'.disallowed = p.disallowed) := by
  simp only [exec] at hs
  split at hs
  · rename_i hno
    exact .inl ⟨hno.1, hno.2, (Except.ok.inj hs).symm⟩
  · rename_i hok
    cases hx : Sched.exec p.vm x with
    | error e => rw [hx] at hs; cases hs
    | ok s =>
        rw [hx] at hs
        cases hs
        exact .inr ⟨fun hasks => by simpa [hasks] using hok, rfl, rfl⟩

theorem exec_vm (hs : p.exec a = .ok p') : p'.vm = p.vm ∨ ∃ x, a = .call x ∧ Sched.exec p.vm x = .ok p'.vm := by
  cases a with
  | call x =>
      rcases call_cases hs with ⟨-, -, rfl⟩ | ⟨-, hexec, -⟩
      · exact .inl rfl
      · exact .inr ⟨x, rfl, hexec⟩
  | forbidSuspend =>
      simp only [exec] at hs
      split at hs <;> cases hs
      exact .inl rfl
  | allowSuspend =>
      simp only [exec] at hs
      split at hs
      · split at hs <;> cases hs <;> exact .inl rfl
      · cases hs

/-- The VM keeps its invariants. -/
theorem exec_sound (h : Sound p.vm ∧ Queued p.vm) (hs : p.exec a = .ok p') : Sound p'.vm ∧ Queued p'.vm := by
  rcases exec_vm hs with hvm | ⟨x, -, hexec⟩
  · rw [hvm]
    exact h
  · exact ⟨step_sound h.1 hexec, exec_queued h.1.coherent h.2 hexec⟩

end

end Process

end Emilua.Sched
