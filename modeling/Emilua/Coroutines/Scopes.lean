import Mathlib.Tactic

/-!
`scope`, `pcall`, `xpcall`, `scope_cleanup_push` and `scope_cleanup_pop`, and the
root scope of a coroutine or a fiber, as they act on one Lua thread. The code of
the program is left open: at every point it may do any of the operations.
-/
namespace Emilua.Coroutines

abbrev Thread := Nat

abbrev Handler := Nat

inductive Guard where
  | scope
  | pcall
  | xpcall
deriving DecidableEq, Repr

inductive Outcome where
  | ok
  | error
deriving DecidableEq, Repr

/-- The function at the bottom of a thread. -/
inductive Start where
  | coroutine
  | spawned
  | main
  | module
deriving DecidableEq, Repr

/-- The calls that a thread is inside of. In `guarded` the function that was
given is at work; in `unwinding`, `popping` and `ending` a cleanup handler is,
and `pending` has those that come after it. -/
inductive Frame where
  | guarded (g : Guard)
  | unwinding (g : Guard) (o : Outcome) (pending : List Handler)
  | popping
  | ending (o : Outcome) (i : Nat)
  | resuming (co : Thread)
deriving DecidableEq, Repr

/-- `INTERRUPTION_DISABLED`. -/
inductive Level where
  | boolean (b : Bool)
  | count (n : Nat)
deriving DecidableEq, Repr

/-- `lua_tointeger`. -/
def Level.toInteger : Level → Nat
  | .boolean _ => 0
  | .count n => n

def Level.disabled : Level → Bool
  | .boolean b => b
  | .count n => 0 < n

def disableInterruption (l : Level) : Level := .count (l.toInteger + 1)

/-- Without a result, the error `interruption_already_allowed`. -/
def restoreInterruption (l : Level) : Option Level := if 0 < l.toInteger then some (.count (l.toInteger - 1)) else none

/-- A thread with its entry in the table of cleanup handlers, the innermost call
and the innermost scope first; the handlers of a scope are in the order they
were pushed. Handlers are numbered, and `ran` and `dropped` say what became of
those that are in no scope any more. -/
structure Cleanup where
  frames : List Frame
  scopes : List (List Handler)
  next : Handler
  ran : List Handler
  dropped : List Handler
deriving DecidableEq, Repr

/-- `init_new_coro_or_fiber_scope`. -/
def Cleanup.init : Cleanup := ⟨[], [[]], 0, [], []⟩

/-- The code of the program is next, an error goes to the innermost call, or the
loop over the handlers takes its next turn. -/
inductive Phase where
  | user
  | raising
  | looping
deriving DecidableEq, Repr

/-- Where an operation leads to: `failed` is the end of the VM. -/
inductive Next where
  | phase (p : Phase)
  | ended (o : Outcome)
  | failed
deriving DecidableEq, Repr

/-- What the code of the program can do, and `tick`, which is no choice of its. -/
inductive Op where
  | call (g : Guard)
  | push
  | pop (execute : Bool)
  | disable
  | restore
  | error
  | ret
  | tick
deriving DecidableEq, Repr

abbrev Result := Cleanup × Level × Next

namespace Cleanup
variable (c : Cleanup) (l : Level)

/-- `scope`, `pcall` and `xpcall` up to the call of the function. -/
def call (interrupted : Bool) (g : Guard) : Result :=
  if g ≠ .scope ∧ l.disabled = false ∧ interrupted = true then (c, l, .phase .raising)
  else ({ c with frames := .guarded g :: c.frames, scopes := [] :: c.scopes }, l, .phase .user)

def scopeCleanupPush : Option Result :=
  match c.scopes with
  | [] => none
  | hs :: ss => some ({ c with scopes := (hs ++ [c.next]) :: ss, next := c.next + 1 }, l, .phase .user)

/-- Back in a call, with what is below it. -/
def restoring (fs : List Frame) (p : Phase) : Result :=
  match restoreInterruption l with
  | none => ({ c with frames := fs }, l, .phase .raising)
  | some l => ({ c with frames := fs }, l, .phase p)

def scopeCleanupPop (execute : Bool) : Option Result :=
  match c.scopes with
  | [] => none
  | hs :: ss =>
      match hs.getLast? with
      | none => some (c, l, .phase .raising)
      | some h =>
          let c := { c with scopes := hs.dropLast :: ss }
          if execute then
            some ({ c with frames := .popping :: c.frames, ran := h :: c.ran }, disableInterruption l, .phase .user)
          else some ({ c with dropped := h :: c.dropped }.restoring (disableInterruption l) c.frames .user)

/-- `unsafe_scope_pop`, when the function has returned or raised an error. -/
def unsafeScopePop (g : Guard) (o : Outcome) (fs : List Frame) : Option Result :=
  match c.scopes with
  | [] => none
  | hs :: ss =>
      some ({ c with frames := .unwinding g o hs.reverse :: fs, scopes := ss }, disableInterruption l, .phase .looping)

/-- `root_scope`, when the body of the thread has come to its end. An error of the
main module is not held up. -/
def rootScope (start : Start) (o : Outcome) : Option Result :=
  if start = .main ∧ o = .error then some (c, l, .failed)
  else
    match c.scopes.getLast? with
    | none => none
    | some hs => some ({ c with frames := [.ending o hs.length] }, disableInterruption l, .phase .looping)

/-- The innermost call returns. -/
def ret (start : Start) : Option Result :=
  match c.frames with
  | [] => c.rootScope l start .ok
  | .guarded g :: fs => c.unsafeScopePop l g .ok fs
  | .unwinding .. :: _ | .ending .. :: _ => some (c, l, .phase .looping)
  | .popping :: fs => some (c.restoring l fs .user)
  | .resuming _ :: _ => none

/-- An error reaches the innermost call. One out of a cleanup handler is the end
of the VM. -/
def raise (start : Start) : Option Result :=
  match c.frames with
  | [] => c.rootScope l start .error
  | .guarded g :: fs => c.unsafeScopePop l g .error fs
  | .unwinding .. :: _ | .popping :: _ | .ending .. :: _ => some (c, l, .failed)
  | .resuming _ :: _ => none

/-- The errors that `scope` raises again. -/
def after (g : Guard) (o : Outcome) : Phase := if g = .scope ∧ o = .error then .raising else .user

/-- A turn of the loop over the handlers. The loop over those of a root scope
looks each of them up. -/
def loop : Option Result :=
  match c.frames with
  | .unwinding g o (h :: pending) :: fs =>
      some ({ c with frames := .unwinding g o pending :: fs, ran := h :: c.ran }, l, .phase .user)
  | .unwinding g o [] :: fs => some (c.restoring l fs (after g o))
  | .ending o 0 :: _ => some (c, l, .ended o)
  | .ending o (i + 1) :: fs =>
      match c.scopes.getLast?.bind (·[i]?) with
      | none => some (c, l, .failed)
      | some h => some ({ c with frames := .ending o i :: fs, ran := h :: c.ran }, l, .phase .user)
  | _ => none

def exec (start : Start) (interrupted : Bool) : Phase → Op → Option Result
  | .user, .call g => some (c.call l interrupted g)
  | .user, .push => c.scopeCleanupPush l
  | .user, .pop execute => c.scopeCleanupPop l execute
  | .user, .disable => some (c, disableInterruption l, .phase .user)
  | .user, .restore => some (c.restoring l c.frames .user)
  | .user, .error => some (c, l, .phase .raising)
  | .user, .ret => c.ret l start
  | .raising, .tick => c.raise l start
  | .looping, .tick => c.loop l
  | _, _ => none

/-! What an operation can do. -/

/-- Back in the calls `fs`, with one call to disable interruption undone if there
is one. -/
inductive Restores (c : Cleanup) (l : Level) (fs : List Frame) (p : Phase) : Cleanup → Level → Next → Prop where
  | restored (hl : 0 < l.toInteger) :
      Restores c l fs p { c with frames := fs } (.count (l.toInteger - 1)) (.phase p)
  | refused (hl : l.toInteger = 0) : Restores c l fs p { c with frames := fs } l (.phase .raising)

inductive Does (c : Cleanup) (l : Level) (start : Start) : Phase → Op → Cleanup → Level → Next → Prop where
  | interrupted (g) : Does c l start .user (.call g) c l (.phase .raising)
  | call (g) : Does c l start .user (.call g)
      { c with frames := .guarded g :: c.frames, scopes := [] :: c.scopes } l (.phase .user)
  | push {hs ss} (hscopes : c.scopes = hs :: ss) : Does c l start .user .push
      { c with scopes := (hs ++ [c.next]) :: ss, next := c.next + 1 } l (.phase .user)
  | unmatched {ss} (execute) (hscopes : c.scopes = [] :: ss) : Does c l start .user (.pop execute) c l (.phase .raising)
  | pop {hs ss h} (hscopes : c.scopes = (hs ++ [h]) :: ss) : Does c l start .user (.pop true)
      { c with scopes := hs :: ss, frames := .popping :: c.frames, ran := h :: c.ran } (disableInterruption l) (.phase .user)
  | drop {hs ss h} (hscopes : c.scopes = (hs ++ [h]) :: ss) : Does c l start .user (.pop false)
      { c with scopes := hs :: ss, dropped := h :: c.dropped } (.count l.toInteger) (.phase .user)
  | disable : Does c l start .user .disable c (disableInterruption l) (.phase .user)
  | restore {c' l' n} (hr : Restores c l c.frames .user c' l' n) : Does c l start .user .restore c' l' n
  | error : Does c l start .user .error c l (.phase .raising)
  | body {p op hs} (o) (hcause : (p = .user ∧ op = .ret ∧ o = .ok) ∨ (p = .raising ∧ op = .tick ∧ o = .error))
      (hframes : c.frames = []) (hroot : c.scopes.getLast? = some hs) :
      Does c l start p op { c with frames := [.ending o hs.length] } (disableInterruption l) (.phase .looping)
  | guarded {p op g fs hs ss} (o) (hcause : (p = .user ∧ op = .ret) ∨ (p = .raising ∧ op = .tick))
      (hframes : c.frames = .guarded g :: fs) (hscopes : c.scopes = hs :: ss) :
      Does c l start p op { c with frames := .unwinding g o hs.reverse :: fs, scopes := ss } (disableInterruption l)
        (.phase .looping)
  | handled (hframes : (∃ g o hs fs, c.frames = .unwinding g o hs :: fs) ∨ ∃ o i fs, c.frames = .ending o i :: fs) :
      Does c l start .user .ret c l (.phase .looping)
  | popped {fs c' l' n} (hframes : c.frames = .popping :: fs) (hr : Restores c l fs .user c' l' n) :
      Does c l start .user .ret c' l' n
  | failed {p op} (hop : op = .ret ∨ op = .tick) : Does c l start p op c l .failed
  | next {g o h hs fs} (hframes : c.frames = .unwinding g o (h :: hs) :: fs) : Does c l start .looping .tick
      { c with frames := .unwinding g o hs :: fs, ran := h :: c.ran } l (.phase .user)
  | unwound {g o fs c' l' n} (hframes : c.frames = .unwinding g o [] :: fs) (hr : Restores c l fs (after g o) c' l' n) :
      Does c l start .looping .tick c' l' n
  | nextOfRoot {o i fs hs h} (hframes : c.frames = .ending o (i + 1) :: fs) (hroot : c.scopes.getLast? = some hs)
      (hget : hs[i]? = some h) : Does c l start .looping .tick { c with frames := .ending o i :: fs, ran := h :: c.ran } l
        (.phase .user)
  | ended {o fs} (hframes : c.frames = .ending o 0 :: fs) : Does c l start .looping .tick c l (.ended o)

variable {c l} {c' : Cleanup} {l' : Level} {n : Next} {start : Start} {interrupted : Bool} {p : Phase} {op : Op}

theorem restoring_restores (fs : List Frame) (p : Phase) :
    Restores c l fs p (c.restoring l fs p).1 (c.restoring l fs p).2.1 (c.restoring l fs p).2.2 := by
  rw [restoring, restoreInterruption]
  by_cases hl : 0 < l.toInteger
  · rw [if_pos hl]
    exact .restored hl
  · rw [if_neg hl]
    exact .refused (Nat.eq_zero_of_not_pos hl)

theorem restores_of_eq {fs : List Frame} (h : c.restoring l fs p = (c', l', n)) : Restores c l fs p c' l' n := by
  have hr := @restoring_restores c l fs p
  rwa [h] at hr

theorem rootScope_does (o : Outcome) (hcause : (p = .user ∧ op = .ret ∧ o = .ok) ∨ (p = .raising ∧ op = .tick ∧ o = .error))
    (hframes : c.frames = []) (h : c.rootScope l start o = some (c', l', n)) : Does c l start p op c' l' n := by
  rw [rootScope] at h
  split at h
  · cases h
    exact .failed (hcause.imp (·.2.1) (·.2.1))
  · split at h
    · cases h
    · rename_i hs hroot
      cases h
      exact .body o hcause hframes hroot

theorem unsafeScopePop_does {g : Guard} {fs : List Frame} (o : Outcome)
    (hcause : (p = .user ∧ op = .ret) ∨ (p = .raising ∧ op = .tick)) (hframes : c.frames = .guarded g :: fs)
    (h : c.unsafeScopePop l g o fs = some (c', l', n)) : Does c l start p op c' l' n := by
  rw [unsafeScopePop] at h
  split at h
  · cases h
  · rename_i hs ss hscopes
    cases h
    exact .guarded o hcause hframes hscopes

theorem scopeCleanupPop_does {execute : Bool} (h : c.scopeCleanupPop l execute = some (c', l', n)) :
    Does c l start .user (.pop execute) c' l' n := by
  rw [scopeCleanupPop] at h
  split at h
  · cases h
  · rename_i hs ss hscopes
    split at h
    · rename_i hlast
      cases h
      rw [List.getLast?_eq_none_iff] at hlast
      exact .unmatched execute (hlast ▸ hscopes)
    · rename_i x hlast
      obtain ⟨hs', rfl⟩ := List.getLast?_eq_some_iff.mp hlast
      rw [List.dropLast_concat] at h
      cases execute with
      | true =>
          cases h
          exact .pop hscopes
      | false =>
          have hrestore : restoreInterruption (disableInterruption l) = some (.count l.toInteger) := rfl
          rw [if_neg Bool.false_ne_true, restoring, hrestore] at h
          cases h
          exact .drop hscopes

theorem ret_does (h : c.ret l start = some (c', l', n)) : Does c l start .user .ret c' l' n := by
  rw [ret] at h
  split at h
  · rename_i hframes
    exact rootScope_does .ok (.inl ⟨rfl, rfl, rfl⟩) hframes h
  · rename_i g fs hframes
    exact unsafeScopePop_does .ok (.inl ⟨rfl, rfl⟩) hframes h
  · rename_i g o hs fs hframes
    cases h
    exact .handled (.inl ⟨g, o, hs, fs, hframes⟩)
  · rename_i o i fs hframes
    cases h
    exact .handled (.inr ⟨o, i, fs, hframes⟩)
  · rename_i fs hframes
    exact .popped hframes (restores_of_eq (Option.some.inj h))
  · cases h

theorem raise_does (h : c.raise l start = some (c', l', n)) : Does c l start .raising .tick c' l' n := by
  rw [raise] at h
  split at h
  · rename_i hframes
    exact rootScope_does .error (.inr ⟨rfl, rfl, rfl⟩) hframes h
  · rename_i g fs hframes
    exact unsafeScopePop_does .error (.inr ⟨rfl, rfl⟩) hframes h
  · cases h
    exact .failed (.inr rfl)
  · cases h
    exact .failed (.inr rfl)
  · cases h
    exact .failed (.inr rfl)
  · cases h

theorem loop_does (h : c.loop l = some (c', l', n)) : Does c l start .looping .tick c' l' n := by
  rw [loop] at h
  split at h
  · rename_i g o x hs fs hframes
    cases h
    exact .next hframes
  · rename_i g o fs hframes
    exact .unwound hframes (restores_of_eq (Option.some.inj h))
  · rename_i o fs hframes
    cases h
    exact .ended hframes
  · rename_i o i fs hframes
    split at h
    · cases h
      exact .failed (.inr rfl)
    · rename_i x hx
      obtain ⟨hs, hroot, hget⟩ := Option.bind_eq_some_iff.mp hx
      cases h
      exact .nextOfRoot hframes hroot hget
  · cases h

/-- Every operation does one of these. -/
theorem exec_does (h : c.exec l start interrupted p op = some (c', l', n)) : Does c l start p op c' l' n := by
  cases p with
  | user =>
      cases op with
      | call g =>
          simp only [exec, call] at h
          split at h
          · cases h
            exact .interrupted g
          · cases h
            exact .call g
      | push =>
          simp only [exec, scopeCleanupPush] at h
          split at h
          · cases h
          · rename_i hs ss hscopes
            cases h
            exact .push hscopes
      | pop execute => exact scopeCleanupPop_does h
      | disable =>
          cases h
          exact .disable
      | restore => exact .restore (restores_of_eq (Option.some.inj h))
      | error =>
          cases h
          exact .error
      | ret => exact ret_does h
      | tick => cases h
  | raising =>
      cases op with
      | tick => exact raise_does h
      | _ => cases h
  | looping =>
      cases op with
      | tick => exact loop_does h
      | _ => cases h

end Cleanup

end Emilua.Coroutines
