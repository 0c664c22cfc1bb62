import Emilua.Lib.Transition
import Emilua.Coroutines.Scopes

/-!
The functions of the module `coroutine` and the fibers that use them. LuaJIT's own
`resume` and `yield` work on the C stack: a thread that yields goes back to the
one that has resumed it, whoever that is and for whatever reason, and the shims
tell a native suspension from a `coroutine.yield` by a flag in the registry.
-/
namespace Emilua.Coroutines
open Transition

/-- What LuaJIT knows of a thread. -/
inductive Raw where
  | fresh
  | suspended
  | running
  | dead
deriving DecidableEq, Repr

/-- `busy` is its entry in the table of busy coroutines. The fiber that ran it
last is for the specification only. -/
structure LuaThread where
  start : Start
  raw : Raw
  busy : Bool
  cleanup : Cleanup
  owner : Thread
deriving DecidableEq, Repr

/-- The entry in the list of fibers. What the calls of the program to disable and
restore interruption add up to is for the specification only. -/
structure FiberData where
  level : Level
  interrupted : Bool
  net : Int
deriving DecidableEq, Repr

/-- What is at work: the code of the innermost thread, its `resume` when the raw
one has returned, a thread that was just resumed, or the event loop. -/
inductive Control where
  | code (p : Phase)
  | returned (ok : Bool)
  | entered
  | idle
  | closed
deriving DecidableEq, Repr

/-- `native` is `yield_reason_is_native` and `stack` has the threads on the C
stack, the innermost first. -/
structure State where
  threads : Thread → LuaThread
  fibers : Thread → FiberData
  created : Nat
  native : Bool
  stack : List Thread
  current : Thread
  control : Control

inductive Action where
  | code (op : Op)
  | create
  | spawn
  | load
  | resume (co : Thread)
  | yield
  | suspend (checked : Bool)
  | interrupt (f : Thread)
  | wake (f : Thread)
deriving DecidableEq, Repr

/-- The main fiber of a VM. Lua code of modules starts with interruption off. -/
def State.start : State where
  threads _ := ⟨.main, .fresh, false, .init, 0⟩
  fibers _ := ⟨.boolean true, false, 0⟩
  created := 1
  native := true
  stack := []
  current := 0
  control := .idle

namespace State
variable (s : State)

def update (t : Thread) (f : LuaThread → LuaThread) : State :=
  { s with threads := Function.update s.threads t (f (s.threads t)) }

def setFiber (f : Thread) (d : FiberData) : State := { s with fibers := Function.update s.fibers f d }

def setRaw (t : Thread) (r : Raw) : State := s.update t fun x => { x with raw := r }

/-- `set_busy` and `clear_busy`. -/
def setBusy (t : Thread) (b : Bool) : State := s.update t fun x => { x with busy := b }

def setFrames (t : Thread) (fs : List Frame) : State :=
  s.update t fun x => { x with cleanup := { x.cleanup with frames := fs } }

/-- The innermost thread leaves the C stack. -/
def leave (t : Thread) (r : Raw) (rest : List Thread) (ok : Bool) : State :=
  { s.setRaw t r with stack := rest, control := if rest = [] then .idle else .returned ok }

/-- LuaJIT's `coroutine.resume`, when it does not fail. -/
def rawResume (co : Thread) : Option State :=
  match (s.threads co).raw with
  | .fresh | .suspended =>
      some { s.update co fun x => { x with raw := .running, owner := s.current } with
        stack := co :: s.stack, control := .entered }
  | .running | .dead => none

/-- `check_not_interrupted` of the shims and of the operations that suspend. -/
def refused : Bool := !(s.fibers s.current).level.disabled && (s.fibers s.current).interrupted

/-- What the calls of the program itself to disable and restore interruption did. -/
def netOf (d : FiberData) (p : Phase) (next : Next) : Op → Int
  | .disable => d.net + 1
  | .restore => if p = .user ∧ next = .phase .user then d.net - 1 else d.net
  | _ => d.net

/-- The innermost thread goes on by itself. The body of a coroutine that returns
leaves a mark for `resume`. -/
def code (t : Thread) (rest : List Thread) (p : Phase) (op : Op) : Option State :=
  let x := s.threads t
  let d := s.fibers s.current
  match x.cleanup.exec d.level x.start d.interrupted p op with
  | none => none
  | some (c, l, next) =>
      let marks := p = .user ∧ op = .ret ∧ x.cleanup.frames = [] ∧ x.start = .coroutine
      let s := { s with native := if marks then false else s.native }
      let s := (s.update t fun x => { x with cleanup := c }).setFiber s.current ⟨l, d.interrupted, netOf d p next op⟩
      match next with
      | .phase p => some { s with control := .code p }
      | .ended o => some (s.leave t .dead rest (o = .ok))
      | .failed => some { s with control := .closed }

/-- `resume` returns to the code of its thread. -/
def resumed (t : Thread) (fs : List Frame) : State :=
  { s.setFrames t fs with native := true, control := .code .user }

/-- `resume` has the result of the raw one. -/
def returned (t : Thread) (rest : List Thread) (ok : Bool) : Option State :=
  match (s.threads t).cleanup.frames with
  | .resuming co :: fs =>
      if ok && s.native then some ((s.setBusy co true).leave t .suspended rest true) else some (s.resumed t fs)
  | _ => none

/-- A thread was resumed: its code goes on, or its `resume` is to be continued. -/
def entered (t : Thread) : State :=
  match (s.threads t).cleanup.frames with
  | .resuming co :: fs => ((s.setBusy co false).rawResume co).getD ((s.setBusy co false).resumed t fs)
  | _ => { s with control := .code .user }

/-- `coroutine.resume`. -/
def resume (t co : Thread) : State :=
  if s.refused || (s.threads co).busy then { s with control := .code .raising }
  else
    let fs := (s.threads t).cleanup.frames
    ((s.setFrames t (.resuming co :: fs)).rawResume co).getD (s.resumed t fs)

/-- `coroutine.yield`. -/
def yield (t : Thread) (rest : List Thread) : State :=
  if (s.threads t).start = .coroutine then { s with native := false }.leave t .suspended rest true
  else { s with control := .code .raising }

/-- An operation of the runtime that suspends. Those that ignore interruption are
not `checked`. -/
def suspend (t : Thread) (rest : List Thread) (checked : Bool) : State :=
  if checked && s.refused then { s with control := .code .raising } else s.leave t .suspended rest true

/-- A thread that is not running yet. -/
def add (start : Start) (l : Level) : State :=
  { s with
    threads := Function.update s.threads s.created ⟨start, .fresh, false, .init, s.created⟩
    fibers := Function.update s.fibers s.created ⟨l, false, 0⟩
    created := s.created + 1 }

def wake (f : Thread) : State :=
  { s.update f fun x => { x with raw := .running } with stack := [f], current := f, control := .entered }

/-- What the code of thread `t` can do beside the operations of its own. -/
def act (t : Thread) (rest : List Thread) : Action → Option State
  | .create => some (s.add .coroutine (.count 0))
  | .spawn => some (s.add .spawned (.count 0))
  | .load => some (s.add .module (.boolean true))
  | .resume co => if co < s.created ∧ (s.threads co).start = .coroutine then some (s.resume t co) else none
  | .yield => some (s.yield t rest)
  | .suspend checked => some (s.suspend t rest checked)
  | .interrupt f =>
      if f < s.created ∧ (s.threads f).start ≠ .coroutine then some (s.setFiber f { s.fibers f with interrupted := true })
      else none
  | .code _ | .wake _ => none

def step : Action → Option State
  | .code op =>
      match s.control, s.stack with
      | .code p, t :: rest => s.code t rest p op
      | .returned ok, t :: rest => if op = .tick then s.returned t rest ok else none
      | .entered, t :: _ => if op = .tick then some (s.entered t) else none
      | _, _ => none
  | .wake f =>
      if s.control = .idle ∧ f < s.created ∧ (s.threads f).start ≠ .coroutine ∧
          ((s.threads f).raw = .fresh ∨ (s.threads f).raw = .suspended) then some (s.wake f)
      else none
  | a =>
      match s.control, s.stack with
      | .code .user, t :: rest => s.act t rest a
      | _, _ => none

end State

def Step (s : State) (a : Action) (s' : State) : Prop := s.step a = some s'

inductive Status where
  | suspended
  | running
  | normal
  | dead
deriving DecidableEq, Repr

/-- `coroutine.status`. -/
def State.status (s : State) (co : Thread) : Status :=
  if (s.threads co).busy then .normal
  else
    match (s.threads co).raw with
    | .fresh | .suspended => .suspended
    | .running => if s.stack.head? = some co then .running else .normal
    | .dead => .dead

abbrev Reached (s : State) : Prop := Reachable (· = .start) Step s

/-! What a step can do. -/

/-- The innermost call, if it is one of `resume`. -/
def Cleanup.target (c : Cleanup) : Option Thread :=
  match c.frames with
  | .resuming co :: _ => some co
  | _ => none

namespace State

def target (s : State) (t : Thread) : Option Thread := (s.threads t).cleanup.target


/-- The thread's own code did this. -/
def did (s : State) (t : Thread) (c : Cleanup) (l : Level) (net : Int) : State :=
  (s.update t fun x => { x with cleanup := c }).setFiber s.current ⟨l, (s.fibers s.current).interrupted, net⟩

def run (s : State) (co : Thread) : State :=
  { s.update co fun x => { x with raw := .running, owner := s.current } with stack := co :: s.stack, control := .entered }

inductive Moves (s : State) : Action → State → Prop where
  | inside {t rest p op c l n k} (native : Bool) (hcontrol : s.control = .code p) (hstack : s.stack = t :: rest)
      (hdoes : (s.threads t).cleanup.Does (s.fibers s.current).level (s.threads t).start p op c l n)
      (hnext : (∃ q, n = .phase q ∧ k = .code q) ∨ (n = .failed ∧ k = .closed))
      (hnative : native = s.native ∨ ((s.threads t).start = .coroutine ∧ p = .user ∧ op = .ret ∧ (s.threads t).cleanup.frames = [])) :
      Moves s (.code op) { s.did t c l (netOf (s.fibers s.current) p n op) with native := native, control := k }
  | ended {t rest o c l} (hcontrol : s.control = .code .looping) (hstack : s.stack = t :: rest)
      (hdoes : (s.threads t).cleanup.Does (s.fibers s.current).level (s.threads t).start .looping .tick c l (.ended o)) :
      Moves s (.code .tick) ((s.did t c l (s.fibers s.current).net).leave t .dead rest (o = .ok))
  | passed {t rest co} (hcontrol : s.control = .returned true) (hstack : s.stack = t :: rest) (htarget : s.target t = some co)
      (hnative : s.native = true) : Moves s (.code .tick) ((s.setBusy co true).leave t .suspended rest true)
  | returned {t rest ok co fs} (hcontrol : s.control = .returned ok) (hstack : s.stack = t :: rest)
      (hframes : (s.threads t).cleanup.frames = .resuming co :: fs) (hown : ok = false ∨ s.native = false) :
      Moves s (.code .tick) (s.resumed t fs)
  | continued {t rest co} (hcontrol : s.control = .entered) (hstack : s.stack = t :: rest) (htarget : s.target t = some co)
      (hraw : (s.threads co).raw = .fresh ∨ (s.threads co).raw = .suspended) : Moves s (.code .tick) ((s.setBusy co false).run co)
  | lost {t rest co fs} (hcontrol : s.control = .entered) (hstack : s.stack = t :: rest)
      (hframes : (s.threads t).cleanup.frames = .resuming co :: fs)
      (hraw : (s.threads co).raw = .running ∨ (s.threads co).raw = .dead) :
      Moves s (.code .tick) ((s.setBusy co false).resumed t fs)
  | arrived {t rest} (hcontrol : s.control = .entered) (hstack : s.stack = t :: rest) (htarget : s.target t = none) :
      Moves s (.code .tick) { s with control := .code .user }
  | woken {f} (hcontrol : s.control = .idle) (hf : f < s.created) (hfiber : (s.threads f).start ≠ .coroutine)
      (hraw : (s.threads f).raw = .fresh ∨ (s.threads f).raw = .suspended) : Moves s (.wake f) (s.wake f)
  | added {a t rest start l} (hcontrol : s.control = .code .user) (hstack : s.stack = t :: rest)
      (ha : a = .create ∨ a = .spawn ∨ a = .load) (hl : l.toInteger = 0) : Moves s a (s.add start l)
  | refused {a t rest} (hcontrol : s.control = .code .user) (hstack : s.stack = t :: rest)
      (ha : (∃ co, a = .resume co) ∨ a = .yield ∨ ∃ b, a = .suspend b) : Moves s a { s with control := .code .raising }
  | resumed {t rest co} (hcontrol : s.control = .code .user) (hstack : s.stack = t :: rest) (hco : co < s.created)
      (hstart : (s.threads co).start = .coroutine) (hbusy : (s.threads co).busy = false)
      (hraw : (s.threads co).raw = .fresh ∨ (s.threads co).raw = .suspended) :
      Moves s (.resume co) ((s.setFrames t (.resuming co :: (s.threads t).cleanup.frames)).run co)
  | unresumed {t rest co} (hcontrol : s.control = .code .user) (hstack : s.stack = t :: rest)
      (hraw : (s.threads co).raw = .running ∨ (s.threads co).raw = .dead) :
      Moves s (.resume co) (s.resumed t (s.threads t).cleanup.frames)
  | yielded {t rest} (hcontrol : s.control = .code .user) (hstack : s.stack = t :: rest)
      (hstart : (s.threads t).start = .coroutine) : Moves s .yield ({ s with native := false }.leave t .suspended rest true)
  | suspended {t rest b} (hcontrol : s.control = .code .user) (hstack : s.stack = t :: rest) :
      Moves s (.suspend b) (s.leave t .suspended rest true)
  | interrupted {t rest f} (hcontrol : s.control = .code .user) (hstack : s.stack = t :: rest) :
      Moves s (.interrupt f) (s.setFiber f { s.fibers f with interrupted := true })

variable {s s' : State} {t : Thread} {rest : List Thread}

theorem rawResume_some {co : Thread} (hraw : (s.threads co).raw = .fresh ∨ (s.threads co).raw = .suspended) :
    s.rawResume co = some (s.run co) := by
  rw [rawResume]
  rcases hraw with hraw | hraw <;> rw [hraw] <;> rfl

theorem rawResume_none {co : Thread} (hraw : (s.threads co).raw = .running ∨ (s.threads co).raw = .dead) :
    s.rawResume co = none := by
  rw [rawResume]
  rcases hraw with hraw | hraw <;> rw [hraw]

theorem raw_cases (r : Raw) : (r = .fresh ∨ r = .suspended) ∨ (r = .running ∨ r = .dead) := by
  cases r <;> simp

/-- The flag after an operation of the code. -/
theorem native_cases {q r : Prop} [Decidable q] (b : Bool) (hq : q → r) : (if q then false else b) = b ∨ r := by
  by_cases h : q
  · exact .inr (hq h)
  · exact .inl (if_neg h)

theorem code_moves {p : Phase} {op : Op} (hcontrol : s.control = .code p) (hstack : s.stack = t :: rest)
    (h : s.code t rest p op = some s') : s.Moves (.code op) s' := by
  rw [code] at h
  split at h
  · cases h
  · rename_i c l n hexec
    have hdoes := Cleanup.exec_does hexec
    dsimp only at h
    split at h
    · rename_i q
      cases h
      exact .inside _ hcontrol hstack hdoes (.inl ⟨q, rfl, rfl⟩) (native_cases _ fun ⟨hp, hop, hframes, hstart⟩ => ⟨hstart, hp, hop, hframes⟩)
    · rename_i o
      cases hdoes with
      | ended hframes =>
          cases h
          exact .ended hcontrol hstack (.ended hframes)
      | restore hr | popped _ hr | unwound _ hr => cases hr
    · cases h
      exact .inside _ hcontrol hstack hdoes (.inr ⟨rfl, rfl⟩) (native_cases _ fun ⟨hp, hop, hframes, hstart⟩ => ⟨hstart, hp, hop, hframes⟩)

theorem target_resuming {co : Thread} {fs : List Frame} (h : (s.threads t).cleanup.frames = .resuming co :: fs) :
    s.target t = some co := by
  rw [target, Cleanup.target, h]

theorem target_some {co : Thread} (h : s.target t = some co) : ∃ fs, (s.threads t).cleanup.frames = .resuming co :: fs := by
  rw [target, Cleanup.target] at h
  split at h
  · rename_i co' fs hframes
    cases h
    exact ⟨fs, hframes⟩
  · cases h

theorem returned_moves {ok : Bool} (hcontrol : s.control = .returned ok) (hstack : s.stack = t :: rest)
    (h : s.returned t rest ok = some s') : s.Moves (.code .tick) s' := by
  rw [State.returned] at h
  split at h
  · rename_i co fs hframes
    cases hok : ok && s.native with
    | true =>
        rw [hok] at h
        cases h
        rw [Bool.and_eq_true] at hok
        obtain ⟨rfl, hnative⟩ := hok
        exact .passed hcontrol hstack (target_resuming hframes) hnative
    | false =>
        rw [hok] at h
        cases h
        exact .returned hcontrol hstack hframes (Bool.and_eq_false_iff.mp hok)
  · cases h

theorem entered_moves (hcontrol : s.control = .entered) (hstack : s.stack = t :: rest) :
    s.Moves (.code .tick) (s.entered t) := by
  rw [State.entered]
  split
  · rename_i co fs hframes
    have hsame : ((s.setBusy co false).threads co).raw = (s.threads co).raw := by simp [setBusy, update]
    rcases raw_cases (s.threads co).raw with hraw | hraw
    · rw [rawResume_some (hsame ▸ hraw)]
      exact .continued hcontrol hstack (target_resuming hframes) hraw
    · rw [rawResume_none (hsame ▸ hraw)]
      exact .lost hcontrol hstack hframes hraw
  · rename_i hno
    refine .arrived hcontrol hstack ?_
    rw [target, Cleanup.target]
    split
    · rename_i co fs hframes
      exact absurd hframes (hno co fs)
    · rfl

theorem resume_moves {co : Thread} (hcontrol : s.control = .code .user) (hstack : s.stack = t :: rest) (hco : co < s.created)
    (hstart : (s.threads co).start = .coroutine) : s.Moves (.resume co) (s.resume t co) := by
  rw [State.resume]
  split
  · exact .refused hcontrol hstack (.inl ⟨co, rfl⟩)
  · rename_i hfree
    rw [Bool.or_eq_true, not_or] at hfree
    have hbusy : (s.threads co).busy = false := Bool.eq_false_iff.mpr hfree.2
    have hsame : ((s.setFrames t (.resuming co :: (s.threads t).cleanup.frames)).threads co).raw = (s.threads co).raw := by
      by_cases hct : co = t
      · rw [hct]
        simp [setFrames, update]
      · simp [setFrames, update, hct]
    rcases raw_cases (s.threads co).raw with hraw | hraw
    · dsimp only
      rw [rawResume_some (hsame ▸ hraw)]
      exact .resumed hcontrol hstack hco hstart hbusy hraw
    · dsimp only
      rw [rawResume_none (hsame ▸ hraw)]
      exact .unresumed hcontrol hstack hraw

theorem act_moves {a : Action} (hcontrol : s.control = .code .user) (hstack : s.stack = t :: rest)
    (h : s.act t rest a = some s') : s.Moves a s' := by
  cases a with
  | create =>
      cases h
      exact .added hcontrol hstack (.inl rfl) rfl
  | spawn =>
      cases h
      exact .added hcontrol hstack (.inr (.inl rfl)) rfl
  | load =>
      cases h
      exact .added hcontrol hstack (.inr (.inr rfl)) rfl
  | resume co =>
      rw [act] at h
      split at h
      · rename_i hco
        cases h
        exact resume_moves hcontrol hstack hco.1 hco.2
      · cases h
  | yield =>
      cases h
      rw [State.yield]
      split
      · rename_i hstart
        exact .yielded hcontrol hstack hstart
      · exact .refused hcontrol hstack (.inr (.inl rfl))
  | suspend b =>
      cases h
      rw [State.suspend]
      split
      · exact .refused hcontrol hstack (.inr (.inr ⟨b, rfl⟩))
      · exact .suspended hcontrol hstack
  | interrupt f =>
      rw [act] at h
      split at h
      · cases h
        exact .interrupted hcontrol hstack
      · cases h
  | code op => cases h
  | wake f => cases h

/-- Every step is one of these. -/
theorem step_moves {a : Action} (h : s.step a = some s') : s.Moves a s' := by
  cases a with
  | code op =>
      rw [step] at h
      split at h
      · rename_i p t rest hcontrol hstack
        exact code_moves hcontrol hstack h
      · rename_i ok t rest hcontrol hstack
        split at h
        · rename_i hop
          exact hop ▸ returned_moves hcontrol hstack h
        · cases h
      · rename_i t rest hcontrol hstack
        split at h
        · rename_i hop
          cases h
          exact hop ▸ entered_moves hcontrol hstack
        · cases h
      · cases h
  | wake f =>
      rw [step] at h
      split at h
      · rename_i hwake
        cases h
        exact .woken hwake.1 hwake.2.1 hwake.2.2.1 hwake.2.2.2
      · cases h
  | _ =>
      simp only [step] at h
      split at h
      · rename_i t rest hcontrol hstack
        exact act_moves hcontrol hstack h
      · cases h

end State

end Emilua.Coroutines
