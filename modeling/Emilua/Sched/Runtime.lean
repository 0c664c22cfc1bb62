import Mathlib.Tactic
import Emilua.Lib.Transition

/-!
The fibers of one VM and what they can wait for: mutexes, condition variables,
futures, each other, the inbox, a send, a timer or I/O. Handlers are posted to
the strand and run one at a time, in order; a fiber that is resumed runs until
it suspends again or ends.

Calls that only raise an error in the calling fiber leave the state as it is.
`log` and `holders` record what happened and are read by nobody.
-/
namespace Emilua.Sched

abbrev FiberId := Nat

inductive Kind where
  | main
  | module
  | async
  | spawned
deriving DecidableEq, Repr

/-- `INTERRUPTION_DISABLED` is a boolean in module fibers. -/
inductive Disabled where
  | flag
  | count (n : Nat)
deriving DecidableEq, Repr

/-- The wait lists. -/
inductive Queue where
  | mutex (m : Nat)
  | recursiveMutex (m : Nat)
  | cond (c : Nat)
  | future (p : Nat)
deriving DecidableEq, Repr

/-- The call a fiber is suspended in. -/
inductive Wait where
  | start
  | queue (q : Queue)
  | join (f : FiberId)
  | yield
  | io
  | receive
  | send
deriving DecidableEq, Repr

inductive Phase where
  | running
  | suspended (w : Wait)
  | finished (ok : Bool)
deriving DecidableEq, Repr

inductive Joiner where
  | nil
  | detached
  | fiber (g : FiberId)
deriving DecidableEq, Repr

/-- The closure stored under `INTERRUPTER`. `signal` emits the cancellation
signal of the fiber, or cancels the timer of a sleep: one operation is all it
reaches. A pipe is cancelled as a whole. -/
inductive Interrupter where
  | none
  | queue (q : Queue)
  | join (f : FiberId)
  | signal
  | pipe (o : Nat)
  | receive
  | send
deriving DecidableEq, Repr

/-- What a suspending call returns or raises. -/
inductive Outcome where
  | done
  | interrupted
  | aborted
  | failed
  | channelClosed
  | noSenders
  | brokenPromise
  | value (ref : Nat)
  | error (ref : Nat)
  | joined (ok : Bool)
deriving DecidableEq, Repr

/-- An entry of `fiber_list`, with `listed` for whether it is there. -/
structure Fiber where
  kind : Kind
  phase : Phase
  listed : Bool
  joiner : Joiner
  status : Option Bool
  userHandle : Bool
  disabled : Disabled
  interrupted : Bool
  interrupter : Interrupter
deriving DecidableEq, Repr

/-- `fiber_handle` of a spawned fiber; `attached` says that its `fiber` is not
null. -/
structure Handle where
  attached : Bool
  joinInProgress : Bool
  collected : Bool
deriving DecidableEq, Repr

inductive FutureState where
  | empty
  | broken
  | valueReady (ref : Nat)
  | errorReady (ref : Nat)
deriving DecidableEq, Repr

/-- An asynchronous operation, on an object the program has or on none. With
`fast`, `operation_aborted` is taken for an interruption. -/
structure Op where
  fiber : FiberId
  object : Option Nat
  cancelled : Bool
  fast : Bool
deriving DecidableEq, Repr

/-- How the handler of a resume finds its arguments. -/
inductive Args where
  | outcome (o : Outcome)
  | io (ec : Outcome) (fast : Bool)
deriving DecidableEq, Repr

structure Post where
  fiber : FiberId
  args : Args
  skipClear : Bool
deriving DecidableEq, Repr

inductive Event where
  | interrupt (f : FiberId)
  | refuse (f : FiberId)
  | suspend (f : FiberId) (w : Wait) (disabled : Bool)
  | post (f : FiberId)
  | resume (f : FiberId) (w : Wait) (o : Outcome)
  | joined (f : FiberId)
  | detached (f : FiberId)
  | collectHandle (f : FiberId)
  | handOver (m : Nat) (f : FiberId)
  | set (p : Nat) (o : Outcome)
  | collect (p : Nat)
  | get (f : FiberId) (p : Nat) (o : Outcome)
deriving DecidableEq, Repr

structure State where
  fibers : FiberId → Fiber
  fiberCount : Nat
  handles : FiberId → Handle
  queues : Queue → List FiberId
  locked : Nat → Bool
  holders : Nat → List FiberId
  owner : Nat → Option FiberId
  nlocked : Nat → Nat
  futures : Nat → FutureState
  promises : Nat → Bool
  ops : List Op
  isOpen : Bool
  recvFiber : Option FiberId
  sends : List (FiberId × Bool)
  strand : List Post
  current : Option FiberId
  valid : Bool
  log : List Event

inductive Fault where
  | disabled
  | notSuspended
  | nullFiber
deriving DecidableEq, Repr

abbrev ExecM := Except Fault

def Disabled.on : Disabled → Bool
  | .flag => true
  | .count n => 0 < n

/-- `increment_this_fiber_counter` takes a boolean for 0. -/
def Disabled.increment : Disabled → Disabled
  | .flag => .count 1
  | .count n => .count (n + 1)

/-- `decrement_this_fiber_counter`, which raises an error at 0. -/
def Disabled.decrement : Disabled → Disabled
  | .flag => .flag
  | .count n => .count (n - 1)

namespace Fiber

def off : Fiber where
  kind := .spawned
  phase := .finished true
  listed := false
  joiner := .nil
  status := none
  userHandle := false
  disabled := .count 0
  interrupted := false
  interrupter := .none

def main : Fiber :=
  { off with kind := .main, phase := .suspended .start, listed := true, joiner := .detached, disabled := .flag }

def async : Fiber :=
  { off with kind := .async, listed := true, disabled := .flag }

def spawned : Fiber := { off with phase := .suspended .start, listed := true }

def module (importer : FiberId) : Fiber :=
  { off with
    kind := .module, phase := .suspended .start, listed := true, joiner := .fiber importer, disabled := .flag }

/-- `set_interrupter`. -/
def setInterrupter (x : Fiber) (i : Interrupter) : Fiber :=
  if x.disabled.on then x else { x with interrupter := i }

/-- `unsafe_can_suspend` raises `interrupted`. -/
def refused (x : Fiber) : Bool := !x.disabled.on && x.interrupted

end Fiber

/-- `auto_detect_interrupt` and `fast_auto_detect_interrupt`. -/
def Args.read (interrupted : Bool) : Args → Outcome
  | .outcome o => o
  | .io .aborted fast => if fast || interrupted then .interrupted else .aborted
  | .io ec _ => ec

namespace State

def setFiber (s : State) (f : FiberId) (g : Fiber → Fiber) : State :=
  { s with fibers := Function.update s.fibers f (g (s.fibers f)) }

def setHandle (s : State) (f : FiberId) (g : Handle → Handle) : State :=
  { s with handles := Function.update s.handles f (g (s.handles f)) }

def setQueue (s : State) (q : Queue) (xs : List FiberId) : State :=
  { s with queues := Function.update s.queues q xs }

def setHolders (s : State) (m : Nat) (xs : List FiberId) : State :=
  { s with holders := Function.update s.holders m xs }

def setLocked (s : State) (m : Nat) (b : Bool) : State :=
  { s with locked := Function.update s.locked m b }

def setOwner (s : State) (m : Nat) (f : Option FiberId) (n : Nat) : State :=
  { s with owner := Function.update s.owner m f, nlocked := Function.update s.nlocked m n }

def setFuture (s : State) (p : Nat) (x : FutureState) : State :=
  { s with futures := Function.update s.futures p x }

def setOps (s : State) (ops : List Op) : State := { s with ops := ops }

def setSends (s : State) (sends : List (FiberId × Bool)) : State := { s with sends := sends }

def setReceiver (s : State) (f : Option FiberId) : State := { s with recvFiber := f }

def record (s : State) (e : Event) : State := { s with log := s.log ++ [e] }

def post (s : State) (f : FiberId) (args : Args) (skipClear : Bool) : State :=
  { s with strand := s.strand ++ [⟨f, args, skipClear⟩], log := s.log ++ [.post f] }

def unlist (s : State) (f : FiberId) : State := s.setFiber f fun x => { x with listed := false }

/-- Fiber `f` sets its interrupter and yields. -/
def suspend (s : State) (f : FiberId) (w : Wait) (i : Interrupter) : State :=
  let s := s.record (.suspend f w (s.fibers f).disabled.on)
  { s.setFiber f fun x => { x.setInterrupter i with phase := .suspended w } with current := none }

/-- `fiber_resume` of a fiber that is suspended in `w`. -/
def run (s : State) (f : FiberId) (w : Wait) (o : Outcome) (skipClear : Bool) : State :=
  let s := s.record (.resume f w o)
  { s.setFiber f fun x =>
      { if skipClear then x else x.setInterrupter .none with phase := .running } with
    current := some f }

def fiberResume (s : State) (p : Post) : ExecM State :=
  match (s.fibers p.fiber).phase with
  | .suspended w => .ok (s.run p.fiber w (p.args.read (s.fibers p.fiber).interrupted) p.skipClear)
  | _ => .error .notSuspended

/-- Fiber `f` goes to the end of a wait list. -/
def enqueue (s : State) (f : FiberId) (q : Queue) (i : Interrupter) : State :=
  (s.setQueue q (s.queues q ++ [f])).suspend f (.queue q) i

/-- All fibers of a wait list are woken. -/
def wakeAll (s : State) (q : Queue) (o : Outcome) : State :=
  { s with
    strand := s.strand ++ (s.queues q).map fun f => ⟨f, .outcome o, false⟩
    queues := Function.update s.queues q []
    log := s.log ++ (s.queues q).map .post }

/-! Mutexes. -/

def mutexLock (s : State) (f : FiberId) (m : Nat) : State :=
  if s.locked m then s.enqueue f (.mutex m) .none
  else (s.setLocked m true).setHolders m (s.holders m ++ [f])

def mutexTryLock (s : State) (f : FiberId) (m : Nat) : State :=
  if s.locked m then s else (s.setLocked m true).setHolders m (s.holders m ++ [f])

def mutexUnlock (s : State) (f : FiberId) (m : Nat) : State :=
  if s.locked m = false then s
  else
    match s.queues (.mutex m) with
    | [] => (s.setLocked m false).setHolders m ((s.holders m).erase f)
    | next :: rest =>
        (((s.setQueue (.mutex m) rest).post next (.outcome .done) true).setHolders m
          ((s.holders m).erase f ++ [next])).record (.handOver m next)

def recursiveMutexLock (s : State) (f : FiberId) (m : Nat) : State :=
  match s.owner m with
  | none => s.setOwner m (some f) 1
  | some g =>
      if g = f then
        if s.nlocked m = 2 ^ 64 - 1 then s else s.setOwner m (some f) (s.nlocked m + 1)
      else s.enqueue f (.recursiveMutex m) .none

def recursiveMutexTryLock (s : State) (f : FiberId) (m : Nat) : State :=
  match s.owner m with
  | none => s.setOwner m (some f) 1
  | some g =>
      if g = f then
        if s.nlocked m = 2 ^ 64 - 1 then s else s.setOwner m (some f) (s.nlocked m + 1)
      else s

def recursiveMutexUnlock (s : State) (f : FiberId) (m : Nat) : State :=
  if s.owner m ≠ some f then s
  else if s.nlocked m - 1 ≠ 0 then s.setOwner m (some f) (s.nlocked m - 1)
  else
    match s.queues (.recursiveMutex m) with
    | [] => s.setOwner m none 0
    | next :: rest =>
        ((s.setQueue (.recursiveMutex m) rest).setOwner m (some next) 1).post next (.outcome .done) true

/-! Condition variables. -/

/-- The lines of `cond_wait` that are marked as `mutex:unlock()`. -/
def condUnlock (s : State) (f : FiberId) (m : Nat) : State :=
  match s.queues (.mutex m) with
  | [] => (s.setLocked m false).setHolders m ((s.holders m).erase f)
  | next :: rest =>
      (((s.setQueue (.mutex m) rest).post next (.outcome .done) true).setHolders m
        ((s.holders m).erase f ++ [next])).record (.handOver m next)

def condWait (s : State) (f : FiberId) (c m : Nat) : State :=
  if s.locked m = false then s
  else if (s.fibers f).refused then s.record (.refuse f)
  else
    ((s.setQueue (.cond c) (s.queues (.cond c) ++ [f])).condUnlock f m).suspend f
      (.queue (.cond c)) (.queue (.cond c))

def condNotifyOne (s : State) (c : Nat) : State :=
  match s.queues (.cond c) with
  | [] => s
  | next :: rest => (s.setQueue (.cond c) rest).post next (.outcome .done) false

def condNotifyAll (s : State) (c : Nat) : State := s.wakeAll (.cond c) .done

/-! Futures. -/

def futureGet (s : State) (f : FiberId) (p : Nat) : State :=
  if (s.fibers f).refused then s.record (.refuse f)
  else
    match s.futures p with
    | .broken => s.record (.get f p .brokenPromise)
    | .valueReady ref => s.record (.get f p (.value ref))
    | .errorReady ref => s.record (.get f p (.error ref))
    | .empty => s.enqueue f (.future p) (.queue (.future p))

def promiseSetValue (s : State) (p ref : Nat) : State :=
  if s.futures p ≠ .empty then s
  else ((s.setFuture p (.valueReady ref)).wakeAll (.future p) (.value ref)).record (.set p (.value ref))

def promiseSetError (s : State) (p ref : Nat) : State :=
  if s.futures p ≠ .empty then s
  else ((s.setFuture p (.errorReady ref)).wakeAll (.future p) (.error ref)).record (.set p (.error ref))

/-- `promise_mt_gc`. -/
def promiseGc (s : State) (p : Nat) : State :=
  let s := { s with promises := Function.update s.promises p false }
  ((s.setFuture p .broken).wakeAll (.future p) .brokenPromise).record (.collect p)

/-! Fibers. -/

def addFiber (s : State) (x : Fiber) : State :=
  { s with
    fibers := Function.update s.fibers s.fiberCount x
    handles := Function.update s.handles s.fiberCount ⟨true, false, false⟩
    fiberCount := s.fiberCount + 1 }

def spawn (s : State) : State := (s.addFiber .spawned).post s.fiberCount (.outcome .done) true

/-- `start_module_fiber`: the importer waits for the module, and is not told of
interruptions. -/
def importModule (s : State) (f : FiberId) : State :=
  ((s.addFiber (.module f)).post s.fiberCount (.outcome .done) true).suspend f (.join s.fiberCount) .none

def fiberJoin (s : State) (f g : FiberId) : State :=
  if (s.fibers f).refused then s.record (.refuse f)
  else if (s.handles g).attached = false ∨ (s.handles g).joinInProgress = true then s
  else if g = f then s
  else
    match (s.fibers g).status with
    | none =>
        ((s.setFiber g fun x => { x with joiner := .fiber f, userHandle := true }).setHandle g fun h =>
          { h with joinInProgress := true }).suspend f (.join g) (.join g)
    | some _ => ((s.unlist g).setHandle g fun h => { h with attached := false }).record (.joined g)

def fiberDetach (s : State) (g : FiberId) : State :=
  if (s.handles g).attached = false ∨ (s.handles g).joinInProgress = true then s
  else
    let s' := (s.setHandle g fun h => { h with attached := false }).record (.detached g)
    match (s.fibers g).status with
    | none => s'.setFiber g fun x => { x with joiner := .detached }
    | some _ => s'.unlist g

/-- `fiber_mt_gc`. A handle that a fiber waits on is not collected. -/
def fiberGc (s : State) (g : FiberId) : State :=
  let s' := (s.setHandle g fun h => { h with attached := false, collected := true }).record (.collectHandle g)
  if (s.handles g).attached = false then s'
  else
    match (s.fibers g).status with
    | none => s'.setFiber g fun x => { x with joiner := .detached }
    | some _ => s'.unlist g

/-- The closures stored under `INTERRUPTER`, called for fiber `g`. -/
def interrupterCall (s : State) (g : FiberId) : Interrupter → ExecM State
  | .none => .ok s
  | .queue q =>
      if g ∈ s.queues q then
        .ok ((s.setQueue q ((s.queues q).erase g)).post g (.outcome .interrupted) false)
      else .ok s
  | .join h =>
      .ok (((s.setFiber h fun x => { x with joiner := .nil, userHandle := false }).setHandle h fun x =>
        { x with joinInProgress := false }).post g (.outcome .interrupted) false)
  | .signal =>
      .ok (s.setOps (s.ops.map fun x => if x.fiber = g then { x with cancelled := true } else x))
  | .pipe o =>
      .ok (s.setOps (s.ops.map fun x => if x.object = some o then { x with cancelled := true } else x))
  | .receive =>
      match s.recvFiber with
      | none => .error .nullFiber
      | some r => .ok ((s.setReceiver none).post r (.outcome .interrupted) false)
  | .send => .ok (s.setSends (s.sends.map fun x => if x.1 = g then (x.1, true) else x))

def fiberInterrupt (s : State) (f g : FiberId) : ExecM State :=
  if (s.handles g).attached = false then .ok s
  else do
    let s := (s.setFiber g fun x => { x with interrupted := true }).record (.interrupt g)
    if g = f then .ok s
    else
      let s ← s.interrupterCall g (s.fibers g).interrupter
      .ok (s.setFiber g fun x => { x with interrupter := .none })

/-- `fiber_epilogue` of a fiber that has ended. -/
def fiberEpilogue (s : State) (f : FiberId) (ok : Bool) : ExecM State :=
  let s := { s.setFiber f fun x => { x with phase := .finished ok } with current := none }
  match (s.fibers f).joiner with
  | .detached =>
      if (s.fibers f).kind = .main ∧ ok = false then .ok { s with valid := false }
      else .ok (s.unlist f)
  | .nil => .ok (s.setFiber f fun x => { x with status := some ok })
  | .fiber g =>
      let s := (s.setFiber f fun x => { x with status := some ok }).record (.joined f)
      let s := if (s.fibers f).userHandle then s.setHandle f fun h => { h with attached := false } else s
      match (s.fibers g).phase with
      | .suspended w => .ok (s.run g w (.joined ok) false)
      | _ => .error .notSuspended

/-! Everything else that suspends. -/

def thisFiberYield (s : State) (f : FiberId) : State :=
  if (s.fibers f).refused then s.record (.refuse f)
  else (s.post f (.outcome .done) true).suspend f .yield .none

/-- An operation is started: a sleep has no object, and of the objects only
pipes set an interrupter of their own. -/
def startOp (s : State) (f : FiberId) (object : Option Nat) (i : Interrupter) : State :=
  if (s.fibers f).refused then s.record (.refuse f)
  else (s.setOps (s.ops ++ [⟨f, object, false, object.isNone⟩])).suspend f .io i

def sleepFor (s : State) (f : FiberId) : State := s.startOp f none .signal

def steadyTimerWait (s : State) (f : FiberId) (o : Nat) : State := s.startOp f (some o) .signal

def streamReadSome (s : State) (f : FiberId) (o : Nat) : State := s.startOp f (some o) .signal

def pipeReadSome (s : State) (f : FiberId) (o : Nat) : State := s.startOp f (some o) (.pipe o)

/-- `cancel` of a timer, file or pipe. -/
def cancel (s : State) (o : Nat) : State :=
  s.setOps (s.ops.map fun x => if x.object = some o then { x with cancelled := true } else x)

/-- The operation completes; only a cancelled one can have been aborted. -/
def complete (s : State) (i : Nat) (ec : Outcome) : ExecM State :=
  match s.ops[i]? with
  | none => .error .disabled
  | some x =>
      if ec = .done ∨ ec = .failed ∨ (ec = .aborted ∧ x.cancelled = true) then
        .ok ((s.setOps (s.ops.eraseIdx i)).post x.fiber (.io ec x.fast) false)
      else .error .disabled

/-- `chan_receive`; `queued` says that a message is waiting. -/
def chanReceive (s : State) (f : FiberId) (queued : Bool) : State :=
  if (s.fibers f).refused then s.record (.refuse f)
  else if s.isOpen = false ∨ s.recvFiber ≠ none ∨ queued = true then s
  else (s.setReceiver (some f)).suspend f .receive .receive

def inboxClose (s : State) : State :=
  if s.isOpen = false then s
  else
    match s.recvFiber with
    | none => { s with isOpen := false }
    | some r => { (s.setReceiver none).post r (.outcome .channelClosed) false with isOpen := false }

/-- A message arrives, or the last sender goes: the receiver runs at once. -/
def deliver (s : State) (o : Outcome) : ExecM State :=
  match s.recvFiber with
  | none => .error .disabled
  | some r =>
      match (s.fibers r).phase with
      | .suspended w =>
          if o = .done ∨ o = .noSenders then .ok ((s.setReceiver none).run r w o false)
          else .error .disabled
      | _ => .error .notSuspended

def chanSend (s : State) (f : FiberId) : State :=
  if (s.fibers f).refused then s.record (.refuse f)
  else (s.setSends (s.sends ++ [(f, false)])).suspend f .send .send

/-- The VM the message went to answers: it has taken the message, refused it,
or given it back because it was asked to. -/
def answer (s : State) (i : Nat) (o : Outcome) : ExecM State :=
  match s.sends[i]? with
  | none => .error .disabled
  | some x =>
      if o = .done ∨ o = .channelClosed ∨ (o = .interrupted ∧ x.2 = true) then
        .ok ((s.setSends (s.sends.eraseIdx i)).post x.1 (.outcome o) false)
      else .error .disabled

def disableInterruption (s : State) (f : FiberId) : State :=
  s.setFiber f fun x => { x with disabled := x.disabled.increment }

def restoreInterruption (s : State) (f : FiberId) : State :=
  s.setFiber f fun x => { x with disabled := x.disabled.decrement }

end State

/-! The actions. Those of the running fiber come first; then the strand, and
what the system and other VMs do. -/

inductive Action where
  | mutexLock (m : Nat)
  | mutexTryLock (m : Nat)
  | mutexUnlock (m : Nat)
  | recursiveMutexLock (m : Nat)
  | recursiveMutexTryLock (m : Nat)
  | recursiveMutexUnlock (m : Nat)
  | condWait (c m : Nat)
  | condNotifyOne (c : Nat)
  | condNotifyAll (c : Nat)
  | futureGet (p : Nat)
  | promiseSetValue (p ref : Nat)
  | promiseSetError (p ref : Nat)
  | promiseGc (p : Nat)
  | spawn
  | importModule
  | fiberJoin (g : FiberId)
  | fiberDetach (g : FiberId)
  | fiberGc (g : FiberId)
  | fiberInterrupt (g : FiberId)
  | finish (ok : Bool)
  | thisFiberYield
  | sleepFor
  | steadyTimerWait (o : Nat)
  | streamReadSome (o : Nat)
  | pipeReadSome (o : Nat)
  | cancel (o : Nat)
  | chanReceive (queued : Bool)
  | inboxClose
  | chanSend
  | disableInterruption
  | restoreInterruption
  | runHandler
  | complete (i : Nat) (ec : Outcome)
  | deliver (o : Outcome)
  | answer (i : Nat) (o : Outcome)
deriving DecidableEq, Repr

/-- The handle of `g` can be used: it has one that has not been collected. -/
def State.hasHandle (s : State) (g : FiberId) : Bool :=
  g < s.fiberCount && (s.fibers g).kind = .spawned && !(s.handles g).collected

/-- What the running fiber `f` does. -/
def call (s : State) (f : FiberId) : Action → ExecM State
  | .mutexLock m => .ok (s.mutexLock f m)
  | .mutexTryLock m => .ok (s.mutexTryLock f m)
  | .mutexUnlock m => .ok (s.mutexUnlock f m)
  | .recursiveMutexLock m => .ok (s.recursiveMutexLock f m)
  | .recursiveMutexTryLock m => .ok (s.recursiveMutexTryLock f m)
  | .recursiveMutexUnlock m => .ok (s.recursiveMutexUnlock f m)
  | .condWait c m => .ok (s.condWait f c m)
  | .condNotifyOne c => .ok (s.condNotifyOne c)
  | .condNotifyAll c => .ok (s.condNotifyAll c)
  | .futureGet p => .ok (s.futureGet f p)
  | .promiseSetValue p ref => if s.promises p then .ok (s.promiseSetValue p ref) else .error .disabled
  | .promiseSetError p ref => if s.promises p then .ok (s.promiseSetError p ref) else .error .disabled
  | .promiseGc p => if s.promises p then .ok (s.promiseGc p) else .error .disabled
  | .spawn => .ok s.spawn
  | .importModule =>
      if (s.fibers f).kind = .spawned then .error .disabled else .ok (s.importModule f)
  | .fiberJoin g => if s.hasHandle g then .ok (s.fiberJoin f g) else .error .disabled
  | .fiberDetach g => if s.hasHandle g then .ok (s.fiberDetach g) else .error .disabled
  | .fiberGc g =>
      if s.hasHandle g ∧ ¬ ((s.handles g).attached = true ∧ (s.handles g).joinInProgress = true) then
        .ok (s.fiberGc g)
      else .error .disabled
  | .fiberInterrupt g => if s.hasHandle g then s.fiberInterrupt f g else .error .disabled
  | .finish ok => s.fiberEpilogue f ok
  | .thisFiberYield => .ok (s.thisFiberYield f)
  | .sleepFor => .ok (s.sleepFor f)
  | .steadyTimerWait o => .ok (s.steadyTimerWait f o)
  | .streamReadSome o => .ok (s.streamReadSome f o)
  | .pipeReadSome o => .ok (s.pipeReadSome f o)
  | .cancel o => .ok (s.cancel o)
  | .chanReceive queued => .ok (s.chanReceive f queued)
  | .inboxClose => .ok s.inboxClose
  | .chanSend => .ok (s.chanSend f)
  | .disableInterruption => .ok (s.disableInterruption f)
  | .restoreInterruption => .ok (s.restoreInterruption f)
  | .runHandler | .complete _ _ | .deliver _ | .answer _ _ => .error .disabled

def exec (s : State) (a : Action) : ExecM State :=
  if s.valid = false then .error .disabled
  else
    match a with
    | .complete i ec => s.complete i ec
    | .answer i o => s.answer i o
    | .runHandler =>
        match s.current, s.strand with
        | none, p :: ps => { s with strand := ps }.fiberResume p
        | _, _ => .error .disabled
    | .deliver o => if s.current = none then s.deliver o else .error .disabled
    | a =>
        match s.current with
        | none => .error .disabled
        | some f => call s f a

/-- Fiber 0 is the main fiber and has been scheduled; fiber 1 handles events of
the system and is never resumed here. -/
def State.initial : State where
  fibers := fun f => if f = 0 then .main else if f = 1 then .async else .off
  fiberCount := 2
  handles := fun _ => ⟨false, false, true⟩
  queues := fun _ => []
  locked := fun _ => false
  holders := fun _ => []
  owner := fun _ => none
  nlocked := fun _ => 0
  futures := fun _ => .empty
  promises := fun _ => true
  ops := []
  isOpen := true
  recvFiber := none
  sends := []
  strand := [⟨0, .outcome .done, true⟩]
  current := none
  valid := true
  log := [.post 0]

def Step (s : State) (a : Action) (s' : State) : Prop := exec s a = .ok s'

def Initial (s : State) : Prop := s = State.initial

theorem initial_self : Initial State.initial := rfl

end Emilua.Sched
