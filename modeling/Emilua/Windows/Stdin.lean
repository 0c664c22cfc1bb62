import Emilua.Lib.Transition

/-!
`stdin_service` on Windows: the thread that calls `ReadFile`, and the strand of the
VM, whose fibers call `read_some` and are interrupted. A step is a critical
section on `queue_mtx`, an atomic operation on `current_job`, the start or the
end of `ReadFile`, or a call of `CancelSynchronousIo`. The VM is not closed.

The first `read_some` makes the service; here its thread runs from the beginning.
-/
namespace Emilua.Windows.Stdin
open Transition

abbrev Fiber := Nat

/-- `waiting_fiber`, with the number of the call of `read_some`. -/
structure Read where
  id : Nat
  fiber : Fiber
deriving DecidableEq, Repr

/-- What a fiber is resumed with. -/
inductive Result where
  | read (ec : Nat) (numberOfBytesRead : Nat)
  | interrupted
deriving DecidableEq, Repr

def ERROR_OPERATION_ABORTED : Nat := 995

/-- Where the thread is. `starting` is before it locks the queue, `asleep` and
`woken` are in its wait for the queue to be filled, `ended` is before its
`compare_exchange_strong` and `denied` after it has failed. -/
inductive Reader where
  | starting
  | asleep
  | woken
  | taken (r : Read)
  | reading (r : Read) (aborted : Bool)
  | ended (r : Read) (result : Result)
  | denied (r : Read) (result : Result)
  | answered (r : Read) (result : Result)
deriving DecidableEq, Repr

/-- Where the strand is: `locked`, `requested` and `cancelled` are in the
interrupter, with the queue locked, before the first exchange, before a call of
`CancelSynchronousIo` and before the exchange after it. -/
inductive Strand where
  | free
  | locked (r : Read)
  | requested (r : Read)
  | cancelled (r : Read)
deriving DecidableEq, Repr

inductive Event where
  | queued (r : Read)
  | started (r : Read)
  | ended (r : Read)
  | cancelled (r : Read) (aborted : Option Read)
  | left (r : Read)
  | resumed (r : Read) (result : Result)
deriving DecidableEq, Repr

/-- `suspended` has the `read_some` that a fiber is in. The latest event is the
first one of the log. -/
structure State where
  queue : List Read
  vmCtx : Bool
  currentJob : Option Fiber
  reader : Reader
  strand : Strand
  posted : List (Read × Result)
  suspended : Fiber → Option Read
  next : Nat
  log : List Event

def State.initial : State := ⟨[], false, none, .starting, .free, [], fun _ => none, 0, []⟩

inductive Action where
  | readSome (f : Fiber)
  | interrupt (f : Fiber)
  | tryCancel
  | cancelSynchronousIo
  | retry (spurious : Bool)
  | resume
  | enter
  | wake
  | startRead
  | endRead (ec : Nat) (numberOfBytesRead : Nat)
  | release
  | acknowledge
  | post
deriving DecidableEq, Repr

namespace State

/-- `system_in_read_some`. -/
def readSome (s : State) (f : Fiber) : State :=
  let r : Read := ⟨s.next, f⟩
  { s with
    vmCtx := s.vmCtx || s.queue.isEmpty
    queue := s.queue ++ [r]
    reader := if s.queue.isEmpty && s.reader == .asleep then .woken else s.reader
    suspended := Function.update s.suspended f (some r)
    next := s.next + 1
    log := .queued r :: s.log }

/-- The search of the interrupter. -/
def interrupt (s : State) (r : Read) : State :=
  if s.queue.any (·.fiber == r.fiber) then
    { s with
      queue := s.queue.eraseP (·.fiber == r.fiber)
      posted := s.posted ++ [(r, .interrupted)] }
  else { s with strand := .locked r }

/-- The first exchange of the interrupter. -/
def tryCancel (s : State) (r : Read) : State :=
  if s.currentJob = some r.fiber then { s with currentJob := none, strand := .requested r }
  else { s with strand := .free }

def cancelSynchronousIo (s : State) (r : Read) : State :=
  match s.reader with
  | .reading r' _ =>
      { s with
        reader := .reading r' true
        strand := .cancelled r
        log := .cancelled r (some r') :: s.log }
  | _ => { s with strand := .cancelled r, log := .cancelled r none :: s.log }

/-- The exchange that ends the loop; a weak one may fail for no reason. -/
def retry (s : State) (r : Read) (spurious : Bool) : State :=
  if spurious = false ∧ s.currentJob = some r.fiber then
    { s with currentJob := none, strand := .free, log := .left r :: s.log }
  else { s with strand := .requested r }

def resume (s : State) (r : Read) (result : Result) (rest : List (Read × Result)) : State :=
  { s with
    posted := rest
    suspended := Function.update s.suspended r.fiber none
    log := .resumed r result :: s.log }

/-- The thread in its critical section. -/
def enter (s : State) : State :=
  match s.queue with
  | [] => { s with reader := .asleep, vmCtx := s.vmCtx && s.reader != .starting }
  | r :: queue => { s with reader := .taken r, currentJob := some r.fiber, queue := queue }

/-- The exchange of the thread. -/
def release (s : State) (r : Read) (result : Result) : State :=
  if s.currentJob = some r.fiber then { s with currentJob := none, reader := .answered r result }
  else { s with reader := .denied r result }

end State

def exec (s : State) : Action → Except Unit State
  | .readSome f =>
      if s.strand = .free ∧ s.suspended f = none then .ok (s.readSome f) else .error ()
  | .interrupt f =>
      match s.strand, s.suspended f with
      | .free, some r => .ok (s.interrupt r)
      | _, _ => .error ()
  | .tryCancel =>
      match s.strand with
      | .locked r => .ok (s.tryCancel r)
      | _ => .error ()
  | .cancelSynchronousIo =>
      match s.strand with
      | .requested r => .ok (s.cancelSynchronousIo r)
      | _ => .error ()
  | .retry spurious =>
      match s.strand with
      | .cancelled r => .ok (s.retry r spurious)
      | _ => .error ()
  | .resume =>
      match s.strand, s.posted with
      | .free, (r, result) :: rest => .ok (s.resume r result rest)
      | _, _ => .error ()
  | .enter =>
      if s.strand = .free ∧ (s.reader = .starting ∨ s.reader = .woken) then .ok s.enter
      else .error ()
  | .wake => if s.reader = .asleep then .ok { s with reader := .woken } else .error ()
  | .startRead =>
      match s.reader with
      | .taken r => .ok { s with reader := .reading r false, log := .started r :: s.log }
      | _ => .error ()
  | .endRead ec n =>
      match s.reader with
      | .reading r aborted =>
          let result : Result := if aborted then .read ERROR_OPERATION_ABORTED 0 else .read ec n
          .ok { s with reader := .ended r result, log := .ended r :: s.log }
      | _ => .error ()
  | .release =>
      match s.reader with
      | .ended r result => .ok (s.release r result)
      | _ => .error ()
  | .acknowledge =>
      match s.reader with
      | .denied r result => .ok { s with reader := .answered r result, currentJob := some r.fiber }
      | _ => .error ()
  | .post =>
      match s.reader with
      | .answered r result => .ok { s with reader := .starting, posted := s.posted ++ [(r, result)] }
      | _ => .error ()

def Step (s : State) (a : Action) (s' : State) : Prop := exec s a = .ok s'

abbrev Reachable (s : State) : Prop := Transition.Reachable (· = .initial) Step s

/-! What holds for every run. -/

def queued (log : List Event) : List Read :=
  log.filterMap fun
    | .queued r => some r
    | _ => none

def started (log : List Event) : List Read :=
  log.filterMap fun
    | .started r => some r
    | _ => none

def resumed (log : List Event) : List Read :=
  log.filterMap fun
    | .resumed r _ => some r
    | _ => none

structure Sound (s : State) : Prop where
  once : (resumed s.log).Nodup
  order : (started s.log).Sublist (queued s.log)
  own : ∀ r r', .cancelled r (some r') ∈ s.log → r' = r
  left : ∀ r pre post, s.log = post ++ .left r :: pre → .ended r ∈ pre

end Emilua.Windows.Stdin
