import Emilua.Value
import Emilua.Lib.Rendezvous

/-!
The state of a process with any number of actors. Every VM is a strand: a list
of posted handlers that run one at a time, in the order they were posted, and
in between at most one fiber that runs Lua code. A handler that resumes a fiber
goes on when that fiber yields; only the direct delivery of a message has
something left to do then, which is its continuation.

Suspensions and sends carry a number, and a history records what was sent,
handed to a receive, completed and woken. Neither is read by the code.
-/
namespace Emilua.Actor
open Emilua

abbrev FiberId := Nat

/-- A fiber of some VM. -/
abbrev Party := VmId × FiberId

inductive WakeError where
  | interrupted
  | channelClosed
  | noSenders
deriving DecidableEq, Repr

/-- `elsewhere` is any suspension that is not the channels' business, including
that of a fiber that has not been started. -/
inductive Suspension where
  | running
  | sending (id : Nat) (dest : VmId)
  | receiving (id : Nat)
  | elsewhere
  | finished
deriving DecidableEq, Repr

/-- The closure stored under `INTERRUPTER`, with the upvalues it reads. -/
inductive Interrupter where
  | none
  | send (handle : Nat) (dest : VmId)
  | receive
deriving DecidableEq, Repr

structure Fiber where
  suspension : Suspension
  interrupter : Interrupter
  interruptionDisabled : Bool
deriving DecidableEq, Repr

/-- `inbox_t::sender_state`. A message from another process has no sender. -/
structure SenderState where
  vm : Option VmId
  fiber : FiberId
  msg : Value
  wakeOnDestruct : Bool
  id : Nat

inductive Handler where
  | deliver (sender : Party) (msg : Value) (id : Nat)
  | interruptSend (vm : VmId) (fiber : FiberId)
  | resume (fiber : Option FiberId) (error : Option WakeError)
  | noSenders
  | attachService (id : Nat)

/-- `ipc_actor_inbox_service`. -/
structure Service where
  id : Nat
  running : Bool
deriving DecidableEq, Repr

/-- `vm_context` and its inbox. `waits` are the armed waits of the services and
`addresses` the `actor_address` userdata of the VM. -/
structure Vm where
  alive : Bool
  valid : Bool
  isOpen : Bool
  imported : Bool
  recvFiber : Option FiberId
  incoming : List SenderState
  nsenders : Nat
  services : List Service
  waits : List Nat
  addresses : List (Nat × VmId)
  strand : List Handler
  current : Option FiberId
  cont : Option Party
  fibers : FiberId → Fiber

abbrev Send := Rendezvous.Send Party VmId

abbrev History := Rendezvous.History Party VmId WakeError

structure State where
  vms : VmId → Vm
  vmCount : Nat
  fresh : Nat
  hist : History

/-- Why an action does not lead to another state: it is not possible here, or
it is undefined behaviour of the source. -/
inductive Fault where
  | disabled
  | nullFiber
  | notSuspended
  | nullSender
  | danglingService
  | closedHandle
  | outOfBounds
deriving DecidableEq, Repr

abbrev ExecM := Except Fault

namespace Vm

def fresh (nsenders : Nat) : Vm where
  alive := true
  valid := true
  isOpen := true
  imported := false
  recvFiber := none
  incoming := []
  nsenders := nsenders
  services := []
  waits := []
  addresses := []
  strand := []
  current := none
  cont := none
  fibers := fun _ => ⟨.elsewhere, .none, false⟩

/-- An identifier no VM has been created for. -/
def absent : Vm := { fresh 0 with alive := false, valid := false, isOpen := false }

def setFiber (m : Vm) (f : FiberId) (g : Fiber → Fiber) : Vm :=
  { m with fibers := Function.update m.fibers f (g (m.fibers f)) }

/-- `set_interrupter` on behalf of fiber `f`. -/
def setInterrupter (m : Vm) (f : FiberId) (i : Interrupter) : Vm :=
  m.setFiber f fun g => if g.interruptionDisabled then g else { g with interrupter := i }

/-- Fiber `f` is in `x` from here on. -/
def switch (m : Vm) (f : FiberId) (i : Interrupter) (x : Suspension) : Vm :=
  (m.setInterrupter f i).setFiber f fun g => { g with suspension := x }

def resumed (m : Vm) (f : FiberId) : Vm :=
  { m.switch f .none .running with current := some f }

/-- The VM is closed. A fiber that waits to receive is not told. -/
def invalidated (m : Vm) : Vm := { m with valid := false, isOpen := false, recvFiber := none }

@[simp] theorem setFiber_fibers_self (m : Vm) (f : FiberId) (g : Fiber → Fiber) :
    (m.setFiber f g).fibers f = g (m.fibers f) := Function.update_self ..

theorem setFiber_fibers_ne (m : Vm) {f f' : FiberId} (h : f' ≠ f) (g : Fiber → Fiber) :
    (m.setFiber f g).fibers f' = m.fibers f' := Function.update_of_ne h ..

@[simp] theorem setInterrupter_suspension (m : Vm) (f f' : FiberId) (i : Interrupter) :
    ((m.setInterrupter f i).fibers f').suspension = (m.fibers f').suspension := by
  by_cases h : f' = f
  · subst h
    rw [setInterrupter, setFiber_fibers_self]
    split <;> rfl
  · rw [setInterrupter, setFiber_fibers_ne m h]

@[simp] theorem switch_suspension_self (m : Vm) (f : FiberId) (i : Interrupter) (x : Suspension) :
    ((m.switch f i x).fibers f).suspension = x := by
  simp [switch]

theorem switch_suspension_ne (m : Vm) {f f' : FiberId} (h : f' ≠ f) (i : Interrupter)
    (x : Suspension) : ((m.switch f i x).fibers f').suspension = (m.fibers f').suspension := by
  simp [switch, setFiber_fibers_ne _ h]

@[simp] theorem resumed_suspension_self (m : Vm) (f : FiberId) :
    ((m.resumed f).fibers f).suspension = .running := switch_suspension_self ..

theorem resumed_suspension_ne (m : Vm) {f f' : FiberId} (h : f' ≠ f) :
    ((m.resumed f).fibers f').suspension = (m.fibers f').suspension := switch_suspension_ne m h ..

/-- `ipc_actor_inbox_service::async_enqueue` for every service. -/
def enqueueServices (m : Vm) : Vm :=
  { m with
    services := m.services.map fun k => { k with running := true }
    waits := m.waits ++ (m.services.filter fun k => !k.running).map Service.id }

end Vm

/-- What the history says once a fiber has been resumed: its suspension is over. -/
def Suspension.resumed (h : History) (error : Option WakeError) : Suspension → Option History
  | .sending n _ => some (h.complete n error)
  | .receiving k => some (h.wake k error)
  | .running | .elsewhere | .finished => none

namespace State

def modify (s : State) (v : VmId) (g : Vm → Vm) : State :=
  { s with vms := Function.update s.vms v (g (s.vms v)) }

@[simp] theorem modify_vms_self (s : State) (v : VmId) (g : Vm → Vm) :
    (s.modify v g).vms v = g (s.vms v) := Function.update_self ..

theorem modify_vms_ne (s : State) {v u : VmId} (h : u ≠ v) (g : Vm → Vm) :
    (s.modify v g).vms u = s.vms u := Function.update_of_ne h ..

@[simp] theorem modify_vmCount (s : State) (v : VmId) (g : Vm → Vm) :
    (s.modify v g).vmCount = s.vmCount := rfl

@[simp] theorem modify_fresh (s : State) (v : VmId) (g : Vm → Vm) :
    (s.modify v g).fresh = s.fresh := rfl

@[simp] theorem modify_hist (s : State) (v : VmId) (g : Vm → Vm) :
    (s.modify v g).hist = s.hist := rfl

/-- A property of single VMs survives a modification of `v` if it does there. -/
theorem modify_vms_cases {s : State} {v : VmId} {Q : VmId → Vm → Prop} (g : Vm → Vm)
    (hself : Q v (g (s.vms v))) (hother : ∀ u, u ≠ v → Q u (s.vms u)) (u : VmId) :
    Q u ((s.modify v g).vms u) := by
  by_cases hu : u = v
  · subst hu
    rwa [modify_vms_self]
  · rw [modify_vms_ne s hu]
    exact hother u hu

def post (s : State) (v : VmId) (h : Handler) : State :=
  s.modify v fun m => { m with strand := m.strand ++ [h] }

theorem post_vms (s : State) (u v : VmId) (h : Handler) :
    (s.post u h).vms v =
      { s.vms v with strand := (s.vms v).strand ++ if v = u then [h] else [] } := by
  by_cases hv : v = u
  · subst hv
    simp [post]
  · simp [post, modify_vms_ne s hv, hv]

/-- A number has been given out. -/
def tick (s : State) : State := { s with fresh := s.fresh + 1 }

def record (s : State) (hist : History) : State := { s with hist := hist }

@[simp] theorem tick_vms (s : State) : s.tick.vms = s.vms := rfl

@[simp] theorem tick_vmCount (s : State) : s.tick.vmCount = s.vmCount := rfl

@[simp] theorem tick_fresh (s : State) : s.tick.fresh = s.fresh + 1 := rfl

@[simp] theorem tick_hist (s : State) : s.tick.hist = s.hist := rfl

@[simp] theorem record_vms (s : State) (hist : History) : (s.record hist).vms = s.vms := rfl

@[simp] theorem record_vmCount (s : State) (hist : History) :
    (s.record hist).vmCount = s.vmCount := rfl

@[simp] theorem record_fresh (s : State) (hist : History) : (s.record hist).fresh = s.fresh := rfl

@[simp] theorem record_hist (s : State) (hist : History) : (s.record hist).hist = hist := rfl

@[simp] theorem post_vmCount (s : State) (v : VmId) (h : Handler) :
    (s.post v h).vmCount = s.vmCount := rfl

@[simp] theorem post_fresh (s : State) (v : VmId) (h : Handler) : (s.post v h).fresh = s.fresh := rfl

@[simp] theorem post_hist (s : State) (v : VmId) (h : Handler) : (s.post v h).hist = s.hist := rfl

/-- The copy constructor of `actor_address`. -/
def copyAddress (s : State) (d : VmId) : State :=
  if (s.vms d).alive then s.modify d fun m => { m with nsenders := m.nsenders + 1 } else s

/-- `actor_address::~actor_address`. -/
def dropAddress (s : State) (d : VmId) : State :=
  if (s.vms d).alive then
    let s := s.modify d fun m => { m with nsenders := m.nsenders - 1 }
    if (s.vms d).nsenders = 0 then s.post d .noSenders else s
  else s

def copyAddresses (s : State) (ds : List VmId) : State := ds.foldl copyAddress s

def dropAddresses (s : State) (ds : List VmId) : State := ds.foldl dropAddress s

/-- `push_address` moves an address of a message to a userdata of the VM. -/
def adoptAddress (v : VmId) (s : State) (d : VmId) : State :=
  (s.modify v fun m => { m with addresses := (s.fresh, d) :: m.addresses }).tick

def adoptAddresses (s : State) (v : VmId) (ds : List VmId) : State := ds.foldl (adoptAddress v) s

/-- `sender_state::~sender_state`, then the destructor of its message. -/
def destroySender (s : State) (e : SenderState) : ExecM State :=
  if e.wakeOnDestruct then
    match e.vm with
    | none => .error .nullSender
    | some u =>
        .ok ((s.post u (.resume (some e.fiber) (some .channelClosed))).dropAddresses
          e.msg.addresses)
  else .ok (s.dropAddresses e.msg.addresses)

/-- Every entry has been marked `wake_on_destruct`; `incoming.clear()` destroys
them in order. -/
def clearIncoming (s : State) (v : VmId) : List SenderState → ExecM State
  | [] => .ok s
  | e :: es => do
      let s ← (s.modify v fun m => { m with incoming := es }).destroySender
        { e with wakeOnDestruct := true }
      s.clearIncoming v es

/-- `vm_context::fiber_resume`, up to the first instruction of the fiber. -/
def fiberResume (s : State) (v : VmId) (fiber : Option FiberId) (error : Option WakeError) :
    ExecM State :=
  if (s.vms v).valid = false then .ok s
  else
    match fiber with
    | none => .error .nullFiber
    | some f =>
        match ((s.vms v).fibers f).suspension.resumed s.hist error with
        | none => .error .notSuspended
        | some hist =>
            .ok ((s.modify v (Vm.resumed · f)).record hist)

/-- The current fiber has yielded (or its VM is gone) and the handler that
resumed it runs to its end. -/
def yield (s : State) (v : VmId) : State :=
  let s' := s.modify v fun m => { m with current := none, cont := none }
  match (s.vms v).cont with
  | none => s'
  | some p => s'.post p.1 (.resume (some p.2) none)

/-- The fiber that can call into the runtime. -/
def runningFiber (s : State) (v : VmId) : ExecM FiberId :=
  if (s.vms v).valid then
    match (s.vms v).current with
    | some f => .ok f
    | none => .error .disabled
  else .error .disabled

end State

end Emilua.Actor
